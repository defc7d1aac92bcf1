import Armlet.CommandLine.Arguments
import Armlet.CommandLine.Command
import Armlet.Report.Disassembly

/-!
# The command `disasm`

Prints the disassembly of an image, or writes it to a file.
-/

namespace Armlet

namespace DisassembleCommand

/-- How the command is called. -/
def usage : String := "disasm IMAGE [--show-bytes] [--out FILE]"

/-- What the arguments ask for. -/
structure Options where
  image : String
  showBytes : Bool
  target : Option String
  deriving DecidableEq, Repr

/-- The options of the command. -/
def specs : List OptionSpec := [⟨"show-bytes", none, false⟩, ⟨"out", none, true⟩]

/-- Reads the arguments: exactly one of them is plain. -/
def Options.parse? (words : List String) : Option Options := do
  let arguments ← Arguments.parse? specs words
  match arguments.plain with
  | [image] =>
    some ⟨image, arguments.flags.contains "show-bytes", arguments.options.lookup "out"⟩
  | _ => none

variable {m : Type → Type} [Monad m] [FileStore m]

/-- The command, given its arguments. -/
def command (words : List String) : m Exit :=
  match Options.parse? words with
  | none => return .badArguments usage
  | some o => CommandM.exit do
    let content ← CommandM.readBytes o.image
    let text := disassemble o.showBytes (content.toList.map UInt8.toBitVec)
    match o.target with
    | none => return text
    | some name =>
      CommandM.writeBytes name text.toUTF8
      return ""

end DisassembleCommand

end Armlet
