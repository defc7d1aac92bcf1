import Armlet.Assembler.Program
import Armlet.CommandLine.Arguments
import Armlet.CommandLine.Command
import Armlet.Report.Json

/-!
# The command `asm`

Assembles a source file into an image, and on request writes the label table. The
image is written first: if the table cannot be written, the image is there all the
same.
-/

namespace Armlet

/-- The label table as an array of records, in the order of a listing. -/
def SymbolTable.toJson (labels : SymbolTable) : Json :=
  .array (labels.listing.map fun (name, addr) =>
    .object [("addr", .number addr.toNat), ("name", .string name)])

namespace AssembleCommand

/-- How the command is called. -/
def usage : String := "asm SOURCE IMAGE [--labels-out FILE]"

/-- What the arguments ask for. -/
structure Options where
  source : String
  image : String
  labels : Option String
  deriving DecidableEq, Repr

/-- The options of the command. -/
def specs : List OptionSpec := [⟨"labels-out", none, true⟩]

/-- No file has an empty name. -/
def Options.parse? (words : List String) : Option Options := do
  let arguments ← Arguments.parse? specs words
  match arguments.plain, arguments.options.lookup "labels-out" with
  | [source, image], labels =>
    if source = "" ∨ image = "" ∨ labels = some "" then none else some ⟨source, image, labels⟩
  | _, _ => none

/-- The failure of an assembly: the whole message first, and then the cause without its line. -/
def failure (source : String) (d : Diagnostic) : Failure :=
  ⟨source, if d.line.isSome then [d.message, d.cause.message] else [d.message]⟩

/-- The bytes of an image, as a file holds them. -/
def fileContent (image : List Byte) : ByteArray :=
  ⟨(image.map fun b => UInt8.ofBitVec b).toArray⟩

variable {m : Type → Type} [Monad m] [FileStore m]

/-- The command, given its arguments. -/
def command (words : List String) : m Exit :=
  match Options.parse? words with
  | none => return .badArguments usage
  | some o => CommandM.exit do
    let text ← CommandM.readText o.source
    let program ← MonadExcept.ofExcept ((Program.ofSource text).mapError (failure o.source))
    CommandM.writeBytes o.image (fileContent program.image)
    if let some name := o.labels then
      CommandM.writeBytes name program.labels.toJson.pretty.toUTF8
    return ""

end AssembleCommand

end Armlet
