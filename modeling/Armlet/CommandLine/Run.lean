import Armlet.CommandLine.Arguments
import Armlet.CommandLine.Command
import Armlet.Machine.Run
import Armlet.Report.State

/-!
# The command `run`

Loads an image at address 0 of a fresh machine, runs it from its entry, and prints
the state at the end.
-/

namespace Armlet

namespace RunCommand

/-- How the command is called. -/
def usage : String := "run [-e|--entry ADDRESS] [--max-steps COUNT] [--json] IMAGE"

/-- What the arguments ask for. -/
structure Options where
  entry : Word
  maxSteps : Option Nat
  json : Bool
  image : String
  deriving DecidableEq, Repr

/-- The options of the command. -/
def specs : List OptionSpec :=
  [⟨"entry", some 'e', true⟩, ⟨"max-steps", none, true⟩, ⟨"json", none, false⟩]

/-- An address in decimal. A sign is allowed where it makes no difference. -/
def address? (text : String) : Option Word :=
  ((Numeral.int64? text.toList).filter fun n => 0 ≤ n ∧ n < 0x100000000).map (BitVec.ofInt 32)

/-- A step count in decimal that fits 64 bits. -/
def count? (text : String) : Option Nat :=
  (Numeral.unsigned? 10 text.toList).filter (· < 0x10000000000000000)

/-- Reads an option that may be absent; `none` only if it is there and wrong. -/
def optional? {α : Type} (read? : String → Option α) : Option String → Option (Option α)
  | none => some none
  | some text => (read? text).map some

/-- Reads the arguments: exactly one of them is plain. -/
def Options.parse? (words : List String) : Option Options := do
  let arguments ← Arguments.parse? specs words
  let entry ← optional? address? (arguments.options.lookup "entry")
  let maxSteps ← optional? count? (arguments.options.lookup "max-steps")
  match arguments.plain with
  | [image] => some ⟨entry.getD 0, maxSteps, arguments.flags.contains "json", image⟩
  | _ => none

/-- The state at the end of a run, in writing. -/
def report (json : Bool) (m : Machine Board) : String :=
  if json then (stateJson m.cpu (some m.bus.pins)).pretty ++ "\n"
  else stateListing m.cpu m.bus.ram

/-- Loads an image, runs it and reports. -/
def execute (o : Options) (image : Array Byte) : Except Failure String :=
  match Board.initial.ram.load image with
  | .error trap => .error ⟨o.image ++ " does not fit in memory", [trap.message]⟩
  | .ok ram =>
    let cpu := (Processor.initial o.maxSteps).reset o.entry
    match (Machine.mk cpu { Board.initial with ram }).run with
    | (.error trap, _) => .error ⟨trap.message, []⟩
    | (.ok _, m) => .ok (report o.json m)

variable {m : Type → Type} [Monad m] [FileStore m]

/-- The command, given its arguments. -/
def command (words : List String) : m Exit :=
  match Options.parse? words with
  | none => return .badArguments usage
  | some o => CommandM.exit do
    let content ← CommandM.readBytes o.image
    MonadExcept.ofExcept (execute o (content.data.map UInt8.toBitVec))

end RunCommand

end Armlet
