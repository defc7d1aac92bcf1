import Armlet.Instruction
import Armlet.Machine.Trap

/-!
# Events and outcomes

An operation of the machine does three things: it answers or traps, it leaves a
state, and it lets some events be observed on the way. `Outcome` keeps the three
apart. A trap does not hide the state: what the operation had done until then is
there to be looked at.
-/

namespace Armlet

/-- Something to be observed while the machine works. -/
inductive Event where
  /-- The word `raw` was fetched from `pc` and is about to be executed. -/
  | decoded (pc raw : Word) (instruction : Instruction)
  /-- The instruction at `pc` was skipped, because its condition does not hold. -/
  | conditionFailed (cond : Condition) (pc : Word)
  /-- An output pin was switched. -/
  | pin (number : Nat) (on : Bool)
  /-- A run came to its end after `steps` instructions. -/
  | halted (pc : Word) (steps : Nat)
  deriving DecidableEq, Repr

/-- What an operation on a state of type `σ` did. -/
structure Outcome (σ α : Type) where
  answer : Except Trap α
  state : σ
  /-- The events in the order they occurred. -/
  events : List Event

end Armlet
