import Armlet.Instruction.Decode
import Armlet.Machine.Execution

/-!
# Steps and runs

A step fetches the word at the program counter, decodes and executes it, and goes
on to the next word unless the instruction jumped or halted. A run is a sequence
of steps up to the first halt or trap.

A run counts its steps, the halt included, and gives up with a trap of its own
when a further step would exceed the limit. Without a limit the run is bounded
only by the width of the 64-bit counter.
-/

namespace Armlet

namespace Machine

variable {β : Type} [Bus β]

/-- Moves the program counter from `pc` to the next word. -/
def advance (m : Machine β) (pc : Word) : Machine β := { m with cpu := m.cpu.set .pc (pc + 4) }

/-- Fetches, decodes and executes one instruction. -/
def step (m : Machine β) : Outcome (Machine β) Flow :=
  let pc := m.cpu.pc
  match Bus.read m.bus pc with
  | .error trap => ⟨.error trap, m, []⟩
  | .ok raw =>
    match Instruction.decode? raw with
    | none => ⟨.error (.invalidInstruction pc raw), m, []⟩
    | some i =>
      let out := m.execute i
      let state := match out.answer with
        | .ok .next => out.state.advance pc
        | _ => out.state
      ⟨out.answer, state, .decoded pc raw i :: out.events⟩

/-- Steps until a halt or a trap, at most `left` times, after `done` steps have been made. -/
def runFrom (done : Nat) : Nat → Machine β → Except Trap Nat × Machine β
  | 0, m => (.error (.stepLimit done), m)
  | left + 1, m =>
    let out := m.step
    match out.answer with
    | .error trap => (.error trap, out.state)
    | .ok .halt => (.ok (done + 1), out.state)
    | .ok _ => runFrom (done + 1) left out.state

/-- The number of steps a run may make. -/
def stepBound (m : Machine β) : Nat := m.cpu.maxSteps.getD 0x10000000000000000

/-- Runs to the end. Answers the number of steps, or the trap that stopped the run. -/
def run (m : Machine β) : Except Trap Nat × Machine β := runFrom 0 m.stepBound m

/-- The events of `runFrom done left m`. -/
def eventsFrom (done : Nat) : Nat → Machine β → List Event
  | 0, _ => []
  | left + 1, m =>
    let out := m.step
    match out.answer with
    | .error _ => out.events
    | .ok .halt => out.events ++ [.halted out.state.cpu.pc (done + 1)]
    | .ok _ => out.events ++ eventsFrom (done + 1) left out.state

/-- The events of a run. -/
def runEvents (m : Machine β) : List Event := eventsFrom 0 m.stepBound m

end Machine

end Armlet
