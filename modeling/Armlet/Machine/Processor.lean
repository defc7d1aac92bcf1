import Armlet.Instruction
import Armlet.Machine.Flags

/-!
# The processor

Sixteen registers, the flags, and a limit on the length of a run. The program
counter is an ordinary register: it reads as the address of the instruction being
executed, and writing it is a jump.
-/

namespace Armlet

/-- The state of a processor. -/
structure Processor where
  registers : Vector Word 16
  flags : Flags
  /-- How many instructions a run may take, if there is a limit. -/
  maxSteps : Option Nat
  deriving DecidableEq, Repr

namespace Processor

/-- A processor at rest: all registers zero, all flags down. -/
def initial (maxSteps : Option Nat) : Processor := ⟨Vector.replicate 16 0, .clear, maxSteps⟩

/-- Clears registers and flags and puts the program counter at `entry`. -/
def reset (cpu : Processor) (entry : Word) : Processor where
  registers := (Vector.replicate 16 0).set Register.pc.index entry
  flags := .clear
  maxSteps := cpu.maxSteps

/-- The value of a register. -/
def get (cpu : Processor) (r : Register) : Word := cpu.registers[r.index]

/-- Gives a register a value. -/
def set (cpu : Processor) (r : Register) (value : Word) : Processor :=
  { cpu with registers := cpu.registers.set r.index value }

/-- The program counter. -/
def pc (cpu : Processor) : Word := cpu.get .pc

/-- Sets the flags from a result. -/
def updateFlags (cpu : Processor) (result : Word) (carry overflow : Option Bool) : Processor :=
  { cpu with flags := cpu.flags.update result carry overflow }

@[simp]
theorem get_set_self (cpu : Processor) (r : Register) (v : Word) : (cpu.set r v).get r = v := by
  simp [get, set]

theorem get_set_of_ne (cpu : Processor) {r s : Register} (v : Word) (h : s ≠ r) :
    (cpu.set r v).get s = cpu.get s := by
  have hi : r.index.val ≠ s.index.val := fun e => h (Register.index_injective (Fin.ext e.symm))
  simp [get, set, hi]

end Processor

end Armlet
