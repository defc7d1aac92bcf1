import Armlet.Opcode
import Armlet.Shift

/-!
# The arithmetic unit

Applies an operation to the first operand and the shifter's output. Addition and
subtraction report a carry and an overflow of their own; after a subtraction the
carry means that nothing had to be borrowed. The logical operations pass on the
carry of the shifter and say nothing about overflow.
-/

namespace Armlet

/-- A result and the flags reported with it. A flag that is not reported keeps its value. -/
structure AluResult where
  value : Word
  carry : Option Bool
  overflow : Option Bool
  deriving DecidableEq, Repr

namespace AluResult

/-- A sum that left the word is less than its operands. Overflow: both operands differ in sign
from the sum. -/
def sum (a b : Word) : AluResult where
  value := a + b
  carry := some (decide (a + b < a))
  overflow := some ((a ^^^ (a + b)) &&& (b ^^^ (a + b))).msb

/-- Overflow: the operands differ in sign, and the first one from the difference. -/
def difference (a b : Word) : AluResult where
  value := a - b
  carry := some (decide (b ≤ a))
  overflow := some ((a ^^^ b) &&& (a ^^^ (a - b))).msb

end AluResult

/-- The result of `a op b`, where `b` comes out of the shifter. -/
def Opcode.apply (op : Opcode) (a : Word) (b : ShifterOutput) : AluResult :=
  match op with
  | and | tst => ⟨a &&& b.value, b.carry, none⟩
  | eor | teq => ⟨a ^^^ b.value, b.carry, none⟩
  | orr => ⟨a ||| b.value, b.carry, none⟩
  | mov => ⟨b.value, b.carry, none⟩
  | add => .sum a b.value
  | sub | cmp => .difference a b.value
  | rsb => .difference b.value a

end Armlet
