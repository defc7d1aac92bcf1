import Armlet.Word
import Armlet.Text.Numeral

/-!
# Traps

The reasons for which the machine refuses to go on.
-/

namespace Armlet

/-- Why the machine stopped. -/
inductive Trap where
  /-- The word `raw`, fetched from `pc`, is no instruction. -/
  | invalidInstruction (pc raw : Word)
  /-- The address of an access is not a multiple of four. -/
  | unaligned (addr : Word)
  /-- Memory ends before the end of the word at `addr`. -/
  | outOfRange (addr : Word)
  /-- The run is as long as its limit allows. -/
  | stepLimit (steps : Nat)
  deriving DecidableEq, Repr

/-- The trap in words, with its addresses in hexadecimal. -/
def Trap.message : Trap → String
  | invalidInstruction pc raw =>
    "Invalid instruction " ++ Numeral.hex 8 raw.toNat ++ " at " ++ Numeral.hex 8 pc.toNat
  | unaligned addr => "Unaligned access at " ++ Numeral.hex 8 addr.toNat
  | outOfRange addr => "Out of bounds memory access at " ++ Numeral.hex 8 addr.toNat
  | stepLimit steps => "Step limit of " ++ Numeral.decimal steps ++ " instructions reached"

end Armlet
