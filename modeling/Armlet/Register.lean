import Armlet.Text.Numeral

/-!
# Registers

Sixteen registers, addressed by a 4-bit field. Three of them have names of
their own: r13 is the stack pointer, r14 the link register, r15 the program
counter.

A register may be spelled by its number, and the last three also by name;
`ofName?` accepts these spellings and no others, so `r01` or `R1` is not a
register.
-/

namespace Armlet

/-- The registers, by the names they are printed with. -/
inductive Register where
  | r0 | r1 | r2 | r3 | r4 | r5 | r6 | r7 | r8 | r9 | r10 | r11 | r12
  | sp | lr | pc
  deriving DecidableEq, Repr

namespace Register

/-- The registers in the order of their numbers. -/
def all : Vector Register 16 :=
  #v[r0, r1, r2, r3, r4, r5, r6, r7, r8, r9, r10, r11, r12, sp, lr, pc]

/-- The number of a register. -/
def index : Register → Fin 16
  | r0 => 0 | r1 => 1 | r2 => 2 | r3 => 3
  | r4 => 4 | r5 => 5 | r6 => 6 | r7 => 7
  | r8 => 8 | r9 => 9 | r10 => 10 | r11 => 11
  | r12 => 12 | sp => 13 | lr => 14 | pc => 15

/-- The 4-bit field that selects a register. -/
def bits (r : Register) : BitVec 4 := BitVec.ofFin r.index

/-- The register a 4-bit field selects. Every field selects one. -/
def ofBits (b : BitVec 4) : Register := all.get b.toFin

@[simp]
theorem ofBits_bits (r : Register) : ofBits r.bits = r := by cases r <;> rfl

@[simp]
theorem bits_ofBits : ∀ b : BitVec 4, (ofBits b).bits = b := by decide

theorem index_injective {r s : Register} (h : r.index = s.index) : r = s := by
  rw [← ofBits_bits r, ← ofBits_bits s, bits, bits, h]

/-- The name a register is printed with. -/
def name : Register → String
  | r0 => "r0" | r1 => "r1" | r2 => "r2" | r3 => "r3"
  | r4 => "r4" | r5 => "r5" | r6 => "r6" | r7 => "r7"
  | r8 => "r8" | r9 => "r9" | r10 => "r10" | r11 => "r11"
  | r12 => "r12" | sp => "sp" | lr => "lr" | pc => "pc"

/-- The number of a register as it is spelled behind the `r`: decimal digits alone, with no zero
before other digits, and a value of at most 64 bits. -/
def number? (digits : List Char) : Option Nat :=
  if !digits.all Char.isDigit || (decide (1 < digits.length) && digits.head? == some '0') then none
  else (Numeral.unsigned? 10 digits).filter (· < 0x10000000000000000)

/-- The register with the given spelling. -/
def ofName? (s : String) : Option Register :=
  match s with
  | "sp" => some sp
  | "lr" => some lr
  | "pc" => some pc
  | _ =>
    match s.toList with
    | 'r' :: digits => (number? digits).bind fun n => all.toList[n]?
    | _ => none

end Register

end Armlet
