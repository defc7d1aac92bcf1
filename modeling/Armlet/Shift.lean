import Armlet.Word
import Armlet.Register

/-!
# The barrel shifter

A register operand passes through the shifter on its way to the adder. The
amount is a constant of the instruction or the bottom byte of a register, so it
may exceed the width of a word: a left shift or a logical right shift then
leaves nothing, an arithmetic one leaves copies of the sign, and a rotation goes
on round.

The shifter reports the last bit it pushed out as its carry. A shift by zero
pushes nothing out: it returns its input and reports no carry.
-/

namespace Armlet

/-- What the shifter can do. -/
inductive ShiftType where
  /-- logical shift left -/
  | lsl
  /-- logical shift right -/
  | lsr
  /-- arithmetic shift right -/
  | asr
  /-- rotate right -/
  | ror
  deriving DecidableEq, Repr

/-- What the shifter delivers: a value, and a carry if it reports one. -/
structure ShifterOutput where
  value : Word
  carry : Option Bool
  deriving DecidableEq, Repr

namespace ShiftType

/-- The types in the order of their codes. -/
def all : Vector ShiftType 4 := #v[lsl, lsr, asr, ror]

/-- The 2-bit code of a type. -/
def bits : ShiftType → BitVec 2
  | lsl => 0 | lsr => 1 | asr => 2 | ror => 3

/-- The type with a given code. Every code has one. -/
def ofBits (b : BitVec 2) : ShiftType := all.get b.toFin

@[simp]
theorem ofBits_bits (k : ShiftType) : ofBits k.bits = k := by cases k <;> rfl

@[simp]
theorem bits_ofBits : ∀ b : BitVec 2, (ofBits b).bits = b := by decide

/-- The mnemonic of a shift. -/
def name : ShiftType → String
  | lsl => "lsl" | lsr => "lsr" | asr => "asr" | ror => "ror"

/-- The shift with a given mnemonic. -/
def ofName? (s : String) : Option ShiftType :=
  all.toList.find? fun k => k.name == s

/-- The value a shift by a positive amount leaves. -/
def shiftValue (kind : ShiftType) (value : Word) (amount : Nat) : Word :=
  match kind with
  | lsl => if amount < 32 then value <<< amount else 0
  | lsr => value >>> amount
  | asr => value.sshiftRight amount
  | ror => value.rotateRight amount

/-- The last bit a shift by a positive amount pushes out. -/
def shiftCarry (kind : ShiftType) (value : Word) (amount : Nat) : Bool :=
  match kind with
  | lsl => decide (amount ≤ 32) && value.getLsbD (32 - amount)
  | lsr => value.getLsbD (amount - 1)
  | asr => value.getLsbD (min (amount - 1) 31)
  | ror => (value.rotateRight amount).msb

/-- Shifts `value` by `amount` places. -/
def shift (kind : ShiftType) (value : Word) (amount : Nat) : ShifterOutput :=
  if amount = 0 then ⟨value, none⟩
  else ⟨kind.shiftValue value amount, some (kind.shiftCarry value amount)⟩

end ShiftType

/-- How an instruction gives the amount of a shift. -/
inductive Shift where
  /-- A constant. A word has five bits for it. -/
  | amount (kind : ShiftType) (amount : BitVec 8)
  /-- The bottom byte of `rs`. -/
  | register (kind : ShiftType) (rs : Register)
  deriving DecidableEq, Repr

/-- The shift that changes nothing. -/
def Shift.identity : Shift := .amount .lsl 0

/-- A register operand: `rm`, shifted. -/
structure RegisterOperand where
  rm : Register
  shift : Shift
  deriving DecidableEq, Repr

/-- A register operand that is not shifted. -/
def RegisterOperand.unshifted (rm : Register) : RegisterOperand := ⟨rm, .identity⟩

end Armlet
