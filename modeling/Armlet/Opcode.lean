/-!
# Operations of the data-processing class

Ten of the sixteen codes are in use. `tst`, `teq` and `cmp` compute for the
sake of the flags alone.
-/

namespace Armlet

/-- The operations, by the names of their mnemonics. -/
inductive Opcode where
  | and | eor | sub | rsb | add | tst | teq | cmp | orr | mov
  deriving DecidableEq, Repr

namespace Opcode

/-- The 4-bit code of an operation. -/
def bits : Opcode → BitVec 4
  | and => 0x0 | eor => 0x1 | sub => 0x2 | rsb => 0x3 | add => 0x4
  | tst => 0x8 | teq => 0x9 | cmp => 0xA | orr => 0xC | mov => 0xD

/-- Every operation. -/
def all : List Opcode := [and, eor, sub, rsb, add, tst, teq, cmp, orr, mov]

/-- The operation with a given code, if the code is in use. -/
def ofBits? (b : BitVec 4) : Option Opcode := all.find? fun op => op.bits = b

@[simp]
theorem ofBits?_bits (op : Opcode) : ofBits? op.bits = some op := by cases op <;> rfl

theorem ofBits?_eq_some_iff {b : BitVec 4} {op : Opcode} :
    ofBits? b = some op ↔ op.bits = b := by
  constructor
  · intro h
    simpa using List.find?_some h
  · rintro rfl
    exact ofBits?_bits op

/-- Whether the result goes to the destination register. -/
def keepsResult : Opcode → Bool
  | tst | teq | cmp => false
  | _ => true

/-- The mnemonic of an operation. -/
def name : Opcode → String
  | and => "and" | eor => "eor" | sub => "sub" | rsb => "rsb" | add => "add"
  | tst => "tst" | teq => "teq" | cmp => "cmp" | orr => "orr" | mov => "mov"

end Opcode

end Armlet
