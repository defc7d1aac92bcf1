import Armlet.Instruction

/-!
# Mnemonics

The words a source line can begin with, and what each expects after it. Lookup is
exact: there is one spelling for each.
-/

namespace Armlet

/-- What a mnemonic contributes to its instruction, and the shape of its operands. -/
inductive Shape where
  /-- `op rd, rn, operand` -/
  | threeOperand (opcode : Opcode)
  /-- `mov rd, operand`, or `cmp rn, operand` and its like -/
  | twoOperand (opcode : Opcode)
  /-- `mul rd, rm, rs`, or `mla rd, rm, rs, rn` -/
  | multiply (accumulate : Bool)
  /-- `ldr rd, [rn, displacement]`, or `ldr rd, =value` -/
  | transfer (load : Bool)
  /-- `b label` -/
  | branch (cond : Condition)
  /-- `lsl rd, amount` -/
  | shift (kind : ShiftType)
  | halt
  deriving DecidableEq, Repr

/-- The least number of operands. A shift after a register is not counted. -/
def Shape.operandCount : Shape → Nat
  | threeOperand _ => 3
  | twoOperand _ => 2
  | multiply accumulate => if accumulate then 4 else 3
  | transfer _ => 2
  | branch _ => 1
  | shift _ => 2
  | halt => 0

/-- A mnemonic and what it stands for. -/
structure Mnemonic where
  name : String
  shape : Shape
  deriving DecidableEq, Repr

namespace Mnemonic

/-- All mnemonics. -/
def all : List Mnemonic :=
  [⟨"add", .threeOperand .add⟩, ⟨"sub", .threeOperand .sub⟩, ⟨"rsb", .threeOperand .rsb⟩,
   ⟨"and", .threeOperand .and⟩, ⟨"eor", .threeOperand .eor⟩, ⟨"orr", .threeOperand .orr⟩,
   ⟨"mov", .twoOperand .mov⟩, ⟨"tst", .twoOperand .tst⟩, ⟨"teq", .twoOperand .teq⟩,
   ⟨"cmp", .twoOperand .cmp⟩,
   ⟨"mul", .multiply false⟩, ⟨"mla", .multiply true⟩,
   ⟨"ldr", .transfer true⟩, ⟨"str", .transfer false⟩,
   ⟨"beq", .branch .eq⟩, ⟨"bne", .branch .ne⟩, ⟨"bge", .branch .ge⟩, ⟨"blt", .branch .lt⟩,
   ⟨"bgt", .branch .gt⟩, ⟨"ble", .branch .le⟩, ⟨"b", .branch .al⟩,
   ⟨"lsl", .shift .lsl⟩, ⟨"andeq", .halt⟩]

/-- The mnemonic spelled `name`. -/
def ofName? (name : String) : Option Mnemonic := all.find? fun m => m.name == name

/-- The least number of operands. -/
def operandCount (m : Mnemonic) : Nat := m.shape.operandCount

end Mnemonic

end Armlet
