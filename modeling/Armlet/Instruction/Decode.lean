import Armlet.Instruction

/-!
# From a word to its instruction

The inverse of `Instruction.encode`. The class is settled by fixed bits: a
branch by bits 27 to 24, a transfer by bits 27 and 26, and of what remains a
multiply by its marker. Words outside these classes, words with an unused
operation, transfers of bytes or with write-back of the base, and register
operands with bits 4 and 7 both set are no instructions. The zero word would
read as `andeq r0, r0, r0`; it is the halt.
-/

namespace Armlet

namespace RegisterOperand

/-- Reads the twelve bits of a register operand. A register amount needs bit 7 clear. -/
def ofBits? (b : BitVec 12) : Option RegisterOperand :=
  let rm := Register.ofBits (b.extractLsb' 0 4)
  let kind := ShiftType.ofBits (b.extractLsb' 5 2)
  if b.getLsbD 4 then
    if b.getLsbD 7 then none
    else some ⟨rm, .register kind (.ofBits (b.extractLsb' 8 4))⟩
  else some ⟨rm, .amount kind ((b.extractLsb' 7 5).setWidth 8)⟩

end RegisterOperand

/-- Reads the twelve bits of a second operand. -/
def SecondOperand.ofBits? (isImmediate : Bool) (b : BitVec 12) : Option SecondOperand :=
  if isImmediate then some (.immediate (b.extractLsb' 0 8) ((b.extractLsb' 8 4).setWidth 8))
  else (RegisterOperand.ofBits? b).map .register

/-- Reads the twelve bits of a displacement. -/
def Displacement.ofBits? (isRegister : Bool) (b : BitVec 12) : Option Displacement :=
  if isRegister then (RegisterOperand.ofBits? b).map .register
  else some (.immediate (b.setWidth 16))

/-- The fields of a data-processing word, if its operation is in use. -/
def DataProcessing.decode? (w : Word) : Option DataProcessing :=
  match Opcode.ofBits? (w.extractLsb' 21 4),
      SecondOperand.ofBits? (w.getLsbD 25) (w.extractLsb' 0 12) with
  | some opcode, some operand => some {
      cond := .ofBits (w.extractLsb' 28 4)
      opcode
      setFlags := w.getLsbD 20
      rn := .ofBits (w.extractLsb' 16 4)
      rd := .ofBits (w.extractLsb' 12 4)
      operand }
  | _, _ => none

/-- The fields of a multiply word. -/
def Multiply.decode (w : Word) : Multiply where
  cond := .ofBits (w.extractLsb' 28 4)
  accumulate := w.getLsbD 21
  setFlags := w.getLsbD 20
  rd := .ofBits (w.extractLsb' 16 4)
  rn := .ofBits (w.extractLsb' 12 4)
  rs := .ofBits (w.extractLsb' 8 4)
  rm := .ofBits (w.extractLsb' 0 4)

/-- The fields of a transfer word. Bit 22 asks for a byte and bit 21 for write-back. -/
def Transfer.decode? (w : Word) : Option Transfer :=
  if w.getLsbD 22 ∨ w.getLsbD 21 then none
  else (Displacement.ofBits? (w.getLsbD 25) (w.extractLsb' 0 12)).map fun displacement => {
    cond := .ofBits (w.extractLsb' 28 4)
    load := w.getLsbD 20
    preIndex := w.getLsbD 24
    up := w.getLsbD 23
    rn := .ofBits (w.extractLsb' 16 4)
    rd := .ofBits (w.extractLsb' 12 4)
    displacement }

/-- The fields of a branch word: a signed count of words. -/
def Branch.decode (w : Word) : Branch where
  cond := .ofBits (w.extractLsb' 28 4)
  offset := (w.extractLsb' 0 24 ++ 0b00#2).signExtend 32

/-- The instruction a word stands for, if any. -/
def Instruction.decode? (w : Word) : Option Instruction :=
  if w.extractLsb' 24 4 = 0b1010#4 then some (.branch (Branch.decode w))
  else if w.extractLsb' 26 2 = 0b01#2 then (Transfer.decode? w).map .transfer
  else if w.extractLsb' 22 6 = 0b000000#6 ∧ w.extractLsb' 4 4 = 0b1001#4 then
    some (.multiply (Multiply.decode w))
  else if w.extractLsb' 26 2 = 0b00#2 ∧ w ≠ 0 then
    (DataProcessing.decode? w).map .dataProcessing
  else if w = 0 then some .halt
  else none

end Armlet
