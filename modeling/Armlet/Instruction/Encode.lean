import Armlet.Instruction

/-!
# From an instruction to its word

The layout of the five classes, from bit 31 down to bit 0:

    data processing   cond 00 I opcode S rn rd operand
    multiply          cond 000000 A S rd rn rs 1001 rm
    transfer          cond 01 I P U 00 L rn rd displacement
    branch            cond 1010 offset
    halt              all bits zero

`I` tells the two forms of the last field apart: it is set for an immediate
operand of the data-processing class, and for a register displacement of a transfer.

A word is built by putting fields of fixed width side by side, so a value that
is too wide for its field loses its upper bits and can never reach the field
next to it.
-/

namespace Armlet

/-- The twelve bits of a register operand. Bit 4 tells a constant amount from a register. -/
def RegisterOperand.bits (operand : RegisterOperand) : BitVec 12 :=
  match operand.shift with
  | .amount kind amount => amount.setWidth 5 ++ kind.bits ++ 0#1 ++ operand.rm.bits
  | .register kind rs => rs.bits ++ 0#1 ++ kind.bits ++ 1#1 ++ operand.rm.bits

namespace SecondOperand

/-- The bit that tells an immediate operand from a register. -/
def isImmediate : SecondOperand → Bool
  | immediate .. => true
  | register _ => false

/-- The twelve bits of a second operand. -/
def bits : SecondOperand → BitVec 12
  | immediate imm rotate => rotate.setWidth 4 ++ imm
  | register operand => operand.bits

end SecondOperand

namespace Displacement

/-- The bit that tells a register displacement from an immediate. -/
def isRegister : Displacement → Bool
  | immediate _ => false
  | register _ => true

/-- The twelve bits of a displacement. -/
def bits : Displacement → BitVec 12
  | immediate bytes => bytes.setWidth 12
  | register operand => operand.bits

end Displacement

/-- The word of a data-processing instruction. -/
def DataProcessing.encode (i : DataProcessing) : Word :=
  i.cond.bits ++ 0b00#2 ++ BitVec.ofBool i.operand.isImmediate ++ i.opcode.bits
    ++ BitVec.ofBool i.setFlags ++ i.rn.bits ++ i.rd.bits ++ i.operand.bits

/-- The word of a multiplication. -/
def Multiply.encode (i : Multiply) : Word :=
  i.cond.bits ++ 0b000000#6 ++ BitVec.ofBool i.accumulate ++ BitVec.ofBool i.setFlags
    ++ i.rd.bits ++ i.rn.bits ++ i.rs.bits ++ 0b1001#4 ++ i.rm.bits

/-- The word of a transfer. -/
def Transfer.encode (i : Transfer) : Word :=
  i.cond.bits ++ 0b01#2 ++ BitVec.ofBool i.displacement.isRegister ++ BitVec.ofBool i.preIndex
    ++ BitVec.ofBool i.up ++ 0b00#2 ++ BitVec.ofBool i.load
    ++ i.rn.bits ++ i.rd.bits ++ i.displacement.bits

/-- The offset is stored in words: its two lowest bits are not part of the word. -/
def Branch.encode (i : Branch) : Word :=
  i.cond.bits ++ 0b1010#4 ++ i.offset.extractLsb' 2 24

/-- The word of an instruction. -/
def Instruction.encode : Instruction → Word
  | dataProcessing i => i.encode
  | multiply i => i.encode
  | transfer i => i.encode
  | branch i => i.encode
  | halt => 0

end Armlet
