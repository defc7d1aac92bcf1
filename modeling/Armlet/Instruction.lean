import Armlet.Condition
import Armlet.Opcode
import Armlet.Shift

/-!
# Instructions

Five classes, each a structure with the fields that class uses. A field may hold
a value that is too wide for its place in a word (a shift amount of 200, say);
`Instruction.encode` says what becomes of it.
-/

namespace Armlet

/-- The second operand of a data-processing instruction. -/
inductive SecondOperand where
  /-- The byte `imm` rotated right by `2 * rotate`. A word has four bits for `rotate`. -/
  | immediate (imm : Byte) (rotate : BitVec 8)
  | register (operand : RegisterOperand)
  deriving DecidableEq, Repr

namespace SecondOperand

/-- The value of an immediate operand. -/
def immediateValue (imm : Byte) (rotate : BitVec 8) : Word :=
  (imm.setWidth 32).rotateRight (2 * rotate.toNat)

/-- The byte that `rotate` double places turn into `value`, if there is one. -/
def immediateByte? (value : Word) (rotate : Nat) : Option Byte :=
  let imm := value.rotateLeft (2 * rotate)
  if imm ≤ 0xFF then some (imm.setWidth 8) else none

/-- The immediate form of `value` with the least rotation, if it has one. -/
def ofValue? (value : Word) : Option SecondOperand :=
  (List.range 16).findSome? fun rotate =>
    (immediateByte? value rotate).map fun imm => .immediate imm (BitVec.ofNat 8 rotate)

end SecondOperand

/-- How far a transfer moves away from its base register. -/
inductive Displacement where
  /-- A number of bytes. A word has twelve bits for it. -/
  | immediate (bytes : BitVec 16)
  | register (operand : RegisterOperand)
  deriving DecidableEq, Repr

/-- `rd := rn op operand`, with the flags set if `setFlags`. -/
structure DataProcessing where
  cond : Condition
  opcode : Opcode
  setFlags : Bool
  rn : Register
  rd : Register
  operand : SecondOperand
  deriving DecidableEq, Repr

/-- `rd := rm * rs`, plus `rn` if `accumulate`. -/
structure Multiply where
  cond : Condition
  accumulate : Bool
  setFlags : Bool
  rd : Register
  rn : Register
  rs : Register
  rm : Register
  deriving DecidableEq, Repr

/-- Moves a word between `rd` and memory at `rn`, displaced upwards or downwards. -/
structure Transfer where
  cond : Condition
  /-- From memory to `rd`; otherwise from `rd` to memory. -/
  load : Bool
  /-- The displacement goes into the address; otherwise into `rn` afterwards. -/
  preIndex : Bool
  up : Bool
  rn : Register
  rd : Register
  displacement : Displacement
  deriving DecidableEq, Repr

/-- Moves the program counter back by `offset`, a signed number of bytes. -/
structure Branch where
  cond : Condition
  offset : Word
  deriving DecidableEq, Repr

/-- An instruction of one of the five classes. -/
inductive Instruction where
  | dataProcessing (i : DataProcessing)
  | multiply (i : Multiply)
  | transfer (i : Transfer)
  | branch (i : Branch)
  | halt
  deriving DecidableEq, Repr

namespace Instruction

/-- When an instruction takes effect. A halt always does. -/
def condition : Instruction → Condition
  | dataProcessing i => i.cond
  | multiply i => i.cond
  | transfer i => i.cond
  | branch i => i.cond
  | halt => .al

/-- `mov r0, r0` with the flags left alone: an instruction that does nothing. -/
def nop : Instruction :=
  .dataProcessing ⟨.al, .mov, false, .r0, .r0, .register (.unshifted .r0)⟩

end Instruction

end Armlet
