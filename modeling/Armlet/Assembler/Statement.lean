import Armlet.Assembler.LiteralPool
import Armlet.Assembler.Mnemonic
import Armlet.Assembler.Operand

/-!
# Statements

What a source line says, once its mnemonic and operands are read and its labels
looked up. Most lines say an instruction outright. Two kinds do not, because their
instruction depends on where the line stands: a branch to an address, and the
loading of a constant. `Statement.encode` settles them.

The assembler always sets the flags in data processing and multiplication; only
the moves it makes up itself leave them alone.
-/

namespace Armlet

/-- The meaning of a line. -/
inductive Statement where
  /-- A line without a mnemonic. It still takes up a word. -/
  | blank
  | instruction (i : Instruction)
  | branchTo (cond : Condition) (target : Word)
  | loadConstant (rd : Register) (value : Word)
  deriving DecidableEq, Repr

namespace Statement

/-- A data-processing instruction as the assembler writes it. -/
def process (opcode : Opcode) (rd rn : Register) (operand : SecondOperand) : Statement :=
  .instruction (.dataProcessing ⟨.al, opcode, true, rn, rd, operand⟩)

/-- A multiplication as the assembler writes it. -/
def multiply (accumulate : Bool) (rd rm rs rn : Register) : Statement :=
  .instruction (.multiply ⟨.al, accumulate, true, rd, rn, rs, rm⟩)

/-- Reads the second half of a transfer, whose operand is an expression or an address. -/
def parseTransfer (labels : SymbolTable) (load : Bool) (rd : Register) (operand : Token)
    (rest : List Token) : Except SourceError Statement :=
  if operand.kind = .expression then
    if load then do
      Operand.nothingLeft rest
      let value ← Operand.readExpression labels operand.text
      .ok (.loadConstant rd value)
    else .error (.unexpectedOperand ("=" ++ operand.text))
  else do
    let rn ← Operand.readRegister operand
    let (up, displacement) ← Operand.readDisplacement rest
    .ok (.instruction (.transfer ⟨.al, load, true, up, rn, rd, displacement⟩))

/-- Reads the operands of a mnemonic. Too few of them are reported before anything else. -/
def parseOperands (labels : SymbolTable) (mnemonic : Mnemonic) (operands : List Token) :
    Except SourceError Statement :=
  match mnemonic.shape, operands with
  | .threeOperand opcode, t0 :: t1 :: t2 :: rest => do
    let rd ← Operand.readRegister t0
    let rn ← Operand.readRegister t1
    let operand ← Operand.readSecondOperand t2 rest
    .ok (process opcode rd rn operand)
  | .twoOperand opcode, t0 :: t1 :: rest => do
    let r ← Operand.readRegister t0
    let operand ← Operand.readSecondOperand t1 rest
    .ok (if opcode = .mov then process opcode r .r0 operand else process opcode .r0 r operand)
  | .multiply false, t0 :: t1 :: t2 :: rest => do
    Operand.nothingLeft rest
    let rd ← Operand.readRegister t0
    let rm ← Operand.readRegister t1
    let rs ← Operand.readRegister t2
    .ok (multiply false rd rm rs .r0)
  | .multiply true, t0 :: t1 :: t2 :: t3 :: rest => do
    Operand.nothingLeft rest
    let rd ← Operand.readRegister t0
    let rm ← Operand.readRegister t1
    let rs ← Operand.readRegister t2
    let rn ← Operand.readRegister t3
    .ok (multiply true rd rm rs rn)
  | .transfer load, t0 :: t1 :: rest => do
    let rd ← Operand.readRegister t0
    parseTransfer labels load rd t1 rest
  | .branch cond, t0 :: rest => do
    Operand.nothingLeft rest
    let target ← labels.lookup t0.text
    .ok (.branchTo cond target)
  | .shift kind, t0 :: t1 :: rest => do
    Operand.nothingLeft rest
    let r ← Operand.readRegister t0
    let shift ← Operand.readShift kind t1
    .ok (process .mov r .r0 (.register ⟨r, shift⟩))
  | .halt, _ => .ok (.instruction .halt)
  | _, _ => .error (.missingOperand mnemonic.name mnemonic.operandCount)

/-- Reads a line, given without its labels. -/
def parse (labels : SymbolTable) : List Token → Except SourceError Statement
  | [] => .ok .blank
  | head :: operands =>
    match Mnemonic.ofName? head.text with
    | some mnemonic => parseOperands labels mnemonic operands
    | none => .error (.unknownSymbol head.text)

/-! ## Encoding -/

/-- The distances a branch can cover, in bytes, are less than this. -/
def branchReach : Int := 0x2000000

/-- The greatest displacement of a transfer, in bytes. -/
def transferReach : Int := 0xFFF

/-- The branch at `addr` that leads to `target`. -/
def encodeBranch (addr : Word) (cond : Condition) (target : Word) :
    Except SourceError Instruction :=
  let offset := (addr.toNat : Int) - target.toNat
  if branchReach ≤ offset.natAbs then .error (.unencodable offset)
  else .ok (.branch ⟨cond, BitVec.ofInt 32 offset⟩)

/-- The load at `addr` of the constant that stands at `slot`. -/
def encodeLoad (addr : Word) (rd : Register) (slot : Word) : Except SourceError Instruction :=
  let distance := (slot.toNat : Int) - addr.toNat
  if transferReach < distance then .error (.unencodable distance)
  else .ok (.transfer ⟨.al, true, true, true, .pc, rd, .immediate (BitVec.ofInt 16 distance)⟩)

/-- The move of a constant that fits a byte. -/
def moveByte (rd : Register) (value : Word) : Instruction :=
  .dataProcessing ⟨.al, .mov, false, .r0, rd, .immediate (value.setWidth 8) 0⟩

/-- The instruction of a statement at `addr`, and the literal pool after it. -/
def encode (pool : LiteralPool) (addr : Word) :
    Statement → Except SourceError Instruction × LiteralPool
  | .blank => (.ok .nop, pool)
  | .instruction i => (.ok i, pool)
  | .branchTo cond target => (encodeBranch addr cond target, pool)
  | .loadConstant rd value =>
    if value ≤ 0xFF then (.ok (moveByte rd value), pool)
    else
      let (slot, pool) := pool.intern value
      (encodeLoad addr rd slot, pool)

end Statement

end Armlet
