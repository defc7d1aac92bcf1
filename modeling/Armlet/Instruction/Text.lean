import Armlet.Instruction
import Armlet.Text.Numeral

/-!
# Disassembly

One line of assembler per instruction. The text leaves out what the assembler
has no syntax for: the S bit, the fields a form does not use, the kind of a
shift by zero, and the direction and index mode of a zero displacement. A branch
is shown by its distance from the current address, which its offset is
subtracted from.
-/

namespace Armlet

/-- A register and its shift. A constant shift by zero is not shown. -/
def RegisterOperand.text (operand : RegisterOperand) : String :=
  match operand.shift with
  | .amount kind amount =>
    if amount = 0 then operand.rm.name
    else operand.rm.name ++ ", " ++ kind.name ++ " #" ++ Numeral.decimal amount.toNat
  | .register kind rs => operand.rm.name ++ ", " ++ kind.name ++ " " ++ rs.name

/-- An immediate is shown by its value. -/
def SecondOperand.text : SecondOperand → String
  | immediate imm rotate => "#" ++ Numeral.decimal (immediateValue imm rotate).toNat
  | register operand => operand.text

/-- A displacement with its direction, unless it is an immediate zero. -/
def Displacement.text? (up : Bool) : Displacement → Option String
  | immediate bytes =>
    if bytes = 0 then none
    else some ("#" ++ (if up then "" else "-") ++ Numeral.decimal bytes.toNat)
  | register operand => some ((if up then "" else "-") ++ operand.text)

/-- A move shows no first operand, and a comparison no destination. -/
def DataProcessing.text (i : DataProcessing) : String :=
  i.opcode.name ++ i.cond.suffix ++ " " ++
    match i.opcode with
    | .mov => i.rd.name ++ ", " ++ i.operand.text
    | .tst | .teq | .cmp => i.rn.name ++ ", " ++ i.operand.text
    | _ => i.rd.name ++ ", " ++ i.rn.name ++ ", " ++ i.operand.text

/-- The factors, and the summand if there is one. -/
def Multiply.text (i : Multiply) : String :=
  let factors := i.rd.name ++ ", " ++ i.rm.name ++ ", " ++ i.rs.name
  if i.accumulate then "mla" ++ i.cond.suffix ++ " " ++ factors ++ ", " ++ i.rn.name
  else "mul" ++ i.cond.suffix ++ " " ++ factors

/-- The brackets close before the displacement if that is applied afterwards. -/
def Transfer.text (i : Transfer) : String :=
  let head := (if i.load then "ldr" else "str") ++ i.cond.suffix ++ " " ++ i.rd.name
    ++ ", [" ++ i.rn.name
  match i.displacement.text? i.up with
  | none => head ++ "]"
  | some text => if i.preIndex then head ++ ", " ++ text ++ "]" else head ++ "], " ++ text

/-- Where the branch leads, relative to its own address. -/
def Branch.text (i : Branch) : String :=
  "b" ++ i.cond.suffix ++
    if i.offset.msb then " pc+" ++ Numeral.hex 1 (-i.offset).toNat
    else " pc-" ++ Numeral.hex 1 i.offset.toNat

/-- The assembler line of an instruction. -/
def Instruction.text : Instruction → String
  | dataProcessing i => i.text
  | multiply i => i.text
  | transfer i => i.text
  | branch i => i.text
  | halt => "andeq r0, r0, r0"

end Armlet
