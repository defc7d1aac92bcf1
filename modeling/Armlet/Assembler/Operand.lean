import Armlet.Assembler.Diagnostic
import Armlet.Assembler.SymbolTable
import Armlet.Assembler.Tokens
import Armlet.Instruction

/-!
# Reading operands

Registers and shifts are recognised by their text alone. Where a number may stand
instead, it is told apart by its mark.
-/

namespace Armlet

namespace Operand

/-- A token that has to name a register. -/
def readRegister (t : Token) : Except SourceError Register :=
  match Register.ofName? t.text with
  | some r => .ok r
  | none => .error (.unknownSymbol t.text)

/-- A token that has to be a signed decimal number of at most 64 bits. -/
def readNumber (t : Token) : Except SourceError Int :=
  if t.kind ≠ .literal then .error (.malformedLiteral t.text)
  else match Numeral.int64? t.text.toList with
    | some n => .ok n
    | none => .error (.malformedLiteral t.text)

/-- The word of a number: unsigned, or negative in two's complement. -/
def wordOf (n : Int) : Except SourceError Word :=
  if n < -0x80000000 ∨ 0x100000000 ≤ n then .error (.unencodable n) else .ok (BitVec.ofInt 32 n)

/-- There must be no operand left. -/
def nothingLeft : List Token → Except SourceError Unit
  | [] => .ok ()
  | t :: _ => .error (.unexpectedOperand t.text)

/-- The amount of a shift: `#n` with `n` from 0 to 31, or a register. -/
def readShift (kind : ShiftType) (t : Token) : Except SourceError Shift :=
  if t.kind = .literal then do
    let n ← readNumber t
    if n < 0 ∨ 31 < n then .error (.unencodable n) else .ok (.amount kind (BitVec.ofInt 8 n))
  else do
    let rs ← readRegister t
    .ok (.register kind rs)

/-- A register, and after it a shift or nothing. -/
def readShifted (first : Token) (rest : List Token) : Except SourceError RegisterOperand := do
  let rm ← readRegister first
  match rest with
  | [] => .ok (.unshifted rm)
  | kindToken :: rest =>
    match ShiftType.ofName? kindToken.text, rest with
    | none, _ => .error (.unknownSymbol kindToken.text)
    | some kind, [] => .error (.missingOperand kind.name 1)
    | some kind, amount :: rest =>
      nothingLeft rest
      let shift ← readShift kind amount
      .ok ⟨rm, shift⟩

/-- A second operand: a number that a rotated byte can express, or a register. -/
def readSecondOperand (first : Token) (rest : List Token) : Except SourceError SecondOperand :=
  if first.kind = .literal then do
    let n ← readNumber first
    nothingLeft rest
    let value ← wordOf n
    match SecondOperand.ofValue? value with
    | some operand => .ok operand
    | none => .error (.unencodable n)
  else do
    let operand ← readShifted first rest
    .ok (.register operand)

/-- Takes the sign off a register displacement. The sign says whether it counts upwards. -/
def signedName (text : String) : Bool × String :=
  match text.toList with
  | '-' :: name => (false, String.ofList name)
  | '+' :: name => (true, String.ofList name)
  | _ => (true, text)

/-- The direction and size of a transfer's displacement. None means zero bytes upwards. -/
def readDisplacement : List Token → Except SourceError (Bool × Displacement)
  | [] => .ok (true, .immediate 0)
  | first :: rest =>
    if first.kind = .literal then do
      nothingLeft rest
      let n ← readNumber first
      if 0xFFF < n.natAbs then .error (.unencodable n)
      else .ok (decide (0 ≤ n), .immediate (BitVec.ofNat 16 n.natAbs))
    else do
      let (up, name) := signedName first.text
      let operand ← readShifted ⟨.name, name⟩ rest
      .ok (up, .register operand)

/-- Whether a text starts like a decimal number. -/
def startsNumber : List Char → Bool
  | c :: _ => c.isDigit || c == '-' || c == '+'
  | [] => false

/-- The value of an expression: hexadecimal after `0x` or `0X`, decimal, or a label's address. -/
def readExpression (labels : SymbolTable) (text : String) : Except SourceError Word :=
  match text.toList with
  | '0' :: 'x' :: digits | '0' :: 'X' :: digits =>
    match Numeral.hexWord? digits with
    | some value => .ok value
    | none => .error (.malformedLiteral text)
  | chars =>
    if startsNumber chars then
      match Numeral.int64? chars with
      | some n => wordOf n
      | none => .error (.malformedLiteral text)
    else labels.lookup text

end Operand

end Armlet
