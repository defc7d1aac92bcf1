import Armlet.Proofs.Canonical
import Armlet.Proofs.PoolGrowth

/-!
# Nothing is taken from behind the operands

`Statement.parse` takes a line apart by its constructors and computes with integers, so it
cannot miss a token and cannot overflow. The same line can be read by positions and with
numbers of fixed widths: the token at position 2, the operands from position 3 on, a sum of
32 bits. Then every access and every result is an obligation. The reader of this file, in the
namespace `Checked`, works that way, and it stops at the first obligation that is not met, with
a `Fault`.

It never does. Each access comes behind a test of the length, be it the count of operands that
the mnemonic asks for or a look at the position in front of it. Each narrowing comes behind a
test of the range. What is tested nowhere is the address of a constant, a sum of 32 bits; there
it is enough that the pool ends within the address space. So `Checked.assemble` has the same
answer as `Statement.assemble`, for every line.

Two narrowings may drop bits and are no obligations. The word of a negative number is its two's
complement, and that is meant. The distance of a constant is cut to 16 bits though it could be
negative; but a constant behind the line that loads it is at a distance from 0 to 4095, which
fits even the field. With the line and all labels on word boundaries a branch fits its field as
well, and so does every instruction that is returned.
-/

namespace Armlet

namespace Checked

/-! ## Obligations -/

/-- An obligation that is not met. -/
inductive Fault where
  /-- There is no token at the position. -/
  | noToken (position : Nat)
  /-- The tokens end in front of the position they are taken from. -/
  | noSlice (position : Nat)
  /-- The number is outside its type. -/
  | overflow (n : Int)
  deriving DecidableEq, Repr

/-- Why a reader has stopped. -/
inductive Stop where
  | fault (f : Fault)
  /-- The line is wrong, and is reported as such. -/
  | refused (e : SourceError)
  deriving DecidableEq, Repr

/-- An answer that is given without a fault. -/
def answer {α : Type} : Except SourceError α → Except Stop α := Except.mapError .refused

/-- The token at a position. -/
def tokenAt (ts : List Token) (position : Nat) : Except Stop Token :=
  match ts[position]? with
  | some t => .ok t
  | none => .error (.fault (.noToken position))

/-- The tokens from a position on. -/
def tokensFrom (ts : List Token) (position : Nat) : Except Stop (List Token) :=
  if position ≤ ts.length then .ok (ts.drop position)
  else .error (.fault (.noSlice position))

/-- The tokens with another one at a position. -/
def replaceAt (ts : List Token) (position : Nat) (t : Token) : Except Stop (List Token) :=
  if position < ts.length then .ok (ts.set position t)
  else .error (.fault (.noToken position))

/-- A number that an unsigned type of so many bits has to have. -/
def unsigned (width : Nat) (n : Int) : Except Stop Int :=
  if 0 ≤ n ∧ n < (1 <<< width : Nat) then .ok n else .error (.fault (.overflow n))

/-- A number that a signed type of so many bits has to have. -/
def signed (width : Nat) (n : Int) : Except Stop Int :=
  if -(1 <<< (width - 1) : Nat) ≤ n ∧ n < (1 <<< (width - 1) : Nat) then .ok n
  else .error (.fault (.overflow n))

/-! ## Reading by positions -/

def register (ts : List Token) (position : Nat) : Except Stop Register := do
  let t ← tokenAt ts position
  answer (Operand.readRegister t)

def nothingFrom (ts : List Token) (position : Nat) : Except Stop Unit := do
  let rest ← tokensFrom ts position
  answer (Operand.nothingLeft rest)

def shift (kind : ShiftType) (t : Token) : Except Stop Shift :=
  if t.kind = .literal then do
    let n ← answer (Operand.readNumber t)
    if n < 0 ∨ 31 < n then answer (.error (.unencodable n))
    else do
      let amount ← unsigned 8 n
      .ok (.amount kind (BitVec.ofInt 8 amount))
  else do
    let rs ← answer (Operand.readRegister t)
    .ok (.register kind rs)

def shifted (ts : List Token) : Except Stop RegisterOperand := do
  let rm ← register ts 0
  match ts[1]? with
  | none => .ok (.unshifted rm)
  | some kindToken =>
    match ShiftType.ofName? kindToken.text with
    | none => answer (.error (.unknownSymbol kindToken.text))
    | some kind =>
      match ts[2]? with
      | none => answer (.error (.missingOperand kind.name 1))
      | some amount =>
        nothingFrom ts 3
        let shift ← shift kind amount
        .ok ⟨rm, shift⟩

/-- The immediate form of `value` with a given rotation, whose places are counted in 32 bits. -/
def rotated (value : Word) (rotate : Nat) : Except Stop (Option SecondOperand) := do
  let places ← unsigned 32 (2 * rotate)
  let imm := value.rotateLeft places.toNat
  if imm ≤ 0xFF then do
    let byte ← unsigned 8 imm.toNat
    .ok (some (.immediate (BitVec.ofInt 8 byte) (BitVec.ofNat 8 rotate)))
  else .ok none

def secondOperand (ts : List Token) : Except Stop SecondOperand := do
  let first ← tokenAt ts 0
  if first.kind = .literal then do
    let n ← answer (Operand.readNumber first)
    nothingFrom ts 1
    let value ← answer (Operand.wordOf n)
    let operand? ← (List.range 16).findSomeM? (rotated value)
    match operand? with
    | some operand => .ok operand
    | none => answer (.error (.unencodable n))
  else do
    let operand ← shifted ts
    .ok (.register operand)

/-- The displacement of a transfer, which begins at position 2 of its operands. -/
def displacement (ts : List Token) : Except Stop (Bool × Displacement) :=
  match ts[2]? with
  | none => .ok (true, .immediate 0)
  | some first =>
    if first.kind = .literal then do
      nothingFrom ts 3
      let n ← answer (Operand.readNumber first)
      let size ← unsigned 64 n.natAbs
      if 0xFFF < size then answer (.error (.unencodable n))
      else do
        let bytes ← unsigned 16 size
        .ok (decide (0 ≤ n), .immediate (BitVec.ofInt 16 bytes))
    else do
      let (up, name) := Operand.signedName first.text
      let rest ← tokensFrom ts 2
      let rest ← replaceAt rest 0 ⟨.name, name⟩
      let operand ← shifted rest
      .ok (up, .register operand)

def transfer (labels : SymbolTable) (load : Bool) (ts : List Token) : Except Stop Statement := do
  let rd ← register ts 0
  let operand ← tokenAt ts 1
  if operand.kind = .expression then
    if load then do
      nothingFrom ts 2
      let value ← answer (Operand.readExpression labels operand.text)
      .ok (.loadConstant rd value)
    else answer (.error (.unexpectedOperand ("=" ++ operand.text)))
  else do
    let rn ← answer (Operand.readRegister operand)
    let (up, displacement) ← displacement ts
    .ok (.instruction (.transfer ⟨.al, load, true, up, rn, rd, displacement⟩))

/-- The fourth operand of a multiplication, which only one that accumulates has. -/
def summand (accumulate : Bool) (ts : List Token) : Except Stop Register :=
  if accumulate then register ts 3 else .ok .r0

/-- The operands of a mnemonic. Nothing is read from them before they have been counted. -/
def operands (labels : SymbolTable) (mnemonic : Mnemonic) (ts : List Token) :
    Except Stop Statement :=
  if ts.length < mnemonic.operandCount then
    answer (.error (.missingOperand mnemonic.name mnemonic.operandCount))
  else
    match mnemonic.shape with
    | .threeOperand opcode => do
      let rd ← register ts 0
      let rn ← register ts 1
      let rest ← tokensFrom ts 2
      let operand ← secondOperand rest
      .ok (.process opcode rd rn operand)
    | .twoOperand opcode => do
      let r ← register ts 0
      let rest ← tokensFrom ts 1
      let operand ← secondOperand rest
      .ok (if opcode = .mov then .process opcode r .r0 operand
        else .process opcode .r0 r operand)
    | .multiply accumulate => do
      nothingFrom ts mnemonic.operandCount
      let rd ← register ts 0
      let rm ← register ts 1
      let rs ← register ts 2
      let rn ← summand accumulate ts
      .ok (.multiply accumulate rd rm rs rn)
    | .transfer load => transfer labels load ts
    | .branch cond => do
      nothingFrom ts 1
      let t ← tokenAt ts 0
      let target ← answer (labels.lookup t.text)
      .ok (.branchTo cond target)
    | .shift kind => do
      nothingFrom ts 2
      let r ← register ts 0
      let t ← tokenAt ts 1
      let shift ← shift kind t
      .ok (.process .mov r .r0 (.register ⟨r, shift⟩))
    | .halt => .ok (.instruction .halt)

def parse (labels : SymbolTable) (line : List Token) : Except Stop Statement :=
  match line.head? with
  | none => .ok .blank
  | some head =>
    match Mnemonic.ofName? head.text with
    | none => answer (.error (.unknownSymbol head.text))
    | some mnemonic => do
      let ts ← tokensFrom line 1
      operands labels mnemonic ts

/-! ## Computing with fixed widths -/

def branch (addr : Word) (cond : Condition) (target : Word) : Except Stop Instruction := do
  let offset ← signed 64 (addr.toNat - target.toNat)
  let size ← signed 64 offset.natAbs
  if Statement.branchReach ≤ size then answer (.error (.unencodable offset))
  else do
    let offset ← signed 32 offset
    .ok (.branch ⟨cond, BitVec.ofInt 32 offset⟩)

/-- The address of the constant with a given position, which is computed in 32 bits. -/
def slot (pool : LiteralPool) (index : Int) : Except Stop Word := do
  let index ← unsigned 32 index
  let distance ← unsigned 32 (4 * index)
  let addr ← unsigned 32 (pool.base.toNat + distance)
  .ok (BitVec.ofInt 32 addr)

/-- The address of a value. The position of a new one is a length less 1. -/
def intern (pool : LiteralPool) (value : Word) : Except Stop Word × LiteralPool :=
  match pool.words.idxOf? value with
  | some index => (slot pool index, pool)
  | none => (slot pool ((pool.append value).words.length - 1), pool.append value)

def load (addr : Word) (rd : Register) (slot : Word) : Except Stop Instruction := do
  let distance ← signed 64 (slot.toNat - addr.toNat)
  if Statement.transferReach < distance then answer (.error (.unencodable distance))
  else
    -- a negative distance loses its sign here
    .ok (.transfer ⟨.al, true, true, true, .pc, rd, .immediate (BitVec.ofInt 16 distance)⟩)

def moveByte (rd : Register) (value : Word) : Except Stop Instruction := do
  let byte ← unsigned 8 value.toNat
  .ok (.dataProcessing ⟨.al, .mov, false, .r0, rd, .immediate (BitVec.ofInt 8 byte) 0⟩)

def encode (pool : LiteralPool) (addr : Word) :
    Statement → Except Stop Instruction × LiteralPool
  | .blank => (.ok .nop, pool)
  | .instruction i => (.ok i, pool)
  | .branchTo cond target => (branch addr cond target, pool)
  | .loadConstant rd value =>
    if value ≤ 0xFF then (moveByte rd value, pool)
    else ((intern pool value).1 >>= load addr rd, (intern pool value).2)

/-- Reads and encodes a line at `addr`, and stops at the first obligation that is not met. -/
def assemble (labels : SymbolTable) (pool : LiteralPool) (addr : Word) (line : List Token) :
    Except Stop Instruction × LiteralPool :=
  match parse labels line with
  | .ok statement => encode pool addr statement
  | .error stop => (.error stop, pool)

/-! ## Obligations that are met -/

variable {α β : Type} {ts : List Token} {position width : Nat} {t : Token} {n : Int}

/-- A chain without faults is the chain of the answers. Its links need only be without faults
for what really comes to them. -/
theorem answer_bind {x : Except SourceError α} {f : α → Except Stop β}
    {g : α → Except SourceError β} (h : ∀ a, x = .ok a → f a = answer (g a)) :
    (answer x >>= f) = answer (x >>= g) := by
  cases x with
  | error e => rfl
  | ok a => exact h a rfl

theorem answer_ne_fault (x : Except SourceError α) (f : Fault) :
    answer x ≠ .error (.fault f) := by
  cases x with
  | error e => simp [answer, Except.mapError]
  | ok a => simp [answer, Except.mapError]

theorem tokenAt_eq (h : ts[position]? = some t) : tokenAt ts position = .ok t := by
  rw [tokenAt, h]

theorem tokensFrom_eq (h : position ≤ ts.length) :
    tokensFrom ts position = .ok (ts.drop position) := if_pos h

theorem replaceAt_eq (h : position < ts.length) :
    replaceAt ts position t = .ok (ts.set position t) := if_pos h

theorem unsigned_eq (h : 0 ≤ n ∧ n < (1 <<< width : Nat)) : unsigned width n = .ok n := if_pos h

theorem signed_eq (h : -(1 <<< (width - 1) : Nat) ≤ n ∧ n < (1 <<< (width - 1) : Nat)) :
    signed width n = .ok n := if_pos h

theorem register_eq (h : ts[position]? = some t) :
    register ts position = answer (Operand.readRegister t) := by
  rw [register, tokenAt_eq h, ok_bind]

theorem nothingFrom_eq (h : position ≤ ts.length) :
    nothingFrom ts position = answer (Operand.nothingLeft (ts.drop position)) := by
  rw [nothingFrom, tokensFrom_eq h, ok_bind]

/-- A number that is read has 64 bits. -/
theorem range_of_readNumber (h : Operand.readNumber t = .ok n) :
    -0x8000000000000000 ≤ n ∧ n < 0x8000000000000000 := by
  unfold Operand.readNumber at h
  split at h
  · cases h
  · split at h
    · rename_i hint
      cases h
      rw [Numeral.int64?, Option.filter_eq_some_iff] at hint
      exact of_decide_eq_true hint.2
    · cases h

/-! ## Reading without faults -/

theorem shift_eq (kind : ShiftType) (t : Token) :
    shift kind t = answer (Operand.readShift kind t) := by
  unfold shift Operand.readShift
  split
  · apply answer_bind
    intro n _
    split
    · rfl
    · rw [unsigned_eq (by omega)]
      rfl
  · exact answer_bind fun _ _ => rfl

theorem shifted_eq (first : Token) (rest : List Token) :
    shifted (first :: rest) = answer (Operand.readShifted first rest) := by
  unfold shifted Operand.readShifted
  rw [register_eq rfl]
  apply answer_bind
  intro rm _
  match rest with
  | [] => rfl
  | kindToken :: rest =>
    simp only [List.getElem?_cons_succ, List.getElem?_cons_zero]
    cases ShiftType.ofName? kindToken.text with
    | none => rfl
    | some kind =>
      match rest with
      | [] => rfl
      | amount :: rest =>
        simp only [List.getElem?_cons_zero]
        rw [nothingFrom_eq (by simp), shift_eq]
        exact answer_bind fun _ _ => answer_bind fun _ _ => rfl

/-- Narrowed to a byte, a word that is as small keeps its number. -/
theorem unsigned_byte {w : Word} (h : w ≤ 0xFF) : unsigned 8 w.toNat = .ok w.toNat := by
  have hlt := le_byte_iff.mp h
  exact unsigned_eq (by omega)

/-- The immediate form of `value` with a given rotation, if it has one. -/
def immediate? (value : Word) (rotate : Nat) : Option SecondOperand :=
  (SecondOperand.immediateByte? value rotate).map fun imm => .immediate imm (BitVec.ofNat 8 rotate)

theorem rotated_eq {value : Word} {rotate : Nat} (h : rotate < 16) :
    rotated value rotate = .ok (immediate? value rotate) := by
  unfold rotated immediate? SecondOperand.immediateByte?
  rw [unsigned_eq (by omega), ok_bind]
  have hplaces : (2 * (rotate : Int)).toNat = 2 * rotate := by omega
  rw [hplaces]
  dsimp only
  split
  · rename_i himm
    rw [unsigned_byte himm, ok_bind, BitVec.ofInt_natCast, BitVec.ofNat_toNat]
    rfl
  · rfl

/-- Rotations are tried one after another, with a fault in none of them. -/
theorem findSomeM?_rotated (value : Word) {rotates : List Nat} (h : ∀ r ∈ rotates, r < 16) :
    rotates.findSomeM? (rotated value) = .ok (rotates.findSome? (immediate? value)) := by
  induction rotates with
  | nil => rfl
  | cons r rest ih =>
    have hrest := ih fun r' hr' => h r' (List.mem_cons_of_mem r hr')
    rw [List.findSomeM?, rotated_eq (h r List.mem_cons_self), ok_bind, List.findSome?]
    cases immediate? value r with
    | none => exact hrest
    | some operand => rfl

theorem findSomeM?_range (value : Word) :
    (List.range 16).findSomeM? (rotated value) = .ok (SecondOperand.ofValue? value) :=
  findSomeM?_rotated value fun _ hr => List.mem_range.mp hr

theorem secondOperand_eq (first : Token) (rest : List Token) :
    secondOperand (first :: rest) = answer (Operand.readSecondOperand first rest) := by
  unfold secondOperand Operand.readSecondOperand
  rw [tokenAt_eq rfl, ok_bind]
  split
  · apply answer_bind
    intro n _
    rw [nothingFrom_eq (by simp)]
    refine answer_bind fun _ _ => answer_bind fun value _ => ?_
    rw [findSomeM?_range, ok_bind]
    cases SecondOperand.ofValue? value with
    | none => rfl
    | some operand => rfl
  · rw [shifted_eq]
    exact answer_bind fun _ _ => rfl

theorem displacement_eq (t0 t1 : Token) (rest : List Token) :
    displacement (t0 :: t1 :: rest) = answer (Operand.readDisplacement rest) := by
  unfold displacement Operand.readDisplacement
  match rest with
  | [] => rfl
  | first :: rest =>
    simp only [List.getElem?_cons_succ, List.getElem?_cons_zero]
    split
    · rw [nothingFrom_eq (by simp)]
      refine answer_bind fun _ _ => answer_bind fun n hn => ?_
      obtain ⟨hlo, hhi⟩ := range_of_readNumber hn
      rw [unsigned_eq (by omega), ok_bind]
      by_cases hn : 0xFFF < n.natAbs
      · rw [if_pos hn, if_pos (by omega)]
      · rw [if_neg hn, if_neg (by omega), unsigned_eq (by omega)]
        rfl
    · rw [tokensFrom_eq (by simp), ok_bind, replaceAt_eq (by simp), ok_bind]
      simp only [List.drop_succ_cons, List.drop_zero, List.set_cons_zero]
      rw [shifted_eq]
      exact answer_bind fun _ _ => rfl

variable {labels : SymbolTable}

theorem transfer_eq (load : Bool) (t0 t1 : Token) (rest : List Token) :
    transfer labels load (t0 :: t1 :: rest)
      = answer (Operand.readRegister t0 >>= fun rd =>
        Statement.parseTransfer labels load rd t1 rest) := by
  unfold transfer Statement.parseTransfer
  rw [register_eq rfl]
  apply answer_bind
  intro rd _
  rw [tokenAt_eq rfl, ok_bind]
  split
  · split
    · rw [nothingFrom_eq (by simp)]
      exact answer_bind fun _ _ => answer_bind fun _ _ => rfl
    · rfl
  · rw [displacement_eq]
    exact answer_bind fun _ _ => answer_bind fun _ _ => rfl

/-- **The operands that a mnemonic asks for are there.** What is read beyond them is looked for
before it is taken. -/
theorem operands_eq (m : Mnemonic) (ts : List Token) :
    operands labels m ts = answer (Statement.parseOperands labels m ts) := by
  obtain ⟨name, shape⟩ := m
  unfold operands Statement.parseOperands Mnemonic.operandCount
  cases shape with
  | threeOperand opcode =>
    match ts with
    | [] | [_] | [_, _] => rfl
    | t0 :: t1 :: t2 :: rest =>
      rw [if_neg (by simp [Shape.operandCount])]
      dsimp only
      rw [register_eq rfl, register_eq rfl]
      refine answer_bind fun rd _ => answer_bind fun rn _ => ?_
      rw [tokensFrom_eq (by simp), ok_bind, List.drop_succ_cons, List.drop_succ_cons,
        List.drop_zero, secondOperand_eq]
      exact answer_bind fun _ _ => rfl
  | twoOperand opcode =>
    match ts with
    | [] | [_] => rfl
    | t0 :: t1 :: rest =>
      rw [if_neg (by simp [Shape.operandCount])]
      dsimp only
      rw [register_eq rfl]
      refine answer_bind fun r _ => ?_
      rw [tokensFrom_eq (by simp), ok_bind, List.drop_succ_cons, List.drop_zero, secondOperand_eq]
      exact answer_bind fun _ _ => rfl
  | multiply accumulate =>
    cases accumulate with
    | false =>
      match ts with
      | [] | [_] | [_, _] => rfl
      | t0 :: t1 :: t2 :: rest =>
        rw [if_neg (by simp [Shape.operandCount])]
        dsimp only
        rw [nothingFrom_eq (by simp [Shape.operandCount]), register_eq rfl, register_eq rfl,
          register_eq rfl]
        exact answer_bind fun _ _ => answer_bind fun _ _ => answer_bind fun _ _ =>
          answer_bind fun _ _ => rfl
    | true =>
      match ts with
      | [] | [_] | [_, _] | [_, _, _] => rfl
      | t0 :: t1 :: t2 :: t3 :: rest =>
        rw [if_neg (by simp [Shape.operandCount])]
        dsimp only
        rw [nothingFrom_eq (by simp [Shape.operandCount]), register_eq rfl, register_eq rfl,
          register_eq rfl, summand, if_pos rfl, register_eq rfl]
        exact answer_bind fun _ _ => answer_bind fun _ _ => answer_bind fun _ _ =>
          answer_bind fun _ _ => answer_bind fun _ _ => rfl
  | transfer load =>
    match ts with
    | [] | [_] => rfl
    | t0 :: t1 :: rest =>
      rw [if_neg (by simp [Shape.operandCount])]
      exact transfer_eq load t0 t1 rest
  | branch cond =>
    match ts with
    | [] => rfl
    | t0 :: rest =>
      rw [if_neg (by simp [Shape.operandCount])]
      dsimp only
      rw [nothingFrom_eq (by simp), tokenAt_eq rfl]
      exact answer_bind fun _ _ => answer_bind fun _ _ => rfl
  | shift kind =>
    match ts with
    | [] | [_] => rfl
    | t0 :: t1 :: rest =>
      rw [if_neg (by simp [Shape.operandCount])]
      dsimp only
      rw [nothingFrom_eq (by simp), register_eq rfl]
      refine answer_bind fun _ _ => answer_bind fun r _ => ?_
      rw [tokenAt_eq rfl, ok_bind, shift_eq]
      exact answer_bind fun _ _ => rfl
  | halt => rfl

theorem parse_eq (labels : SymbolTable) (line : List Token) :
    parse labels line = answer (Statement.parse labels line) := by
  unfold parse Statement.parse
  match line with
  | [] => rfl
  | head :: rest =>
    simp only [List.head?_cons]
    cases Mnemonic.ofName? head.text with
    | none => rfl
    | some m =>
      dsimp only
      rw [tokensFrom_eq (by simp), ok_bind, operands_eq]
      rfl

/-! ## Computing without overflow -/

variable {pool : LiteralPool} {addr : Word}

theorem branch_eq (addr : Word) (cond : Condition) (target : Word) :
    branch addr cond target = answer (Statement.encodeBranch addr cond target) := by
  have haddr := addr.isLt
  have htarget := target.isLt
  unfold branch Statement.encodeBranch
  rw [signed_eq (by omega), ok_bind, signed_eq (by omega), ok_bind]
  dsimp only
  split
  · rfl
  · rename_i hreach
    unfold Statement.branchReach at hreach
    rw [signed_eq (by omega)]
    rfl

theorem load_eq (addr : Word) (rd : Register) (slot : Word) :
    load addr rd slot = answer (Statement.encodeLoad addr rd slot) := by
  have haddr := addr.isLt
  have hslot := slot.isLt
  unfold load Statement.encodeLoad
  rw [signed_eq (by omega), ok_bind]
  dsimp only
  split
  · rfl
  · rfl

/-- The addresses of all constants, and of one more, can be computed in 32 bits. -/
theorem slot_eq {index : Nat} (hsize : pool.base.toNat + 4 * pool.words.length ≤ 0xFFFFFFFF)
    (hindex : index ≤ pool.words.length) : slot pool index = .ok (pool.slot index) := by
  unfold slot
  rw [unsigned_eq (by omega), ok_bind, unsigned_eq (by omega), ok_bind,
    unsigned_eq (by omega), ok_bind]
  congr 1
  apply BitVec.eq_of_toNat_eq
  rw [LiteralPool.toNat_slot (by omega), BitVec.toNat_ofInt]
  omega

theorem intern_eq (v : Word)
    (hsize : pool.base.toNat + 4 * pool.words.length ≤ 0xFFFFFFFF) :
    intern pool v = (.ok (pool.intern v).1, (pool.intern v).2) := by
  unfold intern LiteralPool.intern
  cases hindex : pool.words.idxOf? v with
  | some index =>
    have hle : pool.words.idxOf v ≤ pool.words.length := List.idxOf_le_length
    rw [List.idxOf_eq_getD_idxOf?, hindex, Option.getD_some] at hle
    exact Prod.ext (slot_eq hsize hle) rfl
  | none =>
    have hlast : ((pool.append v).words.length : Int) - 1 = pool.words.length := by
      simp [LiteralPool.append]
    dsimp only
    rw [hlast, slot_eq hsize (Nat.le_refl _)]
    rfl

theorem moveByte_eq (rd : Register) {v : Word} (h : v ≤ 0xFF) :
    moveByte rd v = .ok (Statement.moveByte rd v) := by
  unfold moveByte Statement.moveByte
  rw [unsigned_byte h, ok_bind, BitVec.ofInt_natCast, BitVec.ofNat_toNat]

theorem encode_eq (s : Statement)
    (hsize : pool.base.toNat + 4 * pool.words.length ≤ 0xFFFFFFFF) :
    encode pool addr s = (answer (s.encode pool addr).1, (s.encode pool addr).2) := by
  cases s with
  | blank => rfl
  | instruction i => rfl
  | branchTo cond target => exact Prod.ext (branch_eq addr cond target) rfl
  | loadConstant rd v =>
    rw [encode, Statement.encode]
    split
    · rename_i hv
      exact Prod.ext (moveByte_eq rd hv) rfl
    · rw [intern_eq v hsize]
      exact Prod.ext (load_eq addr rd _) rfl

/-- **The obligations are met by every line.** -/
theorem assemble_eq (labels : SymbolTable) (addr : Word) (line : List Token)
    (hsize : pool.base.toNat + 4 * pool.words.length ≤ 0xFFFFFFFF) :
    assemble labels pool addr line
      = (answer (Statement.assemble labels pool addr line).1,
        (Statement.assemble labels pool addr line).2) := by
  unfold assemble Statement.assemble
  rw [parse_eq]
  cases Statement.parse labels line with
  | error e => rfl
  | ok s => exact encode_eq s hsize

/--
**A line is read without a fault, and what it says fits its word.**

If the constants of the pool end within the address space, the reader that works by positions
and with fixed widths comes to an end without a fault, with the answer of `Statement.assemble`
and the same pool. If moreover the line and all labels are on word boundaries, and the pool does
not begin in front of the line, the instruction that is returned is encodable: it can be read off
its word again.
-/
theorem assemble_without_fault (labels : SymbolTable) (pool : LiteralPool) (addr : Word)
    (line : List Token) (hsize : pool.base.toNat + 4 * pool.words.length ≤ 0xFFFFFFFF) :
    (∀ f, (assemble labels pool addr line).1 ≠ .error (.fault f))
      ∧ (assemble labels pool addr line).1 = answer (Statement.assemble labels pool addr line).1
      ∧ (assemble labels pool addr line).2 = (Statement.assemble labels pool addr line).2
      ∧ (4 ∣ addr.toNat → addr.toNat ≤ pool.base.toNat →
        (∀ name target, labels.lookup name = .ok target → 4 ∣ target.toNat) →
        ∀ i, (Statement.assemble labels pool addr line).1 = .ok i →
          i.Encodable ∧ Instruction.decode? i.encode = some i) := by
  have hanswer := assemble_eq labels addr line hsize
  refine ⟨?_, congrArg Prod.fst hanswer, congrArg Prod.snd hanswer, ?_⟩
  · intro f
    rw [hanswer]
    exact answer_ne_fault _ f
  · intro haddr hbase hlabels i hi
    have hencodable : i.Encodable := by
      have hpair : Statement.assemble labels pool addr line = (.ok i, _) := Prod.ext hi rfl
      obtain ⟨s, hparse, hencode⟩ := Statement.assemble_eq_ok hpair
      have hlegal := Statement.parse_legal hparse
      have hlabels' : ∀ name target, labels.lookup name = .ok target → target.toNat % 4 = 0 := by
        intro name target hlookup
        have := hlabels name target hlookup
        omega
      exact Statement.encodable_of_encode hlegal hlabels' (by omega) hbase (by omega)
        (congrArg Prod.fst hencode)
    exact ⟨hencodable, Instruction.decode?_encode_of_encodable hencodable⟩

/-- A pool that leaves one word at the end of the address space. -/
def nearlyFull : LiteralPool := ⟨0xFFFFFFF4, [0x200, 0x300]⟩

/-- A table with an address that does not fit a byte. -/
def farTop : SymbolTable := .insert .empty "top" 0x8000

/-- A line that loads this address. -/
def loadTop : List Token := [⟨.name, "ldr"⟩, ⟨.name, "r1"⟩, ⟨.expression, "top"⟩]

theorem aligned_farTop {name : String} {target : Word} (h : farTop.lookup name = .ok target) :
    4 ∣ target.toNat := by
  rw [SymbolTable.lookup_eq_ok_iff, farTop, SymbolTable.find?_insert] at h
  split at h
  · cases h
    decide
  · cases h

/-- A load at the end of the address space: the constant comes to stand in the last word there
is. -/
theorem assemble_without_fault_last_word :
    nearlyFull.base.toNat + 4 * nearlyFull.words.length ≤ 0xFFFFFFFF
      ∧ (∀ name target, farTop.lookup name = .ok target → 4 ∣ target.toNat)
      ∧ ∃ i, (Statement.assemble farTop nearlyFull 0xFFFFFFF0 loadTop).1 = .ok i
        ∧ (assemble farTop nearlyFull 0xFFFFFFF0 loadTop).1 = .ok i
        ∧ i.Encodable ∧ Instruction.decode? i.encode = some i := by
  have hsize : nearlyFull.base.toNat + 4 * nearlyFull.words.length ≤ 0xFFFFFFFF := by decide
  have hlabels : ∀ name target, farTop.lookup name = .ok target → 4 ∣ target.toNat :=
    fun _ _ => aligned_farTop
  obtain ⟨_, hanswer, _, hfits⟩ := assemble_without_fault farTop nearlyFull 0xFFFFFFF0 loadTop hsize
  have hload : (Statement.assemble farTop nearlyFull 0xFFFFFFF0 loadTop).1
      = .ok (.transfer ⟨.al, true, true, true, .pc, .r1, .immediate 0xC⟩) := by
    decide +kernel
  rw [hload] at hanswer
  exact ⟨hsize, hlabels, _, hload, hanswer, hfits (by decide) (by decide) hlabels _ hload⟩

/-- With one more constant in the pool, the address of the next one is a fault. -/
example : (assemble farTop ⟨0xFFFFFFF4, [0x200, 0x300, 0x400]⟩ 0xFFFFFFF0 loadTop).1
    = .error (.fault (.overflow 0x100000000)) := by
  decide +kernel

end Checked

end Armlet
