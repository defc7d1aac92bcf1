import Armlet.Instruction

/-!
# Which instructions fit a word

The fields of an `Instruction` are wider than their places in a word. Two
notions say what that means.

`Instruction.truncate` is what is left of an instruction once it has been
squeezed into a word: the lowest bits of every field that is too wide, and of a
branch the multiple of four below its offset. Truncating twice is truncating
once.

`Instruction.Encodable` says in numbers that nothing is lost. One instruction is
left out although all its fields fit: `andeq r0, r0, r0` with the flags left
alone has the word zero, and that word belongs to the halt.

The two agree: an instruction is encodable iff truncation does not change it and
it does not stand in the place of the halt.
-/

namespace Armlet

/-! ## Truncation -/

/-- Five bits of a constant amount are kept. -/
def Shift.truncate : Shift → Shift
  | .amount kind n => .amount kind ((n.setWidth 5).setWidth 8)
  | .register kind rs => .register kind rs

def RegisterOperand.truncate (operand : RegisterOperand) : RegisterOperand :=
  { operand with shift := operand.shift.truncate }

/-- Four bits of a rotation are kept. -/
def SecondOperand.truncate : SecondOperand → SecondOperand
  | .immediate imm rotate => .immediate imm ((rotate.setWidth 4).setWidth 8)
  | .register operand => .register operand.truncate

/-- Twelve bits of an immediate displacement are kept. -/
def Displacement.truncate : Displacement → Displacement
  | .immediate bytes => .immediate ((bytes.setWidth 12).setWidth 16)
  | .register operand => .register operand.truncate

/-- Bits 25 to 2 of an offset are kept, the uppermost of them as a sign. -/
def Branch.truncate (i : Branch) : Branch :=
  { i with offset := (i.offset.extractLsb' 2 24 ++ 0b00#2).signExtend 32 }

/-- What is left of an instruction in its word. -/
def Instruction.truncate : Instruction → Instruction
  | dataProcessing i => dataProcessing { i with operand := i.operand.truncate }
  | multiply i => multiply i
  | transfer i => transfer { i with displacement := i.displacement.truncate }
  | branch i => branch i.truncate
  | halt => halt

/-! ## Encodable instructions -/

/-- A constant amount has five bits. -/
def Shift.Fits : Shift → Prop
  | .amount _ n => n.toNat ≤ 31
  | .register _ _ => True

/-- A rotation has four bits. -/
def SecondOperand.Fits : SecondOperand → Prop
  | .immediate _ rotate => rotate.toNat ≤ 15
  | .register operand => operand.shift.Fits

/-- An immediate displacement has twelve bits. -/
def Displacement.Fits : Displacement → Prop
  | .immediate bytes => bytes.toNat ≤ 4095
  | .register operand => operand.shift.Fits

/-- An offset is a signed count of words, with 24 bits for it. -/
def Branch.Fits (i : Branch) : Prop :=
  4 ∣ i.offset.toInt ∧ -0x2000000 ≤ i.offset.toInt ∧ i.offset.toInt ≤ 0x2000000 - 4

/-- `andeq r0, r0, r0` with the flags left alone: its fields make up the word of the halt. -/
def DataProcessing.zeroWord : DataProcessing :=
  ⟨.eq, .and, false, .r0, .r0, .register ⟨.r0, .amount .lsl 0⟩⟩

/-- An instruction that has a word of its own. -/
def Instruction.Encodable : Instruction → Prop
  | dataProcessing i => i.operand.Fits ∧ i ≠ .zeroWord
  | multiply _ => True
  | transfer i => i.displacement.Fits
  | branch i => i.Fits
  | halt => True

instance : DecidablePred Shift.Fits
  | .amount _ n => inferInstanceAs (Decidable (n.toNat ≤ 31))
  | .register _ _ => inferInstanceAs (Decidable True)

instance : DecidablePred SecondOperand.Fits
  | .immediate _ rotate => inferInstanceAs (Decidable (rotate.toNat ≤ 15))
  | .register operand => inferInstanceAs (Decidable operand.shift.Fits)

instance : DecidablePred Displacement.Fits
  | .immediate bytes => inferInstanceAs (Decidable (bytes.toNat ≤ 4095))
  | .register operand => inferInstanceAs (Decidable operand.shift.Fits)

instance : DecidablePred Branch.Fits := fun i =>
  inferInstanceAs (Decidable (4 ∣ i.offset.toInt ∧ _ ∧ _))

instance : DecidablePred Instruction.Encodable
  | .dataProcessing i => inferInstanceAs (Decidable (i.operand.Fits ∧ i ≠ .zeroWord))
  | .multiply _ => inferInstanceAs (Decidable True)
  | .transfer i => inferInstanceAs (Decidable i.displacement.Fits)
  | .branch i => inferInstanceAs (Decidable i.Fits)
  | .halt => inferInstanceAs (Decidable True)

/-! ## Truncation keeps what fits -/

theorem Shift.truncate_eq_self_iff {s : Shift} : s.truncate = s ↔ s.Fits := by
  cases s with
  | amount kind n =>
    simp only [truncate, Fits, amount.injEq, true_and]
    rw [BitVec.toNat_eq, BitVec.toNat_setWidth, BitVec.toNat_setWidth]
    have := n.isLt
    omega
  | register kind rs => simp [truncate, Fits]

theorem RegisterOperand.truncate_eq_self_iff {operand : RegisterOperand} :
    operand.truncate = operand ↔ operand.shift.Fits := by
  rw [← Shift.truncate_eq_self_iff]
  constructor
  · intro h
    exact congrArg RegisterOperand.shift h
  · intro h
    rw [truncate, h]

theorem SecondOperand.truncate_eq_self_iff {operand : SecondOperand} :
    operand.truncate = operand ↔ operand.Fits := by
  cases operand with
  | immediate imm rotate =>
    simp only [truncate, Fits, immediate.injEq, true_and]
    rw [BitVec.toNat_eq, BitVec.toNat_setWidth, BitVec.toNat_setWidth]
    have := rotate.isLt
    omega
  | register operand =>
    simp only [truncate, Fits, register.injEq, RegisterOperand.truncate_eq_self_iff]

theorem Displacement.truncate_eq_self_iff {d : Displacement} : d.truncate = d ↔ d.Fits := by
  cases d with
  | immediate bytes =>
    simp only [truncate, Fits, immediate.injEq]
    rw [BitVec.toNat_eq, BitVec.toNat_setWidth, BitVec.toNat_setWidth]
    have := bytes.isLt
    omega
  | register operand =>
    simp only [truncate, Fits, register.injEq, RegisterOperand.truncate_eq_self_iff]

/-- A truncated offset is the multiple of four below the offset, wrapped to 26 bits. -/
theorem Branch.toInt_truncate (i : Branch) :
    i.truncate.offset.toInt = Int.bmod (4 * (i.offset.toInt / 4)) 0x4000000 := by
  have hbits : (i.offset.extractLsb' 2 24 ++ 0b00#2).toNat
      = i.offset.toNat / 4 % 0x1000000 * 4 := by
    rw [BitVec.toNat_append, BitVec.extractLsb'_toNat, Nat.shiftRight_eq_div_pow]
    simp [Nat.shiftLeft_eq]
  rw [truncate, BitVec.toInt_signExtend_of_le (by decide), BitVec.toInt_eq_toNat_cond,
    BitVec.toInt_eq_toNat_cond, hbits]
  have := i.offset.isLt
  simp only [Int.bmod_def]
  -- the signs of the offset before and after, and the side of the wrap
  split <;> split <;> split <;> omega

theorem Branch.truncate_eq_self_iff {i : Branch} : i.truncate = i ↔ i.Fits := by
  -- the condition is kept in any case, so only the offset as a number matters
  have h : i.truncate = i ↔ i.truncate.offset.toInt = i.offset.toInt := by
    rw [BitVec.toInt_inj]
    constructor
    · intro h
      exact congrArg Branch.offset h
    · intro h
      obtain ⟨cond, offset⟩ := i
      exact congrArg (Branch.mk cond) h
  rw [h, toInt_truncate, Fits, Int.bmod_def]
  have := i.offset.toInt_lt
  have := i.offset.le_toInt
  split <;> omega

/-- An instruction is encodable iff truncation does not change it and it is not in the halt's place. -/
theorem Instruction.encodable_iff {i : Instruction} :
    i.Encodable ↔ i.truncate = i ∧ i ≠ .dataProcessing .zeroWord := by
  cases i with
  | dataProcessing i =>
    obtain ⟨cond, opcode, setFlags, rn, rd, operand⟩ := i
    simp [truncate, Encodable, SecondOperand.truncate_eq_self_iff]
  | multiply i => simp [truncate, Encodable]
  | transfer i =>
    obtain ⟨cond, load, preIndex, up, rn, rd, displacement⟩ := i
    simp [truncate, Encodable, Displacement.truncate_eq_self_iff]
  | branch i => simp [truncate, Encodable, Branch.truncate_eq_self_iff]
  | halt => simp [truncate, Encodable]

end Armlet
