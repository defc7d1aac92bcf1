import Armlet.Proofs.Execution

/-!
# Conditions after a comparison

A comparison subtracts and keeps the flags. They say how its operands are ordered,
as unsigned numbers and as signed ones, and each condition asks one of the
questions that can be asked about this order.

The unsigned order is in the carry, because a difference needs no borrow exactly
if it is not negative. The signed order is in two flags. A difference that stays
in its range has the sign that it should have; one that leaves the range has the
other sign, and then the overflow flag says so.

The flags are described in integers first (`Flags.OfDifference`, `Flags.OfSum`),
without a word or a bit operation, and the conditions are read off from there.
-/

namespace Armlet

/-- A signed number that no word stands for. -/
def LeavesRange (n : Int) : Prop := n < -0x80000000 ∨ 0x7FFFFFFF < n

/-- What a condition says about `a` and `b` once they have been compared. -/
def Condition.Compares (a b : Word) : Condition → Prop
  | eq => a = b
  | ne => a ≠ b
  | cs => b.toNat ≤ a.toNat
  | cc => a.toNat < b.toNat
  | mi => 0x80000000 ≤ ((a.toNat : Int) - b.toNat) % 0x100000000
  | pl => ((a.toNat : Int) - b.toNat) % 0x100000000 < 0x80000000
  | vs => LeavesRange (a.toInt - b.toInt)
  | vc => ¬ LeavesRange (a.toInt - b.toInt)
  | hi => b.toNat < a.toNat
  | ls => a.toNat ≤ b.toNat
  | ge => b.toInt ≤ a.toInt
  | lt => a.toInt < b.toInt
  | gt => b.toInt < a.toInt
  | le => a.toInt ≤ b.toInt
  | al => True
  | nv => False

/-! ## Words as signed numbers -/

namespace Word

theorem msb_iff (w : Word) : w.msb = true ↔ 0x80000000 ≤ w.toNat := by
  simp [BitVec.msb_eq_decide]

theorem msb_eq_msb_iff (v w : Word) :
    v.msb = w.msb ↔ (0x80000000 ≤ v.toNat ↔ 0x80000000 ≤ w.toNat) := by
  rw [Bool.eq_iff_iff, msb_iff, msb_iff]

theorem toInt_cases (w : Word) :
    (w.toNat < 0x80000000 ∧ w.toInt = w.toNat)
      ∨ (0x80000000 ≤ w.toNat ∧ w.toInt = w.toNat - 0x100000000) := by
  have hlt := w.isLt
  rw [BitVec.toInt_eq_toNat_cond]
  split
  · left
    omega
  · right
    omega

theorem toNat_sub_eq_emod (a b : Word) :
    ((a - b).toNat : Int) = ((a.toNat : Int) - b.toNat) % 0x100000000 := by
  have ha := a.isLt
  have hb := b.isLt
  rw [BitVec.toNat_sub]
  omega

end Word

/-! ## The flags of a difference -/

/-- Flags that a difference has left. -/
structure Flags.OfDifference (f : Flags) (a b : Word) : Prop where
  negative : f.negative = true ↔ 0x80000000 ≤ ((a.toNat : Int) - b.toNat) % 0x100000000
  zero : f.zero = true ↔ a = b
  carry : f.carry = true ↔ b.toNat ≤ a.toNat
  overflow : f.overflow = true ↔ LeavesRange (a.toInt - b.toInt)

theorem AluResult.overflow_difference (a b : Word) :
    ((a ^^^ b) &&& (a ^^^ (a - b))).msb = true ↔ LeavesRange (a.toInt - b.toInt) := by
  -- a sign is a comparison with `0x80000000`, so all that is left is arithmetic
  have hd := Word.toNat_sub_eq_emod a b
  have ha := Word.toInt_cases a
  have hb := Word.toInt_cases b
  have hla := a.isLt
  have hlb := b.isLt
  rw [BitVec.msb_and, BitVec.msb_xor, BitVec.msb_xor, Bool.and_eq_true, bne_iff_ne, bne_iff_ne,
    ne_eq, ne_eq, Word.msb_eq_msb_iff, Word.msb_eq_msb_iff]
  unfold LeavesRange
  omega

theorem Flags.ofDifference_update (f : Flags) (a b : Word) :
    (f.update (AluResult.difference a b).value (AluResult.difference a b).carry
      (AluResult.difference a b).overflow).OfDifference a b where
  negative := by
    rw [← Word.toNat_sub_eq_emod]
    exact (Word.msb_iff (a - b)).trans (by omega)
  zero := by
    change ((a - b) == 0#32) = true ↔ a = b
    rw [beq_iff_eq, BitVec.sub_eq_iff_eq_add, BitVec.zero_add]
  carry := by
    change decide (b ≤ a) = true ↔ _
    rw [decide_eq_true_eq]
    exact BitVec.le_def
  overflow := AluResult.overflow_difference a b

/-- The sign of a difference that has left its range is the wrong one. -/
theorem Flags.OfDifference.negative_eq_overflow {f : Flags} {a b : Word} (h : f.OfDifference a b) :
    (f.negative == f.overflow) = true ↔ b.toInt ≤ a.toInt := by
  have ha := Word.toInt_cases a
  have hb := Word.toInt_cases b
  have hla := a.isLt
  have hlb := b.isLt
  rw [beq_iff_eq, Bool.eq_iff_iff, h.negative, h.overflow]
  unfold LeavesRange
  omega

/-- **Every condition decides its question about the operands.** -/
theorem Flags.OfDifference.holds_iff {f : Flags} {a b : Word} (h : f.OfDifference a b)
    (c : Condition) : c.holds f = true ↔ c.Compares a b := by
  -- the strict orders ask for equality besides, in the numbers that they compare
  have heq : a = b ↔ a.toNat = b.toNat := BitVec.toNat_inj.symm
  have heq' : a = b ↔ a.toInt = b.toInt := BitVec.toInt_inj.symm
  have hsign := h.negative_eq_overflow
  cases c with
  | eq => exact h.zero
  | ne =>
    change (!f.zero) = true ↔ a ≠ b
    rw [Bool.not_eq_true', ← Bool.not_eq_true, h.zero]
  | cs => exact h.carry
  | cc =>
    change (!f.carry) = true ↔ a.toNat < b.toNat
    rw [Bool.not_eq_true', ← Bool.not_eq_true, h.carry, Nat.not_le]
  | mi => exact h.negative
  | pl =>
    change (!f.negative) = true ↔ ((a.toNat : Int) - b.toNat) % 0x100000000 < 0x80000000
    rw [Bool.not_eq_true', ← Bool.not_eq_true, h.negative, Int.not_le]
  | vs => exact h.overflow
  | vc =>
    change (!f.overflow) = true ↔ ¬ LeavesRange (a.toInt - b.toInt)
    rw [Bool.not_eq_true', ← Bool.not_eq_true, h.overflow]
  | hi =>
    change (f.carry && !f.zero) = true ↔ b.toNat < a.toNat
    rw [Bool.and_eq_true, Bool.not_eq_true', ← Bool.not_eq_true, h.carry, h.zero, heq]
    omega
  | ls =>
    change (!f.carry || f.zero) = true ↔ a.toNat ≤ b.toNat
    rw [Bool.or_eq_true, Bool.not_eq_true', ← Bool.not_eq_true, h.carry, h.zero, heq]
    omega
  | ge => exact hsign
  | lt =>
    change (f.negative != f.overflow) = true ↔ a.toInt < b.toInt
    rw [bne, Bool.not_eq_true', ← Bool.not_eq_true, hsign, Int.not_le]
  | gt =>
    change (!f.zero && f.negative == f.overflow) = true ↔ b.toInt < a.toInt
    rw [Bool.and_eq_true, Bool.not_eq_true', ← Bool.not_eq_true, h.zero, hsign, heq']
    omega
  | le =>
    change (f.zero || f.negative != f.overflow) = true ↔ a.toInt ≤ b.toInt
    rw [Bool.or_eq_true, bne, Bool.not_eq_true', ← Bool.not_eq_true, h.zero, hsign, heq']
    omega
  | al => exact iff_of_true rfl trivial
  | nv => exact iff_of_false Bool.false_ne_true id

/-! ## The flags of a sum -/

/-- Flags that a sum has left. -/
structure Flags.OfSum (f : Flags) (a b : Word) : Prop where
  negative : f.negative = true ↔ 0x80000000 ≤ (a.toNat + b.toNat) % 0x100000000
  zero : f.zero = true ↔ (a.toNat + b.toNat) % 0x100000000 = 0
  carry : f.carry = true ↔ 0x100000000 ≤ a.toNat + b.toNat
  overflow : f.overflow = true ↔ LeavesRange (a.toInt + b.toInt)

theorem AluResult.overflow_sum (a b : Word) :
    ((a ^^^ (a + b)) &&& (b ^^^ (a + b))).msb = true ↔ LeavesRange (a.toInt + b.toInt) := by
  have hs := BitVec.toNat_add a b
  have ha := Word.toInt_cases a
  have hb := Word.toInt_cases b
  have hla := a.isLt
  have hlb := b.isLt
  rw [BitVec.msb_and, BitVec.msb_xor, BitVec.msb_xor, Bool.and_eq_true, bne_iff_ne, bne_iff_ne,
    ne_eq, ne_eq, Word.msb_eq_msb_iff, Word.msb_eq_msb_iff]
  unfold LeavesRange
  omega

theorem Flags.ofSum_update (f : Flags) (a b : Word) :
    (f.update (AluResult.sum a b).value (AluResult.sum a b).carry
      (AluResult.sum a b).overflow).OfSum a b where
  negative := by
    have hs := BitVec.toNat_add a b
    exact (Word.msb_iff (a + b)).trans (by omega)
  zero := by
    change ((a + b) == 0#32) = true ↔ _
    rw [beq_iff_eq, ← BitVec.toNat_inj, BitVec.toNat_add]
    rfl
  carry := by
    have hs := BitVec.toNat_add a b
    have hla := a.isLt
    have hlb := b.isLt
    change decide (a + b < a) = true ↔ _
    rw [decide_eq_true_eq, BitVec.lt_def]
    omega
  overflow := AluResult.overflow_sum a b

/-! ## After an instruction -/

namespace Machine

variable {β : Type} [Bus β]

theorem flags_execute_dataProcessing {m : Machine β} {i : DataProcessing}
    (hcond : i.cond.holds m.cpu.flags = true) (hset : i.setFlags = true) :
    (m.execute (.dataProcessing i)).state.cpu.flags = m.cpu.flags.update (i.result m.cpu).value
      (i.result m.cpu).carry (i.result m.cpu).overflow := by
  have hexecute : m.execute (.dataProcessing i) = m.perform (.dataProcessing i) :=
    execute_of_holds hcond
  rw [hexecute]
  change (i.apply m.cpu).flags = _
  rw [DataProcessing.apply, if_pos hset]
  split
  · rfl
  · rfl

/--
**Conditions after a comparison.** An instruction that takes effect and sets the
flags leaves them so that, if it has subtracted `b` from `a`, every condition says
about `a` and `b` what `Condition.Compares` says; a reverse subtraction takes its
operands the other way round. If it has added, the carry, the overflow and the
zero flag say what has become of the sum.
-/
theorem conditions_after_execute (m : Machine β) (i : DataProcessing)
    (hcond : i.cond.holds m.cpu.flags = true) (hset : i.setFlags = true) :
    let a := m.cpu.get i.rn
    let b := (m.cpu.secondOperand i.operand).value
    let flags := (m.execute (.dataProcessing i)).state.cpu.flags
    (i.opcode = .cmp ∨ i.opcode = .sub → ∀ c : Condition, c.holds flags = true ↔ c.Compares a b)
      ∧ (i.opcode = .rsb → ∀ c : Condition, c.holds flags = true ↔ c.Compares b a)
      ∧ (i.opcode = .add → (Condition.cs.holds flags = true ↔ 0x100000000 ≤ a.toNat + b.toNat)
        ∧ (Condition.vs.holds flags = true ↔ LeavesRange (a.toInt + b.toInt))
        ∧ (Condition.eq.holds flags = true ↔ (a.toNat + b.toNat) % 0x100000000 = 0)) := by
  intro a b flags
  have hflags : flags = m.cpu.flags.update (i.result m.cpu).value (i.result m.cpu).carry
      (i.result m.cpu).overflow := flags_execute_dataProcessing hcond hset
  have hresult : i.result m.cpu = i.opcode.apply a (m.cpu.secondOperand i.operand) := rfl
  refine ⟨?_, ?_, ?_⟩
  · rintro (hop | hop)
    · rw [hflags, hresult, hop]
      exact (m.cpu.flags.ofDifference_update a b).holds_iff
    · rw [hflags, hresult, hop]
      exact (m.cpu.flags.ofDifference_update a b).holds_iff
  · intro hop
    rw [hflags, hresult, hop]
    exact (m.cpu.flags.ofDifference_update b a).holds_iff
  · intro hop
    rw [hflags, hresult, hop]
    have hsum := m.cpu.flags.ofSum_update a b
    exact ⟨hsum.carry, hsum.overflow, hsum.zero⟩

/-- The least signed number in `r0` and one in `r1`. -/
def extremes : Machine Ram :=
  ⟨((Processor.initial none).set .r0 0x80000000).set .r1 1, .zeroed 0⟩

/-- Compares `r0` with `r1`. -/
def compareExtremes : DataProcessing :=
  ⟨.al, .cmp, true, .r0, .r0, .register (.unshifted .r1)⟩

/-- The difference of these two leaves the signed range, and the conditions are right all the same. -/
theorem conditions_after_execute_extremes :
    compareExtremes.cond.holds extremes.cpu.flags = true ∧ compareExtremes.setFlags = true
      ∧ ∀ c : Condition,
        c.holds (extremes.execute (.dataProcessing compareExtremes)).state.cpu.flags = true
          ↔ c.Compares 0x80000000 1 := by
  have hcond : compareExtremes.cond.holds extremes.cpu.flags = true := rfl
  have hset : compareExtremes.setFlags = true := rfl
  have hfirst : extremes.cpu.get .r0 = 0x80000000 := by decide
  have hsecond : (extremes.cpu.secondOperand compareExtremes.operand).value = 1 := by decide
  refine ⟨hcond, hset, ?_⟩
  rw [← hfirst, ← hsecond]
  exact (conditions_after_execute extremes compareExtremes hcond hset).1 (.inl rfl)

end Machine

end Armlet
