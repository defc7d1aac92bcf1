import Mathlib.Algebra.Group.Int.Defs
import Mathlib.Algebra.Group.Nat.Defs
import Armlet.Proofs.Comparison

/-!
# The shifter in integers

A shift by `n` places is a multiplication or a division by `2 ^ n`, and the carry is
the last binary digit that leaves the word on the way:

* a left shift multiplies, and what has no room in a word is lost; the last digit
  to leave is the lowest one of what is lost;
* a right shift divides and rounds down, the arithmetic one after reading the word
  as signed; the last digit to leave is the lowest one of what a shift by `n - 1`
  places would have left;
* a rotation puts the `n mod 32` digits that leave on top of the others.

This is so for every amount but 0, which reports no carry. There is no case of its
own for amounts of 32 and more. So shifts of one kind add up: it is all the same
whether a word is shifted by `m` places and then by `n`, or by `m + n` at once.
-/

namespace Armlet

/-! ## The reference -/

/-- A number of 32 binary digits whose lowest `r` digits are put on top of the others. -/
def turnedRight (x r : Nat) : Nat := x / 2 ^ r + x % 2 ^ r * 2 ^ (32 - r)

namespace ShiftType

/-- What a shift makes of a word, before it is cut down to a word again. -/
def number (kind : ShiftType) (x : Word) (n : Nat) : Int :=
  match kind with
  | lsl => (x.toNat * 2 ^ n : Nat)
  | lsr => (x.toNat / 2 ^ n : Nat)
  | asr => x.toInt / 2 ^ n
  | ror => turnedRight x.toNat (n % 32)

/-- The number whose lowest binary digit is the last one that is pushed out. -/
def pushedOut (kind : ShiftType) (x : Word) (n : Nat) : Int :=
  match kind with
  | lsl => (x.toNat * 2 ^ n / 0x100000000 : Nat)
  | lsr => (x.toNat / 2 ^ (n - 1) : Nat)
  | asr => x.toInt / 2 ^ (n - 1)
  | ror => (x.toNat / 2 ^ ((n - 1) % 32) : Nat)

end ShiftType

/-! ## Words and their digits -/

namespace Word

theorem toNat_eq_toInt_emod (w : Word) : (w.toNat : Int) = w.toInt % 0x100000000 := by
  have := w.isLt
  rcases w.toInt_cases with ⟨_, h⟩ | ⟨_, h⟩ <;> omega

theorem getLsbD_eq_div (w : Word) (i : Nat) : w.getLsbD i = decide (w.toNat / 2 ^ i % 2 = 1) :=
  Nat.testBit_eq_decide_div_mod_eq

/-- The lowest digit is the same for the signed reading. -/
theorem getLsbD_zero_eq (w : Word) : w.getLsbD 0 = decide (w.toInt % 2 = 1) := by
  rw [getLsbD_eq_div, Nat.pow_zero, Nat.div_one, decide_eq_decide]
  rcases w.toInt_cases with ⟨_, h⟩ | ⟨_, h⟩ <;> omega

theorem toNat_rotateRight (w : Word) (k : Nat) :
    (w.rotateRight k).toNat = turnedRight w.toNat (k % 32) := by
  have hr : k % 32 < 32 := Nat.mod_lt _ (by decide)
  have hsplit : 2 ^ (k % 32) * 2 ^ (32 - k % 32) = 2 ^ 32 := by
    rw [← Nat.pow_add]
    congr 1
    omega
  have hlow : w.toNat / 2 ^ (k % 32) < 2 ^ (32 - k % 32) := by
    rw [Nat.div_lt_iff_lt_mul (Nat.two_pow_pos _), Nat.mul_comm, hsplit]
    exact w.isLt
  have hhigh : w.toNat <<< (32 - k % 32) % 2 ^ 32
      = w.toNat % 2 ^ (k % 32) * 2 ^ (32 - k % 32) := by
    rw [Nat.shiftLeft_eq, ← hsplit, Nat.mul_mod_mul_right]
  rw [BitVec.toNat_rotateRight, hhigh, Nat.shiftRight_eq_div_pow, Nat.or_comm, turnedRight,
    Nat.mul_comm (_ % _), ← Nat.two_pow_add_eq_or_of_lt hlow, Nat.add_comm]

/-- A rotation moves every digit `k` places down, and round. -/
theorem getLsbD_rotateRight_eq (w : Word) (k : Nat) {i : Nat} (hi : i < 32) :
    (w.rotateRight k).getLsbD i = w.getLsbD ((i + k) % 32) := by
  rw [BitVec.getLsbD_rotateRight]
  by_cases hlow : i < 32 - k % 32
  · rw [decide_eq_true hlow, cond_true, show k % 32 + i = (i + k) % 32 by omega]
  · rw [decide_eq_false hlow, cond_false, decide_eq_true hi, Bool.true_and,
      show i - (32 - k % 32) = (i + k) % 32 by omega]

/-- Rotations add up. -/
theorem rotateRight_rotateRight (w : Word) (m n : Nat) :
    (w.rotateRight m).rotateRight n = w.rotateRight (m + n) := by
  apply BitVec.eq_of_getLsbD_eq
  intro i hi
  rw [getLsbD_rotateRight_eq _ n hi, getLsbD_rotateRight_eq w m (Nat.mod_lt _ (by decide)),
    getLsbD_rotateRight_eq w (m + n) hi, show ((i + n) % 32 + m) % 32 = (i + (m + n)) % 32 by omega]

theorem rotateRight_zero (w : Word) : w.rotateRight 0 = w := by
  apply BitVec.eq_of_getLsbD_eq
  intro i hi
  rw [getLsbD_rotateRight_eq w 0 hi, Nat.add_zero, Nat.mod_eq_of_lt hi]

end Word

/-! ## Shifts -/

namespace ShiftType

theorem shiftValue_lsl (x : Word) (n : Nat) : lsl.shiftValue x n = x <<< n := by
  rw [shiftValue]
  split
  · rfl
  · rename_i hn
    exact (BitVec.shiftLeft_eq_zero (Nat.le_of_not_lt hn)).symm

/-- By zero places nothing is changed, so the value needs no case of its own for this amount. -/
theorem value_shift (kind : ShiftType) (x : Word) (n : Nat) :
    (kind.shift x n).value = kind.shiftValue x n := by
  rw [shift]
  split
  · rename_i hn
    subst hn
    cases kind with
    | lsl => exact (BitVec.shiftLeft_zero x).symm
    | lsr => exact (BitVec.ushiftRight_zero x).symm
    | asr => exact BitVec.sshiftRight_zero.symm
    | ror => exact (Word.rotateRight_zero x).symm
  · rfl

theorem toNat_shiftValue (kind : ShiftType) (x : Word) (n : Nat) :
    ((kind.shiftValue x n).toNat : Int) = kind.number x n % 0x100000000 := by
  -- a number that fits a word is not changed by the remainder
  have hword : ∀ q : Nat, q < 0x100000000 → (q : Int) = q % 0x100000000 := by omega
  cases kind with
  | lsl =>
    rw [shiftValue_lsl, BitVec.toNat_shiftLeft, Nat.shiftLeft_eq, number, Int.natCast_emod]
    rfl
  | lsr =>
    have hlt : x.toNat / 2 ^ n < 0x100000000 := Nat.lt_of_le_of_lt (Nat.div_le_self _ _) x.isLt
    rw [shiftValue, BitVec.toNat_ushiftRight, Nat.shiftRight_eq_div_pow, number]
    exact hword _ hlt
  | asr =>
    rw [shiftValue, Word.toNat_eq_toInt_emod, BitVec.toInt_sshiftRight, Int.shiftRight_eq_div_pow,
      number, Int.natCast_pow]
    rfl
  | ror =>
    rw [shiftValue, number, ← Word.toNat_rotateRight]
    exact hword _ (x.rotateRight n).isLt

/-- While a left shift is not longer than a word, what it pushes out is the top of the word. -/
theorem mul_pow_div_of_le (x : Nat) {n : Nat} (hn : n ≤ 32) :
    x * 2 ^ n / 0x100000000 = x / 2 ^ (32 - n) := by
  have hpow : 0x100000000 = 2 ^ (32 - n) * 2 ^ n := by
    rw [← Nat.pow_add, Nat.sub_add_cancel hn]
  rw [hpow, Nat.mul_div_mul_right _ _ (Nat.two_pow_pos n)]

/-- After that it pushes out zeros. -/
theorem mul_pow_div_mod_of_lt (x : Nat) {n : Nat} (hn : 32 < n) :
    x * 2 ^ n / 0x100000000 % 2 = 0 := by
  have hpow : x * 2 ^ n = x * 2 ^ (n - 33) * 2 * 0x100000000 := by
    rw [Nat.mul_assoc _ 2, Nat.mul_assoc x, show 2 * 0x100000000 = 2 ^ 33 from rfl, ← Nat.pow_add,
      Nat.sub_add_cancel hn]
  rw [hpow, Nat.mul_div_cancel _ (by decide), Nat.mul_mod_left]

theorem shiftCarry_iff (kind : ShiftType) (x : Word) {n : Nat} (hn : 1 ≤ n) :
    kind.shiftCarry x n = true ↔ kind.pushedOut x n % 2 = 1 := by
  have hcast : ∀ q : Nat, (q : Int) % 2 = 1 ↔ q % 2 = 1 := by omega
  cases kind with
  | lsl =>
    rw [shiftCarry, pushedOut, hcast, Bool.and_eq_true, decide_eq_true_eq, Word.getLsbD_eq_div,
      decide_eq_true_eq]
    by_cases hle : n ≤ 32
    · rw [mul_pow_div_of_le _ hle]
      exact and_iff_right hle
    · have hzero := mul_pow_div_mod_of_lt x.toNat (Nat.lt_of_not_le hle)
      omega
  | lsr => rw [shiftCarry, pushedOut, hcast, Word.getLsbD_eq_div, decide_eq_true_eq]
  | asr =>
    -- shifted by one place less, the word has the carry as its lowest digit
    have hlast : (x.sshiftRight (n - 1)).getLsbD 0 = x.getLsbD (min (n - 1) 31) := by
      rw [BitVec.getLsbD_sshiftRight, BitVec.msb_eq_getLsbD_last]
      by_cases hlt : n - 1 < 32
      · simp [hlt, Nat.min_eq_left (Nat.le_of_lt_succ hlt)]
      · simp [hlt, Nat.min_eq_right (show 31 ≤ n - 1 by omega)]
    rw [shiftCarry, ← hlast, Word.getLsbD_zero_eq, BitVec.toInt_sshiftRight,
      Int.shiftRight_eq_div_pow, pushedOut, Int.natCast_pow, decide_eq_true_eq]
    rfl
  | ror =>
    have htop : (31 + n) % 32 = (n - 1) % 32 := by omega
    rw [shiftCarry, pushedOut, hcast, BitVec.msb_eq_getLsbD_last,
      Word.getLsbD_rotateRight_eq x n (by decide), htop, Word.getLsbD_eq_div, decide_eq_true_eq]

theorem shiftValue_shiftValue (kind : ShiftType) (x : Word) (m n : Nat) :
    kind.shiftValue (kind.shiftValue x m) n = kind.shiftValue x (m + n) := by
  cases kind with
  | lsl => rw [shiftValue_lsl, shiftValue_lsl, shiftValue_lsl, BitVec.shiftLeft_add]
  | lsr => exact (BitVec.shiftRight_add x m n).symm
  | asr => exact BitVec.sshiftRight_add.symm
  | ror => exact Word.rotateRight_rotateRight x m n

/--
**The shifter computes with integers.** A shift by zero places is the identity and
reports no carry. A shift by any greater amount leaves the reference number modulo
2^32, and reports the lowest digit of what it has pushed out. Two shifts of one kind
are a single one by the sum of their amounts.
-/
theorem shift_eq_arithmetic (kind : ShiftType) (x : Word) :
    kind.shift x 0 = ⟨x, none⟩
      ∧ (∀ n, 1 ≤ n → ((kind.shift x n).value.toNat : Int) = kind.number x n % 0x100000000
        ∧ (kind.shift x n).carry = some (decide (kind.pushedOut x n % 2 = 1)))
      ∧ ∀ m n, (kind.shift (kind.shift x m).value n).value = (kind.shift x (m + n)).value := by
  refine ⟨rfl, ?_, ?_⟩
  · intro n hn
    refine ⟨?_, ?_⟩
    · rw [value_shift, toNat_shiftValue]
    · rw [shift, if_neg (Nat.ne_of_gt hn), Option.some.injEq, Bool.eq_iff_iff, decide_eq_true_eq]
      exact shiftCarry_iff kind x hn
  · intro m n
    rw [value_shift, value_shift, value_shift, shiftValue_shiftValue]

/-- The sign goes on for ever, a left shift by the width pushes out the lowest digit, and a
rotation by the width leaves the word as it is but reports its highest. -/
theorem shift_eq_arithmetic_wide :
    1 ≤ 33 ∧ ((asr.shift 0x80000000 33).value.toNat : Int) = -1 % 0x100000000
      ∧ (asr.shift 0x80000000 33).carry = some true
      ∧ 1 ≤ 32 ∧ ((lsl.shift 0x80000001 32).value.toNat : Int) = 0
      ∧ (lsl.shift 0x80000001 32).carry = some true
      ∧ ((ror.shift 0x80000001 32).value.toNat : Int) = 0x80000001
      ∧ (ror.shift 0x80000001 32).carry = some true := by
  obtain ⟨hasr, hasrCarry⟩ := (shift_eq_arithmetic asr 0x80000000).2.1 33 (by decide)
  obtain ⟨hlsl, hlslCarry⟩ := (shift_eq_arithmetic lsl 0x80000001).2.1 32 (by decide)
  obtain ⟨hror, hrorCarry⟩ := (shift_eq_arithmetic ror 0x80000001).2.1 32 (by decide)
  refine ⟨by decide, hasr.trans ?_, hasrCarry.trans ?_, by decide, hlsl.trans ?_,
    hlslCarry.trans ?_, hror.trans ?_, hrorCarry.trans ?_⟩ <;> decide

end ShiftType

end Armlet
