import Mathlib.Data.List.Basic
import Armlet.Proofs.Operands

/-!
# The literal pool, and the statements that use it

A pool only grows at its end. Every address that has been handed out therefore
goes on to denote its value, whatever is added afterwards: `Extends` is the
relation between a pool and what becomes of it.

The load of a constant is the one instruction whose displacement is a distance
and not a number from the source. It is positive, because the pool begins behind
the last line, and it is checked from above; so it fits its twelve bits. With
that, every instruction that a statement is encoded to is encodable.
-/

namespace Armlet

namespace LiteralPool

/-- `q` is `p` with some values added at the end. -/
structure Extends (p q : LiteralPool) : Prop where
  base_eq : q.base = p.base
  words_prefix : p.words <+: q.words

namespace Extends

variable {p q r : LiteralPool}

theorem refl (p : LiteralPool) : Extends p p := ⟨rfl, List.prefix_rfl⟩

theorem trans (h : Extends p q) (h' : Extends q r) : Extends p r :=
  ⟨h'.base_eq.trans h.base_eq, h.words_prefix.trans h'.words_prefix⟩

theorem length_le (h : Extends p q) : p.words.length ≤ q.words.length :=
  h.words_prefix.length_le

/-- A slot goes on to hold its value. -/
theorem getElem?_eq (h : Extends p q) {j : Nat} {v : Word} (hv : p.words[j]? = some v) :
    q.words[j]? = some v := by
  obtain ⟨ws, hws⟩ := h.words_prefix
  rw [← hws, List.getElem?_append_left (List.getElem?_eq_some_iff.mp hv).1, hv]

end Extends

/-- A value gets the first place that holds it, or a new one at the end. -/
theorem intern_eq (pool : LiteralPool) (v : Word) :
    pool.intern v = (pool.slot (pool.words.idxOf v),
      if v ∈ pool.words then pool else { pool with words := pool.words ++ [v] }) := by
  rw [List.idxOf_eq_getD_idxOf?, intern]
  split
  · rename_i j hj
    have hmem : v ∈ pool.words := by
      rw [← Decidable.not_not (p := v ∈ pool.words), ← List.idxOf?_eq_none_iff, hj]
      exact Option.some_ne_none j
    rw [hj, if_pos hmem, Option.getD_some]
  · rename_i hnone
    rw [hnone, if_neg (List.idxOf?_eq_none_iff.mp hnone), Option.getD_none]

/-- The place of a value holds it, once the pool has taken it in. -/
theorem getElem?_idxOf_intern (pool : LiteralPool) (v : Word) :
    (pool.intern v).2.words[pool.words.idxOf v]? = some v := by
  rw [intern_eq]
  dsimp only
  split
  · rename_i hmem
    have hlt := List.idxOf_lt_length_iff.mpr hmem
    rw [List.getElem?_eq_getElem hlt, List.getElem_idxOf hlt]
  · rename_i hnew
    rw [List.idxOf_of_notMem hnew, List.getElem?_concat_length]

/-- Interning hands out a slot that holds the value, at the worst a new one at the end. -/
theorem intern_spec (pool : LiteralPool) (v : Word) :
    pool.Extends (pool.intern v).2 ∧ ∃ j, j ≤ pool.words.length
      ∧ (pool.intern v).1 = pool.slot j ∧ (pool.intern v).2.words[j]? = some v := by
  refine ⟨?_, pool.words.idxOf v, List.idxOf_le_length, ?_, pool.getElem?_idxOf_intern v⟩
  · rw [intern_eq]
    dsimp only
    split
    · exact .refl pool
    · exact ⟨rfl, List.prefix_append _ _⟩
  · rw [intern_eq]

/-- The address of a slot of a pool that ends within the address space. -/
theorem toNat_slot {pool : LiteralPool} {j : Nat}
    (h : pool.base.toNat + 4 * j < 0x100000000) :
    (pool.slot j).toNat = pool.base.toNat + 4 * j := by
  unfold slot
  rw [BitVec.toNat_add, BitVec.toNat_ofNat]
  omega

end LiteralPool

namespace Statement

variable {pool : LiteralPool} {addr : Word}

theorem extends_encode (s : Statement) : pool.Extends (s.encode pool addr).2 := by
  cases s with
  | blank => exact .refl pool
  | instruction i => exact .refl pool
  | branchTo cond target => exact .refl pool
  | loadConstant rd v =>
    rw [encode]
    split
    · exact .refl pool
    · exact (pool.intern_spec v).1

/-- The offset of a branch, if the branch can be encoded. -/
theorem encodeBranch_eq_ok {cond : Condition} {target : Word} {i : Instruction}
    (h : encodeBranch addr cond target = .ok i) :
    ∃ offset : Word, i = .branch ⟨cond, offset⟩
      ∧ offset.toInt = (addr.toNat : Int) - target.toNat
      ∧ -0x2000000 < offset.toInt ∧ offset.toInt < 0x2000000 := by
  unfold encodeBranch branchReach at h
  dsimp only at h
  split at h
  · cases h
  · rename_i hrange
    cases h
    refine ⟨_, rfl, ?_⟩
    rw [BitVec.toInt_ofInt, Int.bmod_def]
    split <;> omega

/-- The displacement of a load from the pool, if the load can be encoded. -/
theorem encodeLoad_eq_ok {rd : Register} {slot : Word} {i : Instruction}
    (hle : addr.toNat ≤ slot.toNat) (h : encodeLoad addr rd slot = .ok i) :
    ∃ bytes : BitVec 16, i = .transfer ⟨.al, true, true, true, .pc, rd, .immediate bytes⟩
      ∧ addr.toNat + bytes.toNat = slot.toNat ∧ bytes.toNat ≤ 4095 := by
  unfold encodeLoad transferReach at h
  dsimp only at h
  split at h
  · cases h
  · rename_i hrange
    cases h
    refine ⟨_, rfl, ?_⟩
    rw [BitVec.toNat_ofInt]
    omega

/--
The load of a constant: a move if the constant fits a byte, and otherwise a load
from a slot that holds it.
-/
theorem encode_loadConstant_eq_ok {rd : Register} {v : Word} {i : Instruction}
    (haddr : addr.toNat ≤ pool.base.toNat)
    (hsize : pool.base.toNat + 4 * pool.words.length < 0x100000000)
    (h : ((loadConstant rd v).encode pool addr).1 = .ok i) :
    (v ≤ 0xFF ∧ i = moveByte rd v) ∨ ∃ (j : Nat) (bytes : BitVec 16),
      i = .transfer ⟨.al, true, true, true, .pc, rd, .immediate bytes⟩
        ∧ j ≤ pool.words.length ∧ ((loadConstant rd v).encode pool addr).2.words[j]? = some v
        ∧ addr.toNat + bytes.toNat = pool.base.toNat + 4 * j ∧ bytes.toNat ≤ 4095 := by
  rw [encode] at h ⊢
  split at h
  · rename_i hv
    cases h
    exact .inl ⟨hv, rfl⟩
  · rename_i hv
    rw [if_neg hv]
    obtain ⟨_, j, hj, hslot, hget⟩ := pool.intern_spec v
    have hnat : (pool.intern v).1.toNat = pool.base.toNat + 4 * j := by
      rw [hslot]
      exact LiteralPool.toNat_slot (by omega)
    obtain ⟨bytes, rfl, hsum, hbytes⟩ := encodeLoad_eq_ok (by omega) h
    exact .inr ⟨j, bytes, rfl, hj, hget, by omega, hbytes⟩

/-- **Whatever a legal statement is encoded to is encodable.** -/
theorem encodable_of_encode {labels : SymbolTable} {s : Statement} {i : Instruction}
    (hlegal : s.Legal labels)
    (hlabels : ∀ name target, labels.lookup name = .ok target → target.toNat % 4 = 0)
    (halign : addr.toNat % 4 = 0) (haddr : addr.toNat ≤ pool.base.toNat)
    (hsize : pool.base.toNat + 4 * pool.words.length < 0x100000000)
    (h : (s.encode pool addr).1 = .ok i) : i.Encodable := by
  cases s with
  | blank =>
    cases h
    decide
  | instruction i' =>
    cases h
    exact hlegal
  | branchTo cond target =>
    obtain ⟨name, hname⟩ := hlegal
    have htarget := hlabels name target hname
    obtain ⟨offset, rfl, hoffset, hlo, hhi⟩ := encodeBranch_eq_ok h
    simp only [Instruction.Encodable, Branch.Fits]
    omega
  | loadConstant rd v =>
    rcases encode_loadConstant_eq_ok haddr hsize h with
      ⟨_, rfl⟩ | ⟨j, bytes, rfl, _, _, _, hbytes⟩
    · refine ⟨?_, ?_⟩
      · simp [SecondOperand.Fits]
      · simp [DataProcessing.zeroWord]
    · exact hbytes

end Statement

end Armlet
