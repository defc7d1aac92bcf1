import Mathlib.Data.Nat.Find
import Armlet.Proofs.RoundTrip

/-!
# What is left of an instruction in its text

The assembler has no syntax for several fields of an instruction, so it fills
them in its own way, and a text stands for one instruction out of many.
`Instruction.canonical` names that one. It differs from the instruction in five
places and in no others: the S bit, the register of a form that does not use it,
the rotation of an immediate, the kind of a shift by zero, and the index mode of a
transfer together with the direction of a zero displacement.

Of these only the rotation takes an argument. The same value may be a byte turned
by one amount and another byte turned by another, and the assembler takes the
least amount. `SecondOperand.ofValue?_eq` says so.
-/

namespace Armlet

/-! ## Rotations -/

/-- Turning to the right and back. -/
theorem rotateLeft_rotateRight (w : Word) (k : Nat) : (w.rotateRight k).rotateLeft k = w := by
  ext j hj
  have hk := Nat.mod_lt k (show 0 < 32 by decide)
  rw [BitVec.getElem_rotateLeft]
  split
  · rename_i hlow
    rw [BitVec.getElem_rotateRight, dif_neg (by omega)]
    simp only [show 32 - k % 32 + j - (32 - k % 32) = j by omega]
  · rename_i hhigh
    rw [BitVec.getElem_rotateRight, dif_pos (by omega)]
    simp only [show k % 32 + (j - k % 32) = j by omega]

theorem rotateRight_rotateLeft (w : Word) (k : Nat) : (w.rotateLeft k).rotateRight k = w := by
  ext j hj
  have hk := Nat.mod_lt k (show 0 < 32 by decide)
  rw [BitVec.getElem_rotateRight]
  split
  · rename_i hlow
    rw [BitVec.getElem_rotateLeft, dif_neg (by omega)]
    simp only [show k % 32 + j - k % 32 = j by omega]
  · rename_i hhigh
    rw [BitVec.getElem_rotateLeft, dif_pos (by omega)]
    simp only [show 32 - k % 32 + (j - (32 - k % 32)) = j by omega]

theorem le_byte_iff {w : Word} : w ≤ 0xFF ↔ w.toNat < 256 := by
  rw [BitVec.le_def, show (0xFF : Word).toNat = 255 from rfl]
  omega

namespace SecondOperand

/-- The byte that is found, turned as asked, is the value. -/
theorem immediateByte?_eq_some_iff {value : Word} {rotate : Nat} {imm : Byte} :
    immediateByte? value rotate = some imm
      ↔ (imm.setWidth 32).rotateRight (2 * rotate) = value := by
  unfold immediateByte?
  dsimp only
  constructor
  · intro h
    split at h
    · rename_i hle
      have hsmall := le_byte_iff.mp hle
      have hbyte : imm.setWidth 32 = value.rotateLeft (2 * rotate) := by
        rw [← Option.some.inj h]
        apply BitVec.eq_of_toNat_eq
        rw [BitVec.toNat_setWidth, BitVec.toNat_setWidth]
        omega
      rw [hbyte, rotateRight_rotateLeft]
    · cases h
  · rintro rfl
    have himm : (imm.setWidth 32).toNat < 256 := by
      have := imm.isLt
      rw [BitVec.toNat_setWidth]
      omega
    rw [rotateLeft_rotateRight, if_pos (le_byte_iff.mpr himm),
      BitVec.setWidth_setWidth_of_le imm (by decide), BitVec.setWidth_eq]

/-- Some byte, turned by `rotate` double places, is the value. -/
def Rotation (value : Word) (rotate : Nat) : Prop :=
  ∃ imm : Byte, (imm.setWidth 32).rotateRight (2 * rotate) = value

theorem isSome_immediateByte?_iff {value : Word} {rotate : Nat} :
    (immediateByte? value rotate).isSome ↔ Rotation value rotate := by
  rw [Option.isSome_iff_exists]
  exact exists_congr fun imm => immediateByte?_eq_some_iff

instance (value : Word) : DecidablePred (Rotation value) := fun _ =>
  decidable_of_iff _ isSome_immediateByte?_iff

theorem rotation_immediateValue (imm : Byte) (rotate : BitVec 8) :
    Rotation (immediateValue imm rotate) rotate.toNat := ⟨imm, rfl⟩

theorem immediateByte?_of_rotation {value : Word} {rotate : Nat} (h : Rotation value rotate) :
    immediateByte? value rotate = some ((value.rotateLeft (2 * rotate)).setWidth 8) := by
  obtain ⟨imm, rfl⟩ := h
  rw [rotateLeft_rotateRight, BitVec.setWidth_setWidth_of_le imm (by decide), BitVec.setWidth_eq]
  exact immediateByte?_eq_some_iff.mpr rfl

/-- Sixteen double places are a full turn. -/
theorem Rotation.mod {value : Word} {rotate : Nat} (h : Rotation value rotate) :
    Rotation value (rotate % 16) := by
  obtain ⟨imm, rfl⟩ := h
  refine ⟨imm, ?_⟩
  rw [← BitVec.rotateRight_mod_eq_rotateRight (r := 2 * rotate),
    show 2 * rotate % 32 = 2 * (rotate % 16) by omega]

/-- The immediate of a value with the least rotation. -/
def leastImmediate (value : Word) (h : ∃ rotate, Rotation value rotate) : SecondOperand :=
  .immediate ((value.rotateLeft (2 * Nat.find h)).setWidth 8) (BitVec.ofNat 8 (Nat.find h))

section Least

variable {value : Word} (h : ∃ rotate, Rotation value rotate)

theorem find_lt : Nat.find h < 16 :=
  Nat.lt_of_le_of_lt (Nat.find_min' h (Nat.find_spec h).mod) (Nat.mod_lt _ (by decide))

theorem toNat_find : (BitVec.ofNat 8 (Nat.find h)).toNat = Nat.find h := by
  have := find_lt h
  rw [BitVec.toNat_ofNat]
  omega

theorem leastImmediate_fits : (leastImmediate value h).Fits := by
  have := find_lt h
  rw [leastImmediate, Fits, toNat_find]
  omega

/-- **The assembler takes the least rotation there is.** -/
theorem ofValue?_eq : ofValue? value = some (leastImmediate value h) := by
  have hspec := immediateByte?_of_rotation (Nat.find_spec h)
  -- the smaller rotations find no byte
  have hnone : ∀ r ∈ List.range (Nat.find h), immediateByte? value r = none := by
    intro r hr
    rw [← Option.not_isSome_iff_eq_none, isSome_immediateByte?_iff]
    exact Nat.find_min h (List.mem_range.mp hr)
  obtain ⟨later, hlater⟩ : ∃ later, 16 = Nat.find h + (later + 1) :=
    ⟨15 - Nat.find h, by have := find_lt h; omega⟩
  have hrange : List.range 16 = List.range (Nat.find h)
      ++ Nat.find h :: ((List.range later).map Nat.succ).map (Nat.find h + ·) := by
    rw [hlater, List.range_add, List.range_succ_eq_map, List.map_cons, Nat.add_zero]
  rw [ofValue?, List.findSome?_eq_some_iff]
  refine ⟨_, _, _, hrange, by rw [hspec]; rfl, ?_⟩
  intro r hr
  rw [hnone r hr, Option.map_none]

/-- The least rotation gives the value it was sought for. -/
theorem immediateValue_leastImmediate :
    immediateValue ((value.rotateLeft (2 * Nat.find h)).setWidth 8)
      (BitVec.ofNat 8 (Nat.find h)) = value := by
  rw [immediateValue, toNat_find]
  exact immediateByte?_eq_some_iff.mp (immediateByte?_of_rotation (Nat.find_spec h))

end Least

theorem leastImmediate_congr {value value' : Word} (heq : value = value')
    (h : ∃ rotate, Rotation value rotate) (h' : ∃ rotate, Rotation value' rotate) :
    leastImmediate value h = leastImmediate value' h' := by
  subst heq
  rfl

end SecondOperand

/-! ## Canonical instructions -/

/-- A constant shift by zero is a left shift. -/
def Shift.canonical : Shift → Shift
  | .amount kind n => if n = 0 then .amount .lsl 0 else .amount kind n
  | .register kind rs => .register kind rs

def RegisterOperand.canonical (operand : RegisterOperand) : RegisterOperand :=
  { operand with shift := operand.shift.canonical }

/-- An immediate has the least rotation that gives its value. -/
def SecondOperand.canonical : SecondOperand → SecondOperand
  | .immediate imm rotate =>
    leastImmediate (immediateValue imm rotate) ⟨_, rotation_immediateValue imm rotate⟩
  | .register operand => .register operand.canonical

def Displacement.canonical : Displacement → Displacement
  | .immediate bytes => .immediate bytes
  | .register operand => .register operand.canonical

/-- The flags are set, and a register that the form does not use is `r0`. -/
def DataProcessing.canonical (i : DataProcessing) : DataProcessing :=
  { i with
    setFlags := true
    rn := if i.opcode = .mov then .r0 else i.rn
    rd := if i.opcode.keepsResult then i.rd else .r0
    operand := i.operand.canonical }

/-- The flags are set, and without a summand its register is `r0`. -/
def Multiply.canonical (i : Multiply) : Multiply :=
  { i with
    setFlags := true
    rn := if i.accumulate then i.rn else .r0 }

/-- The displacement goes into the address, and zero bytes are counted upwards. -/
def Transfer.canonical (i : Transfer) : Transfer :=
  { i with
    preIndex := true
    up := i.up || decide (i.displacement = .immediate 0)
    displacement := i.displacement.canonical }

/-- The instruction that the text of an instruction stands for. A branch has no such text. -/
def Instruction.canonical : Instruction → Instruction
  | dataProcessing i => dataProcessing i.canonical
  | multiply i => multiply i.canonical
  | transfer i => transfer i.canonical
  | branch i => branch i
  | halt => halt

/-! ### What is canonical stays what it is -/

theorem Shift.canonical_amount {kind : ShiftType} {n : BitVec 8} (h : n ≠ 0) :
    (Shift.amount kind n).canonical = .amount kind n := if_neg h

theorem Shift.canonical_canonical (s : Shift) : s.canonical.canonical = s.canonical := by
  cases s with
  | amount kind n =>
    by_cases hn : n = 0
    · subst hn
      rfl
    · rw [canonical_amount hn, canonical_amount hn]
  | register kind rs => rfl

theorem RegisterOperand.canonical_canonical (operand : RegisterOperand) :
    operand.canonical.canonical = operand.canonical := by
  simp only [canonical, Shift.canonical_canonical]

theorem SecondOperand.canonical_canonical (operand : SecondOperand) :
    operand.canonical.canonical = operand.canonical := by
  cases operand with
  | immediate imm rotate => exact leastImmediate_congr (immediateValue_leastImmediate _) _ _
  | register operand => simp only [canonical, RegisterOperand.canonical_canonical]

theorem Displacement.canonical_canonical (d : Displacement) :
    d.canonical.canonical = d.canonical := by
  cases d with
  | immediate bytes => rfl
  | register operand => simp only [canonical, RegisterOperand.canonical_canonical]

theorem Displacement.canonical_eq_zero_iff {d : Displacement} :
    d.canonical = .immediate 0 ↔ d = .immediate 0 := by
  cases d with
  | immediate bytes => rfl
  | register operand => simp [canonical]

theorem Instruction.canonical_canonical (i : Instruction) :
    i.canonical.canonical = i.canonical := by
  cases i with
  | dataProcessing i =>
    obtain ⟨cond, opcode, setFlags, rn, rd, operand⟩ := i
    simp only [canonical, DataProcessing.canonical, SecondOperand.canonical_canonical,
      dataProcessing.injEq, DataProcessing.mk.injEq, true_and, and_true]
    constructor
    · split <;> rfl
    · split <;> rfl
  | multiply i =>
    obtain ⟨cond, accumulate, setFlags, rd, rn, rs, rm⟩ := i
    cases accumulate <;> rfl
  | transfer i =>
    simp only [canonical, Transfer.canonical, Displacement.canonical_canonical,
      Displacement.canonical_eq_zero_iff, Bool.or_assoc, Bool.or_self]
  | branch i => rfl
  | halt => rfl

/-! ### What is canonical has a word -/

theorem Shift.canonical_fits {s : Shift} (h : s.Fits) : s.canonical.Fits := by
  cases s with
  | amount kind n =>
    by_cases hn : n = 0
    · subst hn
      exact Nat.zero_le 31
    · rw [canonical_amount hn]
      exact h
  | register kind rs => trivial

theorem SecondOperand.canonical_fits {operand : SecondOperand} (h : operand.Fits) :
    operand.canonical.Fits := by
  cases operand with
  | immediate imm rotate => exact leastImmediate_fits _
  | register operand => exact Shift.canonical_fits h

theorem Displacement.canonical_fits {d : Displacement} (h : d.Fits) : d.canonical.Fits := by
  cases d with
  | immediate bytes => exact h
  | register operand => exact Shift.canonical_fits h

theorem Instruction.canonical_encodable {i : Instruction} (h : i.Encodable) :
    i.canonical.Encodable := by
  cases i with
  | dataProcessing i =>
    refine ⟨SecondOperand.canonical_fits h.1, ?_⟩
    simp [DataProcessing.canonical, DataProcessing.zeroWord]
  | multiply i => trivial
  | transfer i => exact Displacement.canonical_fits h
  | branch i => exact h
  | halt => trivial

theorem Instruction.condition_canonical (i : Instruction) :
    i.canonical.condition = i.condition := by
  cases i <;> rfl

/-- An instruction keeps its word iff it is canonical. -/
theorem Instruction.encode_canonical_eq_iff {i : Instruction} (h : i.Encodable) :
    i.canonical.encode = i.encode ↔ i.canonical = i := by
  constructor
  · intro heq
    exact eq_of_encode_eq (canonical_encodable h) h heq
  · intro heq
    rw [heq]

end Armlet
