import Armlet.Proofs.RoundTrip

/-!
# Fields that are too wide

An instruction may hold values for which its word has no room, and encoding does
not refuse it. What becomes of such a value is a matter of its own field alone:

* a constant shift amount counts modulo 32,
* a rotation modulo 16,
* an immediate displacement modulo 4096,
* an offset is rounded down to a multiple of four, and wraps around as a signed
  number of 26 bits.

`Instruction.wrapped` says this in numbers, where `Instruction.truncate` cuts bits
off; the two agree. So nothing reaches the field next to it, let alone the bits that
tell the classes apart, and a word that is not zero decodes to the wrapped
instruction. The zero word is the one exception, and only an `andeq r0, r0, r0`
whose shift wraps to nothing falls on it besides the halt.
-/

namespace Armlet

/-! ## Wrapping, in numbers -/

/-- A constant amount counts modulo 32. -/
def Shift.wrapped : Shift → Shift
  | .amount kind n => .amount kind (BitVec.ofNat 8 (n.toNat % 32))
  | .register kind rs => .register kind rs

def RegisterOperand.wrapped (operand : RegisterOperand) : RegisterOperand :=
  { operand with shift := operand.shift.wrapped }

/-- A rotation counts modulo 16. -/
def SecondOperand.wrapped : SecondOperand → SecondOperand
  | .immediate imm rotate => .immediate imm (BitVec.ofNat 8 (rotate.toNat % 16))
  | .register operand => .register operand.wrapped

/-- An immediate displacement counts modulo 4096. -/
def Displacement.wrapped : Displacement → Displacement
  | .immediate bytes => .immediate (BitVec.ofNat 16 (bytes.toNat % 4096))
  | .register operand => .register operand.wrapped

/-- The multiple of four below the offset, as a signed number of 26 bits. -/
def Branch.wrapped (i : Branch) : Branch :=
  { i with offset := BitVec.ofInt 32 (Int.bmod (4 * (i.offset.toInt / 4)) 0x4000000) }

/-- An instruction with its fields wrapped to their widths. All others are as they were. -/
def Instruction.wrapped : Instruction → Instruction
  | dataProcessing i => dataProcessing { i with operand := i.operand.wrapped }
  | multiply i => multiply i
  | transfer i => transfer { i with displacement := i.displacement.wrapped }
  | branch i => branch i.wrapped
  | halt => halt

/-! ## Wrapping is truncation -/

theorem Shift.truncate_eq_wrapped (s : Shift) : s.truncate = s.wrapped := by
  cases s with
  | amount kind n =>
    have hamount : (n.setWidth 5).setWidth 8 = BitVec.ofNat 8 (n.toNat % 32) := by
      rw [← BitVec.ofNat_toNat, BitVec.toNat_setWidth]
    rw [truncate, wrapped, hamount]
  | register kind rs => rfl

theorem RegisterOperand.truncate_eq_wrapped (operand : RegisterOperand) :
    operand.truncate = operand.wrapped := by
  rw [truncate, wrapped, operand.shift.truncate_eq_wrapped]

theorem SecondOperand.truncate_eq_wrapped (operand : SecondOperand) :
    operand.truncate = operand.wrapped := by
  cases operand with
  | immediate imm rotate =>
    have hrotate : (rotate.setWidth 4).setWidth 8 = BitVec.ofNat 8 (rotate.toNat % 16) := by
      rw [← BitVec.ofNat_toNat, BitVec.toNat_setWidth]
    rw [truncate, wrapped, hrotate]
  | register operand => rw [truncate, wrapped, operand.truncate_eq_wrapped]

theorem Displacement.truncate_eq_wrapped (d : Displacement) : d.truncate = d.wrapped := by
  cases d with
  | immediate bytes =>
    have hbytes : (bytes.setWidth 12).setWidth 16 = BitVec.ofNat 16 (bytes.toNat % 4096) := by
      rw [← BitVec.ofNat_toNat, BitVec.toNat_setWidth]
    rw [truncate, wrapped, hbytes]
  | register operand => rw [truncate, wrapped, operand.truncate_eq_wrapped]

theorem Branch.truncate_eq_wrapped (i : Branch) : i.truncate = i.wrapped := by
  -- both offsets are the same number, and it lies in the range of a word
  have hoffset : i.truncate.offset = i.wrapped.offset := by
    rw [← BitVec.ofInt_toInt (x := i.truncate.offset), i.toInt_truncate]
    rfl
  exact congrArg (Branch.mk i.cond) hoffset

theorem Instruction.truncate_eq_wrapped (i : Instruction) : i.truncate = i.wrapped := by
  cases i with
  | dataProcessing i => rw [truncate, wrapped, i.operand.truncate_eq_wrapped]
  | multiply i => rfl
  | transfer i => rw [truncate, wrapped, i.displacement.truncate_eq_wrapped]
  | branch i => rw [truncate, wrapped, i.truncate_eq_wrapped]
  | halt => rfl

/-! ## The zero word -/

/-- `andeq r0, r0, r0, lsl #n` with the flags left alone. For `n = 0` this is `zeroWord`. -/
def DataProcessing.zeroShifted (n : BitVec 8) : DataProcessing :=
  ⟨.eq, .and, false, .r0, .r0, .register ⟨.r0, .amount .lsl n⟩⟩

theorem Shift.wrapped_eq_identity_iff {s : Shift} :
    s.wrapped = .identity ↔ ∃ n : BitVec 8, 32 ∣ n.toNat ∧ s = .amount .lsl n := by
  cases s with
  | amount kind n =>
    have hamount : BitVec.ofNat 8 (n.toNat % 32) = 0 ↔ 32 ∣ n.toNat := by
      rw [BitVec.toNat_eq, BitVec.toNat_ofNat, show (0 : Byte).toNat = 0 from rfl]
      omega
    simp only [wrapped, identity, amount.injEq, hamount]
    constructor
    · rintro ⟨rfl, hn⟩
      exact ⟨n, hn, rfl, rfl⟩
    · rintro ⟨n', hn, rfl, rfl⟩
      exact ⟨rfl, hn⟩
  | register kind rs => simp [wrapped, identity]

namespace Instruction

theorem wrapped_eq_zeroWord_iff {i : Instruction} :
    i.wrapped = .dataProcessing .zeroWord
      ↔ ∃ n : BitVec 8, 32 ∣ n.toNat ∧ i = .dataProcessing (.zeroShifted n) := by
  constructor
  · intro h
    cases i with
    | dataProcessing i =>
      obtain ⟨cond, opcode, setFlags, rn, rd, operand⟩ := i
      rw [wrapped, dataProcessing.injEq, DataProcessing.zeroWord, DataProcessing.mk.injEq] at h
      obtain ⟨rfl, rfl, rfl, rfl, rfl, hoperand⟩ := h
      cases operand with
      | immediate imm rotate => cases hoperand
      | register operand =>
        -- of the operand only the shift is wrapped
        obtain ⟨rm, shift⟩ := operand
        rw [SecondOperand.wrapped, SecondOperand.register.injEq, RegisterOperand.wrapped,
          RegisterOperand.mk.injEq] at hoperand
        obtain ⟨rfl, hshift⟩ := hoperand
        obtain ⟨n, hn, rfl⟩ := Shift.wrapped_eq_identity_iff.mp hshift
        exact ⟨n, hn, rfl⟩
    | multiply i => cases h
    | transfer i => cases h
    | branch i => cases h
    | halt => cases h
  · rintro ⟨n, hn, rfl⟩
    have hshift : (Shift.amount .lsl n).wrapped = .identity :=
      Shift.wrapped_eq_identity_iff.mpr ⟨n, hn, rfl⟩
    rw [wrapped, DataProcessing.zeroShifted, SecondOperand.wrapped, RegisterOperand.wrapped, hshift]
    rfl

/-- What is above the width of a field does not reach the word. -/
theorem encode_wrapped (i : Instruction) : i.wrapped.encode = i.encode := by
  rw [← i.truncate_eq_wrapped]
  by_cases h : i.encode = 0
  · rcases encode_eq_zero_iff.mp h with rfl | hzero
    · rfl
    · rw [h, hzero]
      decide
  · -- reading a word back and encoding again gives the word
    exact encode_of_decode? (decode?_encode h)

/--
**A field that is too wide wraps, and no other field is any the wiser.**

A word that encoding has made decodes to the instruction with its fields wrapped,
unless it is zero; and it is zero only for the halt and for what wraps to the
instruction in the halt's place. So the word depends on the wrapped fields alone,
and a word that is not zero settles all of them.
-/
theorem decode?_encode_eq_wrapped :
    (∀ i : Instruction, i.encode ≠ 0 → decode? i.encode = some i.wrapped)
      ∧ (∀ i : Instruction, i.encode = 0
        ↔ i = .halt ∨ ∃ n : BitVec 8, 32 ∣ n.toNat ∧ i = .dataProcessing (.zeroShifted n))
      ∧ (∀ i : Instruction, i.wrapped.encode = i.encode)
      ∧ (∀ i j : Instruction, i.encode ≠ 0 → (i.encode = j.encode ↔ i.wrapped = j.wrapped)) := by
  have hdecode : ∀ i : Instruction, i.encode ≠ 0 → decode? i.encode = some i.wrapped := by
    intro i h
    rw [decode?_encode h, i.truncate_eq_wrapped]
  refine ⟨hdecode, ?_, encode_wrapped, ?_⟩
  · intro i
    rw [encode_eq_zero_iff, i.truncate_eq_wrapped, wrapped_eq_zeroWord_iff]
  · intro i j h
    constructor
    · intro hword
      have hread := hdecode i h
      rw [hword, hdecode j (hword ▸ h)] at hread
      exact (Option.some.inj hread).symm
    · intro hwrapped
      rw [← i.encode_wrapped, hwrapped, j.encode_wrapped]

/-- An amount of 237, a displacement of 0xF123 bytes and an offset of -0x6000006. -/
theorem decode?_encode_eq_wrapped_overwide :
    decode? (encode (.dataProcessing
        ⟨.al, .orr, true, .r1, .pc, .register ⟨.lr, .amount .asr 237⟩⟩))
      = some (.dataProcessing ⟨.al, .orr, true, .r1, .pc, .register ⟨.lr, .amount .asr 13⟩⟩)
    ∧ decode? (encode (.transfer ⟨.ne, false, false, true, .r1, .pc, .immediate 0xF123⟩))
      = some (.transfer ⟨.ne, false, false, true, .r1, .pc, .immediate 0x123⟩)
    ∧ decode? (encode (.branch ⟨.lt, -0x6000006⟩)) = some (.branch ⟨.lt, 0x1FFFFF8⟩) :=
  ⟨decode?_encode_eq_wrapped.1 _ (by decide), decode?_encode_eq_wrapped.1 _ (by decide),
    decode?_encode_eq_wrapped.1 _ (by decide)⟩

end Instruction

end Armlet
