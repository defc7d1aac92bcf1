import Armlet.Instruction.Decode
import Armlet.Instruction.Encode
import Armlet.Proofs.Encodable

/-!
# Words and instructions

Decoding a word and encoding an instruction undo one another.

Encoding puts fields side by side, so reading a field back is a matter of where
it stands; and a word is its own fields put side by side, so a word that passes
the tests of a class is the encoding of what is read from it. What needs an
argument is that the *tests* of the classes do not get into each other's way: a
word that data processing has built never carries the marker of a multiply,
because bit 25 is set for an immediate, bit 4 is clear for a constant amount and
bit 7 is clear for a register amount. The halt is the one exception, and the
reason for `DataProcessing.zeroWord`.
-/

namespace Armlet

/-! ## Slices -/

theorem extractLsb'_one_of_getLsbD {n : Nat} {w : BitVec n} {k : Nat} {b : Bool}
    (h : w.getLsbD k = b) : w.extractLsb' k 1 = BitVec.ofBool b := by
  ext j hj
  have hj0 : j = 0 := by omega
  subst hj0
  simp [← h]

/-- The bits of a slice whose value is known. -/
theorem getLsbD_of_extractLsb' {n : Nat} {w : BitVec n} {start len : Nat} {v : BitVec len}
    (h : w.extractLsb' start len = v) (k : Nat) (hk : k < len) :
    w.getLsbD (start + k) = v.getLsbD k := by
  subst h
  simp [hk]

theorem extractLsb'_extractLsb' {n : Nat} (w : BitVec n) {start len k m : Nat}
    (h : k + m ≤ len) :
    (w.extractLsb' start len).extractLsb' k m = w.extractLsb' (start + k) m := by
  ext j hj
  simp [show k + j < len by omega, Nat.add_assoc]

/-! ## Operands -/

namespace RegisterOperand

theorem ofBits?_bits (operand : RegisterOperand) :
    ofBits? operand.bits = some operand.truncate := by
  obtain ⟨rm, shift⟩ := operand
  cases shift <;>
  · simp (disch := decide) only [bits, ofBits?, truncate, Shift.truncate,
      BitVec.extractLsb'_append_eq_of_le, BitVec.extractLsb'_append_eq_of_add_le,
      BitVec.getLsbD_append, Nat.reduceLT, Nat.reduceSub, reduceIte]
    simp

theorem bits_eq_of_ofBits? {b : BitVec 12} {operand : RegisterOperand}
    (h : ofBits? b = some operand) : operand.bits = b := by
  simp only [ofBits?] at h
  split at h
  · -- a register holds the amount, and bit 7 has to be clear
    rename_i h4
    split at h
    · cases h
    · rename_i h7
      have h4' : b.extractLsb' 4 1 = 1#1 := extractLsb'_one_of_getLsbD h4
      have h7' : b.extractLsb' 7 1 = 0#1 :=
        extractLsb'_one_of_getLsbD (Bool.not_eq_true _ ▸ h7)
      cases h
      simp only [bits, Register.bits_ofBits, ShiftType.bits_ofBits]
      rw [← h4', ← h7']
      simp (disch := decide) only [BitVec.extractLsb'_append_extractLsb'_eq_extractLsb']
      simp
  · -- the amount is a constant of five bits
    rename_i h4
    have h4' : b.extractLsb' 4 1 = 0#1 :=
      extractLsb'_one_of_getLsbD (Bool.not_eq_true _ ▸ h4)
    cases h
    simp only [bits, Register.bits_ofBits, ShiftType.bits_ofBits]
    rw [← h4']
    simp (disch := decide) only [BitVec.setWidth_setWidth_of_le, BitVec.setWidth_eq,
      BitVec.extractLsb'_append_extractLsb'_eq_extractLsb']
    simp

/-- A register operand never has both bits set that the marker of a multiply has. -/
theorem getLsbD_bits (operand : RegisterOperand) :
    operand.bits.getLsbD 4 = false ∨ operand.bits.getLsbD 7 = false := by
  obtain ⟨rm, shift⟩ := operand
  cases shift with
  | amount kind n => exact .inl (by simp only [bits, BitVec.getLsbD_append]; simp)
  | register kind rs => exact .inr (by simp only [bits, BitVec.getLsbD_append]; simp)

end RegisterOperand

namespace SecondOperand

theorem ofBits?_bits (operand : SecondOperand) :
    ofBits? operand.isImmediate operand.bits = some operand.truncate := by
  cases operand with
  | immediate imm rotate =>
    simp (disch := decide) only [ofBits?, bits, isImmediate, truncate,
      BitVec.extractLsb'_append_eq_of_le, BitVec.extractLsb'_append_eq_of_add_le]
    simp
  | register operand =>
    simp [ofBits?, bits, isImmediate, truncate, RegisterOperand.ofBits?_bits]

theorem bits_eq_of_ofBits? {isImm : Bool} {b : BitVec 12} {operand : SecondOperand}
    (h : ofBits? isImm b = some operand) : operand.isImmediate = isImm ∧ operand.bits = b := by
  unfold ofBits? at h
  split at h
  · rename_i himm
    cases h
    refine ⟨himm.symm, ?_⟩
    simp (disch := decide) only [bits, BitVec.setWidth_setWidth_of_le, BitVec.setWidth_eq,
      BitVec.extractLsb'_append_extractLsb'_eq_extractLsb']
    simp
  · rename_i himm
    obtain ⟨r, hr, rfl⟩ := Option.map_eq_some_iff.mp h
    exact ⟨(Bool.not_eq_true _ ▸ himm).symm, RegisterOperand.bits_eq_of_ofBits? hr⟩

end SecondOperand

namespace Displacement

theorem ofBits?_bits (d : Displacement) : ofBits? d.isRegister d.bits = some d.truncate := by
  cases d with
  | immediate bytes => simp [ofBits?, bits, isRegister, truncate]
  | register operand =>
    simp [ofBits?, bits, isRegister, truncate, RegisterOperand.ofBits?_bits]

theorem bits_eq_of_ofBits? {isReg : Bool} {b : BitVec 12} {d : Displacement}
    (h : ofBits? isReg b = some d) : d.isRegister = isReg ∧ d.bits = b := by
  unfold ofBits? at h
  split at h
  · rename_i hreg
    obtain ⟨r, hr, rfl⟩ := Option.map_eq_some_iff.mp h
    exact ⟨hreg.symm, RegisterOperand.bits_eq_of_ofBits? hr⟩
  · rename_i hreg
    cases h
    refine ⟨(Bool.not_eq_true _ ▸ hreg).symm, ?_⟩
    simp [bits]

end Displacement

/-! ## The classes -/

theorem DataProcessing.encode_class (i : DataProcessing) :
    i.encode.extractLsb' 26 2 = 0b00#2 := by
  simp (disch := decide) only [encode, BitVec.extractLsb'_append_eq_of_le,
    BitVec.extractLsb'_append_eq_of_add_le]
  simp

theorem DataProcessing.decode?_encode (i : DataProcessing) :
    decode? i.encode = some { i with operand := i.operand.truncate } := by
  simp (disch := decide) only [decode?, encode, BitVec.extractLsb'_append_eq_of_le,
    BitVec.extractLsb'_append_eq_of_add_le, BitVec.getLsbD_append, Nat.reduceLT, Nat.reduceSub,
    reduceIte]
  simp [SecondOperand.ofBits?_bits]

theorem DataProcessing.encode_of_decode? {w : Word} {i : DataProcessing}
    (hclass : w.extractLsb' 26 2 = 0b00#2) (h : decode? w = some i) : i.encode = w := by
  unfold decode? at h
  split at h
  · rename_i opcode operand hop hopd
    cases h
    obtain ⟨himm, hbits⟩ := SecondOperand.bits_eq_of_ofBits? hopd
    rw [encode, himm, hbits, Opcode.ofBits?_eq_some_iff.mp hop, ← hclass,
      ← extractLsb'_one_of_getLsbD rfl, ← extractLsb'_one_of_getLsbD rfl]
    simp (disch := decide) only [Condition.bits_ofBits, Register.bits_ofBits,
      BitVec.extractLsb'_append_extractLsb'_eq_extractLsb']
    simp
  · cases h

theorem Multiply.encode_class (i : Multiply) : i.encode.extractLsb' 22 6 = 0b000000#6 := by
  simp (disch := decide) only [encode, BitVec.extractLsb'_append_eq_of_le,
    BitVec.extractLsb'_append_eq_of_add_le]
  simp

theorem Multiply.encode_marker (i : Multiply) : i.encode.extractLsb' 4 4 = 0b1001#4 := by
  simp (disch := decide) only [encode, BitVec.extractLsb'_append_eq_of_le,
    BitVec.extractLsb'_append_eq_of_add_le]
  simp

theorem Multiply.decode_encode (i : Multiply) : decode i.encode = i := by
  simp (disch := decide) only [decode, encode, BitVec.extractLsb'_append_eq_of_le,
    BitVec.extractLsb'_append_eq_of_add_le, BitVec.getLsbD_append, Nat.reduceLT, Nat.reduceSub,
    reduceIte]
  simp

theorem Multiply.encode_decode {w : Word} (hclass : w.extractLsb' 22 6 = 0b000000#6)
    (hmarker : w.extractLsb' 4 4 = 0b1001#4) : (decode w).encode = w := by
  simp only [decode, encode, Condition.bits_ofBits, Register.bits_ofBits]
  rw [← hclass, ← hmarker, ← extractLsb'_one_of_getLsbD rfl, ← extractLsb'_one_of_getLsbD rfl]
  simp (disch := decide) only [BitVec.extractLsb'_append_extractLsb'_eq_extractLsb']
  simp

theorem Transfer.encode_class (i : Transfer) : i.encode.extractLsb' 26 2 = 0b01#2 := by
  simp (disch := decide) only [encode, BitVec.extractLsb'_append_eq_of_le,
    BitVec.extractLsb'_append_eq_of_add_le]
  simp

theorem Transfer.decode?_encode (i : Transfer) :
    decode? i.encode = some { i with displacement := i.displacement.truncate } := by
  have h22 : i.encode.getLsbD 22 = false := by
    simp only [encode, BitVec.getLsbD_append]
    simp
  have h21 : i.encode.getLsbD 21 = false := by
    simp only [encode, BitVec.getLsbD_append]
    simp
  rw [decode?, h22, h21, if_neg (by decide)]
  simp (disch := decide) only [encode, BitVec.extractLsb'_append_eq_of_le,
    BitVec.extractLsb'_append_eq_of_add_le, BitVec.getLsbD_append, Nat.reduceLT, Nat.reduceSub,
    reduceIte]
  simp [Displacement.ofBits?_bits]

theorem Transfer.encode_of_decode? {w : Word} {i : Transfer}
    (hclass : w.extractLsb' 26 2 = 0b01#2) (h : decode? w = some i) : i.encode = w := by
  unfold decode? at h
  split at h
  · cases h
  · rename_i hbw
    rw [not_or, Bool.not_eq_true, Bool.not_eq_true] at hbw
    -- the two bits that have been tested one by one are one field of the encoding
    have hbits : w.extractLsb' 21 2 = 0b00#2 := by
      calc w.extractLsb' 21 2
          = w.extractLsb' 22 1 ++ w.extractLsb' 21 1 :=
            (BitVec.extractLsb'_append_extractLsb'_eq_extractLsb' (show 22 = 21 + 1 from rfl)).symm
        _ = 0b00#2 := by
            rw [extractLsb'_one_of_getLsbD hbw.1, extractLsb'_one_of_getLsbD hbw.2]
            rfl
    obtain ⟨d, hd, rfl⟩ := Option.map_eq_some_iff.mp h
    obtain ⟨hreg, hdbits⟩ := Displacement.bits_eq_of_ofBits? hd
    simp only [encode, hreg, hdbits]
    rw [← hclass, ← hbits, ← extractLsb'_one_of_getLsbD rfl, ← extractLsb'_one_of_getLsbD rfl,
      ← extractLsb'_one_of_getLsbD rfl, ← extractLsb'_one_of_getLsbD rfl]
    simp (disch := decide) only [Condition.bits_ofBits, Register.bits_ofBits,
      BitVec.extractLsb'_append_extractLsb'_eq_extractLsb']
    simp

theorem Branch.encode_class (i : Branch) : i.encode.extractLsb' 24 4 = 0b1010#4 := by
  simp (disch := decide) only [encode, BitVec.extractLsb'_append_eq_of_le,
    BitVec.extractLsb'_append_eq_of_add_le]
  simp

theorem Branch.decode_encode (i : Branch) : decode i.encode = i.truncate := by
  simp (disch := decide) only [decode, encode, truncate, BitVec.extractLsb'_append_eq_of_le,
    BitVec.extractLsb'_append_eq_of_add_le]
  simp

theorem Branch.encode_decode {w : Word} (hclass : w.extractLsb' 24 4 = 0b1010#4) :
    (decode w).encode = w := by
  have hoffset : ((w.extractLsb' 0 24 ++ 0b00#2).signExtend 32).extractLsb' 2 24
      = w.extractLsb' 0 24 := by
    ext k hk
    simp only [BitVec.getElem_extractLsb', BitVec.getLsbD_signExtend, BitVec.getLsbD_append]
    simp only [show ¬ 2 + k < 2 by omega, show 2 + k < 32 by omega, show 2 + k < 24 + 2 by omega,
      decide_true, Bool.true_and, reduceIte, Nat.add_sub_cancel_left]
    rw [BitVec.getLsbD_extractLsb', decide_eq_true hk, Bool.true_and]
  simp only [decode, encode, hoffset, Condition.bits_ofBits]
  rw [← hclass]
  simp (disch := decide) only [BitVec.extractLsb'_append_extractLsb'_eq_extractLsb']
  simp

/-! ## Telling the classes apart -/

namespace Instruction

variable {w : Word}

/-! The uppermost two bits behind the condition tell three groups of classes apart. -/

theorem class_of_branch (h : w.extractLsb' 24 4 = 0b1010#4) : w.extractLsb' 26 2 = 0b10#2 := by
  have hslice : (w.extractLsb' 24 4).extractLsb' 2 2 = w.extractLsb' 26 2 :=
    extractLsb'_extractLsb' w (by decide)
  rw [← hslice, h]
  decide

theorem class_of_multiply (h : w.extractLsb' 22 6 = 0b000000#6) :
    w.extractLsb' 26 2 = 0b00#2 := by
  have hslice : (w.extractLsb' 22 6).extractLsb' 4 2 = w.extractLsb' 26 2 :=
    extractLsb'_extractLsb' w (by decide)
  rw [← hslice, h]
  decide

theorem not_branch {c : BitVec 2} (hclass : w.extractLsb' 26 2 = c) (hc : c ≠ 0b10#2) :
    w.extractLsb' 24 4 ≠ 0b1010#4 := by
  intro hb
  exact hc (hclass.symm.trans (class_of_branch hb))

theorem decode?_of_branch (hclass : w.extractLsb' 24 4 = 0b1010#4) :
    decode? w = some (.branch (Branch.decode w)) := by
  rw [decode?, if_pos hclass]

theorem decode?_of_transfer (hclass : w.extractLsb' 26 2 = 0b01#2) :
    decode? w = (Transfer.decode? w).map .transfer := by
  rw [decode?, if_neg (not_branch hclass (by decide)), if_pos hclass]

theorem decode?_of_multiply (hclass : w.extractLsb' 22 6 = 0b000000#6)
    (hmarker : w.extractLsb' 4 4 = 0b1001#4) :
    decode? w = some (.multiply (Multiply.decode w)) := by
  have h26 := class_of_multiply hclass
  rw [decode?, if_neg (not_branch h26 (by decide)), if_neg (by rw [h26]; decide),
    if_pos ⟨hclass, hmarker⟩]

theorem decode?_of_dataProcessing (hclass : w.extractLsb' 26 2 = 0b00#2) (h0 : w ≠ 0)
    (hmul : ¬ (w.extractLsb' 22 6 = 0b000000#6 ∧ w.extractLsb' 4 4 = 0b1001#4)) :
    decode? w = (DataProcessing.decode? w).map .dataProcessing := by
  rw [decode?, if_neg (not_branch hclass (by decide)), if_neg (by rw [hclass]; decide),
    if_neg hmul, if_pos ⟨hclass, h0⟩]

theorem decode?_zero : decode? 0 = some .halt := rfl

/-! ## Encoding undoes decoding -/

/-- **A decoded word is the encoding of what it was decoded to.** -/
theorem encode_of_decode? {i : Instruction} (h : decode? w = some i) : i.encode = w := by
  unfold decode? at h
  split at h
  · -- a branch
    rename_i hclass
    cases h
    exact Branch.encode_decode hclass
  split at h
  · -- a transfer
    rename_i hclass
    obtain ⟨t, ht, rfl⟩ := Option.map_eq_some_iff.mp h
    exact Transfer.encode_of_decode? hclass ht
  split at h
  · -- a multiplication
    rename_i hclass
    cases h
    exact Multiply.encode_decode hclass.1 hclass.2
  split at h
  · -- data processing
    rename_i hclass
    obtain ⟨d, hd, rfl⟩ := Option.map_eq_some_iff.mp h
    exact DataProcessing.encode_of_decode? hclass.1 hd
  split at h
  · -- the halt
    rename_i h0
    cases h
    exact h0.symm
  · cases h

/-! ## Decoding undoes encoding -/

/-- Data processing never builds the pattern of a multiply. -/
theorem not_multiply_pattern (i : DataProcessing) :
    ¬ (i.encode.extractLsb' 22 6 = 0b000000#6 ∧ i.encode.extractLsb' 4 4 = 0b1001#4) := by
  rintro ⟨hclass, hmarker⟩
  -- bit 25 is clear, so the operand is a register
  have himm : i.operand.isImmediate = false := by
    have h25 : i.encode.getLsbD 25 = i.operand.isImmediate := by
      simp only [DataProcessing.encode, BitVec.getLsbD_append, Nat.reduceLT, Nat.reduceSub,
        reduceIte]
      simp
    rw [← h25]
    exact getLsbD_of_extractLsb' hclass 3 (by decide)
  -- and the marker asks for bits 4 and 7 of the operand
  have hslice : i.operand.bits.extractLsb' 4 4 = 0b1001#4 := by
    rw [← hmarker]
    simp (disch := decide) only [DataProcessing.encode, BitVec.extractLsb'_append_eq_of_add_le]
  cases hop : i.operand with
  | immediate imm rotate =>
    rw [hop] at himm
    cases himm
  | register operand =>
    rw [hop] at hslice
    have h4 : operand.bits.getLsbD 4 = true := getLsbD_of_extractLsb' hslice 0 (by decide)
    have h7 : operand.bits.getLsbD 7 = true := getLsbD_of_extractLsb' hslice 3 (by decide)
    rcases operand.getLsbD_bits with h | h
    · exact absurd (h4.symm.trans h) (by decide)
    · exact absurd (h7.symm.trans h) (by decide)

/-- **An instruction whose word is not zero decodes to what is left of it in the word.** -/
theorem decode?_encode {i : Instruction} (h : i.encode ≠ 0) :
    decode? i.encode = some i.truncate := by
  cases i with
  | dataProcessing i =>
    rw [encode, decode?_of_dataProcessing i.encode_class h (not_multiply_pattern i),
      DataProcessing.decode?_encode]
    rfl
  | multiply i =>
    rw [encode, decode?_of_multiply i.encode_class i.encode_marker, Multiply.decode_encode]
    rfl
  | transfer i =>
    rw [encode, decode?_of_transfer i.encode_class, Transfer.decode?_encode]
    rfl
  | branch i =>
    rw [encode, decode?_of_branch i.encode_class, Branch.decode_encode]
    rfl
  | halt => exact absurd rfl h

/-- The word zero belongs to the halt and to whatever truncates to `andeq r0, r0, r0`. -/
theorem encode_eq_zero_iff {i : Instruction} :
    i.encode = 0 ↔ i = .halt ∨ i.truncate = .dataProcessing .zeroWord := by
  cases i with
  | dataProcessing i =>
    -- reading back and encoding again settles both directions
    have hread := DataProcessing.decode?_encode i
    have hwrite := DataProcessing.encode_of_decode? i.encode_class hread
    constructor
    · intro h
      rw [show i.encode = 0 from h,
        show DataProcessing.decode? 0 = some .zeroWord by decide] at hread
      exact .inr (congrArg dataProcessing (Option.some.inj hread).symm)
    · rintro (h | h)
      · cases h
      · rw [encode, ← hwrite, dataProcessing.inj h]
        decide
  | multiply i =>
    simp only [truncate, reduceCtorEq, or_self, iff_false]
    intro h
    have hmarker := i.encode_marker
    rw [show i.encode = 0 from h] at hmarker
    cases hmarker
  | transfer i =>
    simp only [truncate, reduceCtorEq, or_self, iff_false]
    intro h
    have hclass := i.encode_class
    rw [show i.encode = 0 from h] at hclass
    cases hclass
  | branch i =>
    simp only [truncate, reduceCtorEq, or_self, iff_false]
    intro h
    have hclass := i.encode_class
    rw [show i.encode = 0 from h] at hclass
    cases hclass
  | halt => simp [encode]

/-! ## Decoding and encoding together -/

theorem decode?_encode_of_encodable {i : Instruction} (h : i.Encodable) :
    decode? i.encode = some i := by
  obtain ⟨htrunc, hzero⟩ := encodable_iff.mp h
  by_cases h0 : i.encode = 0
  · rcases encode_eq_zero_iff.mp h0 with rfl | hz
    · rfl
    · exact absurd (htrunc.symm.trans hz) hzero
  · rw [decode?_encode h0, htrunc]

theorem encodable_of_decode? {i : Instruction} (h : decode? w = some i) : i.Encodable := by
  have hw := encode_of_decode? h
  rw [encodable_iff]
  by_cases h0 : i.encode = 0
  · rw [← hw, h0, decode?_zero] at h
    cases h
    exact ⟨rfl, by simp⟩
  · rw [← hw, decode?_encode h0] at h
    refine ⟨Option.some.inj h, ?_⟩
    rintro rfl
    exact h0 (by decide)

theorem eq_of_encode_eq {i j : Instruction} (hi : i.Encodable) (hj : j.Encodable)
    (h : i.encode = j.encode) : i = j := by
  have hdec := decode?_encode_of_encodable hi
  rw [h, decode?_encode_of_encodable hj] at hdec
  exact (Option.some.inj hdec).symm

/--
**Decoding is the inverse of encoding on exactly the encodable instructions.**

A word decodes to an instruction iff the instruction is encodable and the word
is its own. Read from left to right this says that encoding undoes decoding,
read from right to left that decoding undoes encoding, and both together that no
two encodable instructions share a word.
-/
theorem decode?_inverse :
    (∀ (w : Word) (i : Instruction), decode? w = some i ↔ i.Encodable ∧ i.encode = w)
      ∧ (∀ (w : Word) (i : Instruction), decode? w = some i → i.encode = w)
      ∧ (∀ i : Instruction, i.Encodable → decode? i.encode = some i)
      ∧ (∀ i j : Instruction, i.Encodable → j.Encodable → i.encode = j.encode → i = j) := by
  refine ⟨fun w i => ⟨fun h => ⟨encodable_of_decode? h, encode_of_decode? h⟩, ?_⟩,
    fun _ _ => encode_of_decode?, fun _ => decode?_encode_of_encodable,
    fun _ _ => eq_of_encode_eq⟩
  rintro ⟨henc, rfl⟩
  exact decode?_encode_of_encodable henc

end Instruction

end Armlet
