import Armlet.Proofs.RoundTrip

/-!
# Which words are instructions

Decoding tries one class after the other, and three of them lie inside one another:
a multiply has the two bits of data processing, and so has the halt. Each class has a
layout of its own, `InstructionClass.Layout`, that can be checked without a look at
the others:

    data processing   cond 00 I opcode S rn rd operand     an operation in use
    multiply          cond 000000 A S rd rn rs 1001 rm
    transfer          cond 01 I P U 00 L rn rd displacement
    branch            cond 1010 offset
    halt              all bits zero

where a register operand whose amount is a register has bit 7 clear. This one bit
keeps a multiply out of data processing. A word is an instruction iff it has a layout;
`Word.Unused` is the list of what is left over. And no word but zero has two, so
the classes may be tried in any order.
-/

namespace Armlet

/-- The classes of instructions. -/
inductive InstructionClass where
  | dataProcessing | multiply | transfer | branch | halt
  deriving DecidableEq, Repr

/-- The class of an instruction. -/
def Instruction.classOf : Instruction → InstructionClass
  | dataProcessing _ => .dataProcessing
  | multiply _ => .multiply
  | transfer _ => .transfer
  | branch _ => .branch
  | halt => .halt

/-! ## Layouts -/

/-- A register operand in bits 11 to 0. If bit 4 says that the amount is a register, then bit 7
is clear. -/
def Word.ShiftLayout (w : Word) : Prop := w.getLsbD 4 = true → w.getLsbD 7 = false

/-- The codes of operations that are in use. -/
def Opcode.codes : List (BitVec 4) := [0x0, 0x1, 0x2, 0x3, 0x4, 0x8, 0x9, 0xA, 0xC, 0xD]

namespace InstructionClass

/-- The bits that a word of a class has. -/
def Layout (w : Word) : InstructionClass → Prop
  | dataProcessing => w.extractLsb' 26 2 = 0b00#2 ∧ w.extractLsb' 21 4 ∈ Opcode.codes
    ∧ (w.getLsbD 25 = false → w.ShiftLayout)
  | multiply => w.extractLsb' 22 6 = 0b000000#6 ∧ w.extractLsb' 4 4 = 0b1001#4
  | transfer => w.extractLsb' 26 2 = 0b01#2 ∧ w.getLsbD 22 = false ∧ w.getLsbD 21 = false
    ∧ (w.getLsbD 25 = true → w.ShiftLayout)
  | branch => w.extractLsb' 24 4 = 0b1010#4
  | halt => w = 0

instance (w : Word) : Decidable w.ShiftLayout := inferInstanceAs (Decidable (_ → _))

instance (w : Word) : DecidablePred (Layout w)
  | dataProcessing => inferInstanceAs (Decidable (_ ∧ _ ∧ _))
  | multiply => inferInstanceAs (Decidable (_ ∧ _))
  | transfer => inferInstanceAs (Decidable (_ ∧ _ ∧ _ ∧ _))
  | branch => inferInstanceAs (Decidable (_ = _))
  | halt => inferInstanceAs (Decidable (_ = _))

/-- The fields of a word, read as one of the class. -/
def fields? (w : Word) : InstructionClass → Option Instruction
  | dataProcessing => (DataProcessing.decode? w).map .dataProcessing
  | multiply => some (.multiply (Multiply.decode w))
  | transfer => (Transfer.decode? w).map .transfer
  | branch => some (.branch (Branch.decode w))
  | halt => some .halt

/-- The instruction of the class that a word stands for, if it has the layout of the class. -/
def read? (w : Word) (c : InstructionClass) : Option Instruction :=
  if c.Layout w then c.fields? w else none

end InstructionClass

/-- The words that are no instructions, by the two bits behind the condition. -/
def Word.Unused (w : Word) : Prop :=
  w.extractLsb' 26 2 = 0b11#2
    ∨ (w.extractLsb' 26 2 = 0b10#2 ∧ w.extractLsb' 24 2 ≠ 0b10#2)
    ∨ (w.extractLsb' 26 2 = 0b01#2
      ∧ (w.getLsbD 22 = true ∨ w.getLsbD 21 = true
        ∨ (w.getLsbD 25 = true ∧ w.getLsbD 7 = true ∧ w.getLsbD 4 = true)))
    ∨ (w.extractLsb' 26 2 = 0b00#2
      ∧ ¬ (w.extractLsb' 22 6 = 0b000000#6 ∧ w.extractLsb' 4 4 = 0b1001#4)
      ∧ ((w.extractLsb' 21 4).toNat ∈ [5, 6, 7, 11, 14, 15]
        ∨ (w.getLsbD 25 = false ∧ w.getLsbD 7 = true ∧ w.getLsbD 4 = true)))

/-! ## What the readers accept -/

theorem Opcode.isSome_ofBits?_iff :
    ∀ b : BitVec 4, (ofBits? b).isSome = true ↔ b ∈ codes := by decide

theorem Opcode.not_mem_codes_iff :
    ∀ b : BitVec 4, b ∉ codes ↔ b.toNat ∈ [5, 6, 7, 11, 14, 15] := by decide

section

variable (w : Word)

theorem RegisterOperand.isSome_ofBits?_iff :
    (ofBits? (w.extractLsb' 0 12)).isSome = true ↔ w.ShiftLayout := by
  have h4 : (w.extractLsb' 0 12).getLsbD 4 = w.getLsbD 4 := by simp
  have h7 : (w.extractLsb' 0 12).getLsbD 7 = w.getLsbD 7 := by simp
  simp only [ofBits?, h4, h7, Word.ShiftLayout]
  cases w.getLsbD 4 <;> cases w.getLsbD 7 <;> simp

theorem SecondOperand.isSome_ofBits?_iff :
    (ofBits? (w.getLsbD 25) (w.extractLsb' 0 12)).isSome = true
      ↔ (w.getLsbD 25 = false → w.ShiftLayout) := by
  rw [← RegisterOperand.isSome_ofBits?_iff, ofBits?]
  cases w.getLsbD 25 <;> simp

theorem Displacement.isSome_ofBits?_iff :
    (ofBits? (w.getLsbD 25) (w.extractLsb' 0 12)).isSome = true
      ↔ (w.getLsbD 25 = true → w.ShiftLayout) := by
  rw [← RegisterOperand.isSome_ofBits?_iff, ofBits?]
  cases w.getLsbD 25 <;> simp

end

namespace InstructionClass

variable {w : Word} {c : InstructionClass}

theorem isSome_read? (h : c.Layout w) : (c.read? w).isSome = true := by
  rw [read?, if_pos h]
  cases c with
  | dataProcessing =>
    obtain ⟨_, hcode, hshift⟩ := h
    obtain ⟨op, hop⟩ := Option.isSome_iff_exists.mp ((Opcode.isSome_ofBits?_iff _).mpr hcode)
    obtain ⟨operand, hoperand⟩ :=
      Option.isSome_iff_exists.mp ((SecondOperand.isSome_ofBits?_iff w).mpr hshift)
    rw [fields?, Option.isSome_map, DataProcessing.decode?, hop, hoperand]
    rfl
  | transfer =>
    obtain ⟨_, h22, h21, hshift⟩ := h
    have hbits : ¬ (w.getLsbD 22 = true ∨ w.getLsbD 21 = true) := by
      rw [h22, h21]
      decide
    rw [fields?, Option.isSome_map, Transfer.decode?, if_neg hbits, Option.isSome_map]
    exact (Displacement.isSome_ofBits?_iff w).mpr hshift
  | multiply => rfl
  | branch => rfl
  | halt => rfl

/-- The instruction that is read is one of the class. -/
theorem classOf_of_read? {i : Instruction} (h : c.read? w = some i) :
    c.Layout w ∧ i.classOf = c := by
  rw [read?] at h
  split at h
  · rename_i hlayout
    refine ⟨hlayout, ?_⟩
    cases c with
    | dataProcessing =>
      obtain ⟨d, _, rfl⟩ := Option.map_eq_some_iff.mp h
      rfl
    | transfer =>
      obtain ⟨t, _, rfl⟩ := Option.map_eq_some_iff.mp h
      rfl
    | multiply => cases h; rfl
    | branch => cases h; rfl
    | halt => cases h; rfl
  · cases h

/-! ## One layout for a word -/

/-- A word of data processing never has the pattern of a multiply. -/
theorem not_multiply_of_dataProcessing (h : dataProcessing.Layout w) : ¬ multiply.Layout w := by
  rintro ⟨hclass, hmarker⟩
  have h25 : w.getLsbD 25 = false := getLsbD_of_extractLsb' hclass 3 (by decide)
  have h4 : w.getLsbD 4 = true := getLsbD_of_extractLsb' hmarker 0 (by decide)
  have h7 : w.getLsbD 7 = true := getLsbD_of_extractLsb' hmarker 3 (by decide)
  exact absurd (h7.symm.trans (h.2.2 h25 h4)) (by decide)

/-- **A layout settles what a word decodes to**, unless the word is zero. -/
theorem decode?_eq_read? (h0 : w ≠ 0) (h : c.Layout w) :
    Instruction.decode? w = c.read? w := by
  rw [read?, if_pos h]
  cases c with
  | dataProcessing =>
    exact Instruction.decode?_of_dataProcessing h.1 h0 (not_multiply_of_dataProcessing h)
  | multiply => exact Instruction.decode?_of_multiply h.1 h.2
  | transfer => exact Instruction.decode?_of_transfer h.1
  | branch => exact Instruction.decode?_of_branch h
  | halt => exact absurd h h0

end InstructionClass

namespace Instruction

variable {w : Word}

theorem layout_of_dataProcessing {i : DataProcessing} (hclass : w.extractLsb' 26 2 = 0b00#2)
    (h : DataProcessing.decode? w = some i) : InstructionClass.dataProcessing.Layout w := by
  unfold DataProcessing.decode? at h
  split at h
  · rename_i op operand hop hoperand
    refine ⟨hclass, (Opcode.isSome_ofBits?_iff _).mp ?_,
      (SecondOperand.isSome_ofBits?_iff w).mp ?_⟩
    · rw [hop]
      rfl
    · rw [hoperand]
      rfl
  · cases h

theorem layout_of_transfer {i : Transfer} (hclass : w.extractLsb' 26 2 = 0b01#2)
    (h : Transfer.decode? w = some i) : InstructionClass.transfer.Layout w := by
  unfold Transfer.decode? at h
  split at h
  · cases h
  · rename_i hbits
    rw [not_or, Bool.not_eq_true, Bool.not_eq_true] at hbits
    obtain ⟨d, hd, _⟩ := Option.map_eq_some_iff.mp h
    refine ⟨hclass, hbits.1, hbits.2, (Displacement.isSome_ofBits?_iff w).mp ?_⟩
    rw [hd]
    rfl

/-- **An instruction is read from a word with the layout of its class.** -/
theorem layout_of_decode? {i : Instruction} (h : decode? w = some i) : i.classOf.Layout w := by
  unfold decode? at h
  split at h
  · rename_i hclass
    cases h
    exact hclass
  split at h
  · rename_i hclass
    obtain ⟨t, ht, rfl⟩ := Option.map_eq_some_iff.mp h
    exact layout_of_transfer hclass ht
  split at h
  · rename_i hclass
    cases h
    exact hclass
  split at h
  · rename_i hclass
    obtain ⟨d, hd, rfl⟩ := Option.map_eq_some_iff.mp h
    exact layout_of_dataProcessing hclass.1 hd
  split at h
  · rename_i h0
    cases h
    exact h0
  · cases h

theorem decode?_eq_none_iff_no_layout :
    decode? w = none ↔ ∀ c : InstructionClass, ¬ c.Layout w := by
  constructor
  · intro h c hlayout
    by_cases h0 : w = 0
    · rw [h0, decode?_zero] at h
      cases h
    · have hread := InstructionClass.isSome_read? hlayout
      rw [← InstructionClass.decode?_eq_read? h0 hlayout, h] at hread
      cases hread
  · intro h
    cases hdecode : decode? w with
    | none => rfl
    | some i => exact absurd (layout_of_decode? hdecode) (h _)

end Instruction

/-! ## What is left over -/

namespace Word

variable {w : Word}

/-- The two bits behind the condition. -/
theorem group_cases (w : Word) : w.extractLsb' 26 2 = 0b00#2 ∨ w.extractLsb' 26 2 = 0b01#2
    ∨ w.extractLsb' 26 2 = 0b10#2 ∨ w.extractLsb' 26 2 = 0b11#2 := by
  have hall : ∀ b : BitVec 2, b = 0b00#2 ∨ b = 0b01#2 ∨ b = 0b10#2 ∨ b = 0b11#2 := by decide
  exact hall _

theorem not_shiftLayout_iff : ¬ w.ShiftLayout ↔ w.getLsbD 7 = true ∧ w.getLsbD 4 = true := by
  unfold ShiftLayout
  cases w.getLsbD 4 <;> cases w.getLsbD 7 <;> decide

/-- The first three groups, each with the layouts that lie in it. -/
theorem unused_iff_of_00 (h : w.extractLsb' 26 2 = 0b00#2) :
    w.Unused ↔ ¬ InstructionClass.multiply.Layout w
      ∧ ¬ InstructionClass.dataProcessing.Layout w := by
  have hdataProcessing : ¬ InstructionClass.dataProcessing.Layout w
      ↔ (w.extractLsb' 21 4).toNat ∈ [5, 6, 7, 11, 14, 15]
        ∨ (w.getLsbD 25 = false ∧ w.getLsbD 7 = true ∧ w.getLsbD 4 = true) := by
    rw [InstructionClass.Layout, and_iff_right h, Classical.not_and_iff_not_or_not,
      Opcode.not_mem_codes_iff, Classical.not_imp, not_shiftLayout_iff]
  rw [hdataProcessing, Unused, h]
  simp [InstructionClass.Layout]

theorem unused_iff_of_01 (h : w.extractLsb' 26 2 = 0b01#2) :
    w.Unused ↔ ¬ InstructionClass.transfer.Layout w := by
  have htransfer : ¬ InstructionClass.transfer.Layout w
      ↔ w.getLsbD 22 = true ∨ w.getLsbD 21 = true
        ∨ (w.getLsbD 25 = true ∧ w.getLsbD 7 = true ∧ w.getLsbD 4 = true) := by
    rw [InstructionClass.Layout, and_iff_right h, Classical.not_and_iff_not_or_not,
      Classical.not_and_iff_not_or_not, Bool.not_eq_false, Bool.not_eq_false, Classical.not_imp,
      not_shiftLayout_iff]
  rw [htransfer, Unused, h]
  simp

theorem unused_iff_of_10 (h : w.extractLsb' 26 2 = 0b10#2) :
    w.Unused ↔ ¬ InstructionClass.branch.Layout w := by
  have hslice : w.extractLsb' 24 4 = w.extractLsb' 26 2 ++ w.extractLsb' 24 2 :=
    (BitVec.extractLsb'_append_extractLsb'_eq_extractLsb' (show 26 = 24 + 2 from rfl)).symm
  have happend : ∀ b : BitVec 2, 0b10#2 ++ b = 0b1010#4 ↔ b = 0b10#2 := by decide
  rw [InstructionClass.Layout, hslice, h, happend, Unused, h]
  simp

end Word

namespace InstructionClass

/-- The two bits behind the condition, in the words of a class. -/
def group : InstructionClass → BitVec 2
  | dataProcessing => 0b00
  | multiply => 0b00
  | transfer => 0b01
  | branch => 0b10
  | halt => 0b00

theorem Layout.group_eq {w : Word} {c : InstructionClass} (h : c.Layout w) :
    w.extractLsb' 26 2 = c.group := by
  cases c with
  | dataProcessing => exact h.1
  | multiply => exact Instruction.class_of_multiply h.1
  | transfer => exact h.1
  | branch => exact Instruction.class_of_branch h
  | halt =>
    cases h
    decide

/-- The zero word has two layouts. -/
theorem layout_zero_iff (c : InstructionClass) : c.Layout 0 ↔ c = .dataProcessing ∨ c = .halt := by
  cases c <;> decide

/-- **The words without a layout are the unused ones.** -/
theorem no_layout_iff_unused {w : Word} : (∀ c : InstructionClass, ¬ c.Layout w) ↔ w.Unused := by
  constructor
  · intro h
    rcases w.group_cases with hgroup | hgroup | hgroup | hgroup
    · exact (Word.unused_iff_of_00 hgroup).mpr ⟨h multiply, h dataProcessing⟩
    · exact (Word.unused_iff_of_01 hgroup).mpr (h transfer)
    · exact (Word.unused_iff_of_10 hgroup).mpr (h branch)
    · exact .inl hgroup
  · intro h c hlayout
    have hgroup := hlayout.group_eq
    cases c with
    | dataProcessing => exact ((Word.unused_iff_of_00 hgroup).mp h).2 hlayout
    | multiply => exact ((Word.unused_iff_of_00 hgroup).mp h).1 hlayout
    | transfer => exact (Word.unused_iff_of_01 hgroup).mp h hlayout
    | branch => exact (Word.unused_iff_of_10 hgroup).mp h hlayout
    | halt =>
      -- the zero word is one of data processing besides
      cases hlayout
      exact ((Word.unused_iff_of_00 hgroup).mp h).2 ((layout_zero_iff _).mpr (.inl rfl))

/-! ## Any order of the classes -/

/-- Every class, in some order. -/
def Complete (order : List InstructionClass) : Prop := ∀ c, c ∈ order

theorem findSome?_read? {w : Word} {order : List InstructionClass} (h0 : w ≠ 0)
    (horder : Complete order) : order.findSome? (read? w) = Instruction.decode? w := by
  cases hfind : order.findSome? (read? w) with
  | some i =>
    -- whichever class was found first, its layout settles the matter
    obtain ⟨c, _, hread⟩ := List.exists_of_findSome?_eq_some hfind
    rw [decode?_eq_read? h0 (classOf_of_read? hread).1, hread]
  | none =>
    rw [List.findSome?_eq_none_iff] at hfind
    refine (Instruction.decode?_eq_none_iff_no_layout.mpr fun c hlayout => ?_).symm
    have hread := isSome_read? hlayout
    rw [hfind c (horder c)] at hread
    cases hread

end InstructionClass

namespace Instruction

/--
**The words that are instructions.**

A word is refused iff its bits are in the list of the unused ones. Any other word
but zero has the layout of one class and no other, the class of its instruction; so
it may be tried against the classes in any order. The zero word alone is a halt. It
has the layout of data processing too, and here the order makes a difference.
-/
theorem decode?_by_layout :
    (∀ w : Word, decode? w = none ↔ w.Unused)
      ∧ (∀ (w : Word) (i : Instruction), w ≠ 0 → decode? w = some i →
        ∀ c : InstructionClass, c.Layout w ↔ c = i.classOf)
      ∧ (∀ (w : Word) (order : List InstructionClass), w ≠ 0 → InstructionClass.Complete order →
        order.findSome? (InstructionClass.read? w) = decode? w)
      ∧ (∀ w : Word, decode? w = some .halt ↔ w = 0)
      ∧ ∃ order order', InstructionClass.Complete order ∧ InstructionClass.Complete order'
        ∧ order.findSome? (InstructionClass.read? 0) = some .halt
        ∧ order'.findSome? (InstructionClass.read? 0) = some (.dataProcessing .zeroWord) := by
  refine ⟨?_, ?_, fun w order => InstructionClass.findSome?_read?, ?_, ?_⟩
  · intro w
    rw [decode?_eq_none_iff_no_layout, InstructionClass.no_layout_iff_unused]
  · intro w i h0 h c
    constructor
    · intro hlayout
      rw [InstructionClass.decode?_eq_read? h0 hlayout] at h
      exact (InstructionClass.classOf_of_read? h).2.symm
    · rintro rfl
      exact layout_of_decode? h
  · intro w
    constructor
    · intro h
      exact (encode_of_decode? h).symm
    · rintro rfl
      exact decode?_zero
  · refine ⟨[.halt, .branch, .transfer, .multiply, .dataProcessing],
      [.dataProcessing, .branch, .transfer, .multiply, .halt], ?_, ?_, rfl, rfl⟩
    · intro c
      cases c <;> decide
    · intro c
      cases c <;> decide

/-- `mul r1, r2, r3` may be tried as data processing first. -/
theorem decode?_by_layout_multiply :
    (∀ c : InstructionClass, c.Layout 0xE0010392 ↔ c = .multiply)
      ∧ [InstructionClass.dataProcessing, .halt, .branch, .transfer, .multiply].findSome?
          (InstructionClass.read? 0xE0010392)
        = some (.multiply ⟨.al, false, false, .r1, .r0, .r3, .r2⟩) :=
  ⟨decode?_by_layout.2.1 0xE0010392 (.multiply ⟨.al, false, false, .r1, .r0, .r3, .r2⟩) (by decide)
      (by decide),
    (decode?_by_layout.2.2.1 0xE0010392 _ (by decide) fun c => by cases c <;> decide).trans
      (by decide)⟩

end Instruction

end Armlet
