import Armlet.Proofs.Reassembly

/-!
# Which instructions share their text

A disassembly leaves out what the assembler has no syntax for. `Instruction.shown`
is what it leaves in: the canonical form of the instruction, but with its index
mode, unless its displacement is zero. The halt is shown as the instruction that
its word would otherwise be. Two instructions have the same text iff they are
shown alike.

The condition is the one part of the text that the assembler cannot read back.
It stands in the first word, behind a stem that is known by its length. Without
it the text is one that is read back, and so it settles the canonical form; the
bracket at its end settles the index mode.
-/

namespace Armlet

open Token (Spells Plain)

/-! ## Hexadecimal numerals -/

namespace Numeral

theorem digitValue?_digitChar {d : Nat} (h : d < 16) :
    digitValue? 16 (Nat.digitChar d) = some d := by
  have hall : ∀ d : Fin 16, digitValue? 16 (Nat.digitChar d) = some d.val := by decide
  exact hall ⟨d, h⟩

/-- Hexadecimal digits read as the number they were made from. -/
theorem natural?_toDigits (n : Nat) : natural? 16 (Nat.toDigits 16 n) = some n := by
  have hfold : (Nat.toDigits 16 n).foldlM
      (fun value c => (digitValue? 16 c).map (value * 16 + ·)) 0 = some n := by
    -- the last digit is split off, and the others make up the quotient
    induction n using Nat.strongRecOn with
    | ind n ih =>
      by_cases hn : n < 16
      · rw [Nat.toDigits_of_lt_base hn, List.foldlM_cons, digitValue?_digitChar hn]
        simp
      · rw [Nat.toDigits_of_base_le (by decide) (by omega), List.foldlM_append,
          ih (n / 16) (by omega)]
        simp [digitValue?_digitChar (Nat.mod_lt n (by decide : 0 < 16))]
        omega
  rw [natural?, if_neg (by simp [Nat.toDigits_ne_nil]), hfold]

theorem toList_hex (n : Nat) : (hex 1 n).toList = '0' :: 'x' :: Nat.toDigits 16 n := by
  have hpos : 1 ≤ (Nat.toDigits 16 n).length := Nat.length_toDigits_pos
  simp [hex, hexDigits, List.leftpad, Nat.sub_eq_zero_of_le hpos]

theorem hex_injective {m n : Nat} (h : hex 1 m = hex 1 n) : m = n := by
  have hdigits := congrArg String.toList h
  rw [toList_hex, toList_hex] at hdigits
  have hread := natural?_toDigits m
  rw [List.tail_eq_of_cons_eq (List.tail_eq_of_cons_eq hdigits), natural?_toDigits] at hread
  exact (Option.some.inj hread).symm

end Numeral

/-! ## The first word -/

namespace Condition

/-- The condition with a given suffix. -/
def ofSuffix? (s : String) : Option Condition := all.toList.find? fun c => c.suffix == s

theorem ofSuffix?_suffix (c : Condition) : ofSuffix? c.suffix = some c := by cases c <;> rfl

theorem suffix_injective {c d : Condition} (h : c.suffix = d.suffix) : c = d := by
  have hc := ofSuffix?_suffix c
  rw [h, ofSuffix?_suffix] at hc
  exact (Option.some.inj hc).symm

theorem blank_not_mem_suffix (c : Condition) : ' ' ∉ c.suffix.toList := by cases c <;> decide

end Condition

namespace Instruction

/-- The instruction under another condition. The halt is under none. -/
def withCondition (cond : Condition) : Instruction → Instruction
  | dataProcessing i => dataProcessing { i with cond := cond }
  | multiply i => multiply { i with cond := cond }
  | transfer i => transfer { i with cond := cond }
  | branch i => branch { i with cond := cond }
  | halt => halt

@[simp]
theorem withCondition_condition (i : Instruction) : i.withCondition i.condition = i := by
  cases i <;> rfl

@[simp]
theorem withCondition_withCondition (i : Instruction) (c d : Condition) :
    (i.withCondition c).withCondition d = i.withCondition d := by
  cases i <;> rfl

theorem canonical_withCondition (i : Instruction) (c : Condition) :
    (i.withCondition c).canonical = i.canonical.withCondition c := by
  cases i <;> rfl

/-- What the text begins with, in front of the condition. -/
def stem : Instruction → String
  | dataProcessing i => i.opcode.name
  | multiply i => if i.accumulate then "mla" else "mul"
  | transfer i => Transfer.name i.load
  | branch _ => "b"
  | halt => "and"

/-- Three characters, of which the first is not that of a branch. -/
def LongStem (s : String) : Prop :=
  s.toList.length = 3 ∧ s.toList.head? ≠ some 'b' ∧ ' ' ∉ s.toList

instance : DecidablePred LongStem := fun s =>
  inferInstanceAs (Decidable (s.toList.length = 3 ∧ _ ∧ _))

theorem longStem_name (op : Opcode) : LongStem op.name := by cases op <;> decide

theorem longStem_transfer (load : Bool) : LongStem (Transfer.name load) := by
  cases load <;> decide

theorem longStem_stem {i : Instruction} (h : ∀ b, i ≠ .branch b) : LongStem i.stem := by
  cases i with
  | dataProcessing i => exact longStem_name i.opcode
  | multiply i =>
    rw [stem]
    split <;> decide
  | transfer i => exact longStem_transfer i.load
  | branch b => exact absurd rfl (h b)
  | halt => decide

theorem branch_or_not (i : Instruction) : (∃ b, i = .branch b) ∨ ∀ b, i ≠ .branch b := by
  cases i <;> simp

theorem blank_not_mem_stem (i : Instruction) : ' ' ∉ i.stem.toList := by
  rcases i.branch_or_not with ⟨b, rfl⟩ | hi
  · have hblank : ' ' ∉ "b".toList := by decide
    exact hblank
  · exact (longStem_stem hi).2.2

/-- A branch and another instruction begin with different letters. -/
theorem stem_append_ne {b : Branch} {j : Instruction} (hj : ∀ b, j ≠ .branch b) (s t : String) :
    (branch b).stem ++ s ≠ j.stem ++ t := by
  intro heq
  obtain ⟨hlength, hhead, _⟩ := longStem_stem hj
  have hheads := congrArg (fun w : String => w.toList.head?) heq
  simp only [String.toList_append] at hheads
  cases hcs : j.stem.toList with
  | nil =>
    rw [hcs] at hlength
    cases hlength
  | cons c cs =>
    rw [hcs] at hhead hheads
    have hb : ((branch b).stem.toList ++ s.toList).head? = some 'b' := by
      simp [stem]
    rw [hb, List.cons_append, List.head?_cons] at hheads
    exact hhead hheads.symm

/-- **The first word settles the stem and the condition.** -/
theorem stem_append_suffix_inj {i j : Instruction} {c d : Condition}
    (h : i.stem ++ c.suffix = j.stem ++ d.suffix) :
    i.stem = j.stem ∧ c = d := by
  have hstem : i.stem = j.stem := by
    rcases i.branch_or_not with ⟨a, rfl⟩ | hi
    · rcases j.branch_or_not with ⟨b, rfl⟩ | hj
      · rfl
      · exact absurd h (stem_append_ne hj _ _)
    · rcases j.branch_or_not with ⟨b, rfl⟩ | hj
      · exact absurd h.symm (stem_append_ne hi _ _)
      · -- two stems of the same length
        have hlists := congrArg String.toList h
        rw [String.toList_append, String.toList_append] at hlists
        have hlength := (longStem_stem hi).1.trans (longStem_stem hj).1.symm
        exact String.toList_inj.mp (List.append_inj hlists hlength).1
  rw [hstem, String.append_right_inj] at h
  exact ⟨hstem, Condition.suffix_injective h⟩

end Instruction

/-- What follows the base register in the text of a transfer. -/
def Transfer.ending (i : Transfer) : String :=
  match i.displacement.text? i.up with
  | none => "]"
  | some text => if i.preIndex then ", " ++ text ++ "]" else "], " ++ text

theorem Transfer.text_eq (i : Transfer) : i.text = name i.load ++ i.cond.suffix ++ " "
    ++ (i.rd.name ++ ", [" ++ i.rn.name ++ i.ending) := by
  obtain ⟨cond, load, preIndex, up, rn, rd, displacement⟩ := i
  simp only [text, ending, name]
  cases displacement.text? up with
  | none => simp only [String.append_assoc]
  | some text => cases preIndex <;> simp [String.append_assoc]

namespace Instruction

/-- Behind the first word the text is the same whatever the condition is. -/
theorem exists_text_withCondition {i : Instruction} (h : i ≠ .halt) :
    ∃ args, ∀ c, (i.withCondition c).text = i.stem ++ c.suffix ++ " " ++ args := by
  cases i with
  | dataProcessing i =>
    obtain ⟨cond, opcode, setFlags, rn, rd, operand⟩ := i
    refine ⟨if opcode = .mov then rd.name ++ ", " ++ operand.text
      else if opcode.keepsResult then rd.name ++ ", " ++ rn.name ++ ", " ++ operand.text
      else rn.name ++ ", " ++ operand.text, fun c => ?_⟩
    cases opcode <;> rfl
  | multiply i =>
    obtain ⟨cond, accumulate, setFlags, rd, rn, rs, rm⟩ := i
    cases accumulate with
    | false => exact ⟨rd.name ++ ", " ++ rm.name ++ ", " ++ rs.name, fun c => rfl⟩
    | true =>
      refine ⟨rd.name ++ ", " ++ rm.name ++ ", " ++ rs.name ++ ", " ++ rn.name, fun c => ?_⟩
      simp [withCondition, text, Multiply.text, stem, String.append_assoc]
  | transfer i =>
    exact ⟨i.rd.name ++ ", [" ++ i.rn.name ++ i.ending,
      fun c => Transfer.text_eq { i with cond := c }⟩
  | branch i =>
    obtain ⟨cond, offset⟩ := i
    have hplus : " pc+" = " " ++ "pc+" := rfl
    have hminus : " pc-" = " " ++ "pc-" := rfl
    cases hmsb : offset.msb with
    | true =>
      refine ⟨"pc+" ++ Numeral.hex 1 (-offset).toNat, fun c => ?_⟩
      simp only [withCondition, text, Branch.text, stem, hmsb, if_true, hplus, String.append_assoc]
    | false =>
      refine ⟨"pc-" ++ Numeral.hex 1 offset.toNat, fun c => ?_⟩
      simp only [withCondition, text, Branch.text, stem, hmsb, Bool.false_eq_true, if_false, hminus,
        String.append_assoc]
  | halt => exact absurd rfl h

/-- Two texts are cut at their first blanks. -/
theorem append_blank_inj {a b s t : String} (ha : ' ' ∉ a.toList) (hb : ' ' ∉ b.toList)
    (h : a ++ " " ++ s = b ++ " " ++ t) : a = b ∧ s = t := by
  have hcut : ∀ w r : String, ' ' ∉ w.toList →
      (w ++ " " ++ r).toList.takeWhile (· != ' ') = w.toList := by
    intro w r hw
    rw [String.toList_append, String.toList_append, List.append_assoc,
      List.takeWhile_append_of_pos fun c hc => by
        rw [bne_iff_ne]
        rintro rfl
        exact hw hc]
    exact List.append_nil _
  have hword : a = b := by
    have hwords := hcut b t hb
    rw [← h, hcut a s ha] at hwords
    exact String.toList_inj.mp hwords
  rw [hword, String.append_right_inj] at h
  exact ⟨hword, h⟩

/-- **Without their conditions, equal texts are still equal.** -/
theorem text_withCondition_congr {i j : Instruction} (hi : i ≠ .halt) (hj : j ≠ .halt)
    (h : i.text = j.text) : i.condition = j.condition ∧ i.stem = j.stem
      ∧ ∀ c, (i.withCondition c).text = (j.withCondition c).text := by
  obtain ⟨s, hs⟩ := exists_text_withCondition hi
  obtain ⟨t, ht⟩ := exists_text_withCondition hj
  have hblank : ∀ (k : Instruction) (c : Condition), ' ' ∉ (k.stem ++ c.suffix).toList := by
    intro k c
    rw [String.toList_append, List.mem_append, not_or]
    exact ⟨blank_not_mem_stem k, c.blank_not_mem_suffix⟩
  -- each text is its first word, a blank and the rest
  have hi' := hs i.condition
  have hj' := ht j.condition
  rw [withCondition_condition] at hi' hj'
  rw [hi', hj'] at h
  obtain ⟨hword, hargs⟩ := append_blank_inj (hblank _ _) (hblank _ _) h
  obtain ⟨hstem, hcond⟩ := stem_append_suffix_inj hword
  refine ⟨hcond, hstem, fun c => ?_⟩
  rw [hs, ht, hstem, hargs]

/-! ## What the text settles -/

/-- What a text is read back as does not depend on anything but the text. -/
theorem ReadsBack.canonical_eq {i j : Instruction} (hi : i.ReadsBack) (hj : j.ReadsBack)
    (h : i.text = j.text) : i.canonical = j.canonical := by
  obtain ⟨first, rest, hspells, hread⟩ := hi
  obtain ⟨first', rest', hspells', hread'⟩ := hj
  have htokens : first :: rest = first' :: rest' := by
    rw [← hspells.wordTokens_eq, ← hspells'.wordTokens_eq, h]
  have hparse := hread .empty
  rw [htokens, hread' .empty] at hparse
  exact (Statement.instruction.inj (Except.ok.inj hparse)).symm

/-- An unconditional instruction has a word if it has one under a condition. -/
theorem encodable_withCondition_al {i : Instruction} (h : i.Encodable) :
    (i.withCondition .al).Encodable := by
  cases i with
  | dataProcessing i => exact ⟨h.1, by simp [DataProcessing.zeroWord]⟩
  | multiply i => trivial
  | transfer i => exact h
  | branch i => exact h
  | halt => trivial

theorem withCondition_ne_branch {i : Instruction} (h : ∀ b, i ≠ .branch b) (c : Condition)
    (b : Branch) : i.withCondition c ≠ .branch b := by
  cases i with
  | branch i => exact absurd rfl (h i)
  | dataProcessing i => simp [withCondition]
  | multiply i => simp [withCondition]
  | transfer i => simp [withCondition]
  | halt => simp [withCondition]

theorem condition_withCondition {i : Instruction} (h : i ≠ .halt) (c : Condition) :
    (i.withCondition c).condition = c := by
  cases i with
  | halt => exact absurd rfl h
  | dataProcessing i => rfl
  | multiply i => rfl
  | transfer i => rfl
  | branch i => rfl

/-- **The text settles the canonical form**, branches and the halt apart. -/
theorem canonical_eq_of_text_eq {i j : Instruction} (hi : i.Encodable) (hj : j.Encodable)
    (hihalt : i ≠ .halt) (hjhalt : j ≠ .halt) (hibranch : ∀ b, i ≠ .branch b)
    (hjbranch : ∀ b, j ≠ .branch b) (h : i.text = j.text) : i.canonical = j.canonical := by
  obtain ⟨hcond, _, htext⟩ := text_withCondition_congr hihalt hjhalt h
  -- an instruction is read back once it is unconditional
  have hback : ∀ k : Instruction, k.Encodable → k ≠ .halt → (∀ b, k ≠ .branch b) →
      (k.withCondition .al).ReadsBack := fun k hk hhalt hbranch =>
    readsBack (encodable_withCondition_al hk) (condition_withCondition hhalt .al)
      (withCondition_ne_branch hbranch .al)
  have hal := (hback i hi hihalt hibranch).canonical_eq (hback j hj hjhalt hjbranch) (htext .al)
  rw [canonical_withCondition, canonical_withCondition] at hal
  -- the condition is put back
  have hfull := congrArg (withCondition i.condition) hal
  rw [withCondition_withCondition, withCondition_withCondition, ← condition_canonical,
    withCondition_condition, condition_canonical, hcond, ← condition_canonical,
    withCondition_condition] at hfull
  exact hfull

end Instruction

/-! ### Branches -/

/-- The distance is shown with its sign, so nothing of a branch is left out. -/
theorem Branch.eq_of_text_eq {a b : Branch} (h : a.text = b.text) : a = b := by
  obtain ⟨cond, offset⟩ := a
  obtain ⟨cond', offset'⟩ := b
  obtain ⟨hcond, _, htext⟩ := @Instruction.text_withCondition_congr (.branch ⟨cond, offset⟩)
    (.branch ⟨cond', offset'⟩) nofun nofun h
  obtain rfl : cond = cond' := hcond
  have hlists := congrArg String.toList (htext .al)
  simp only [Instruction.withCondition, Instruction.text, text] at hlists
  have hoffset : offset = offset' := by
    cases hmsb : offset.msb with
    | false =>
      cases hmsb' : offset'.msb with
      | false =>
        simp [hmsb, hmsb', Condition.suffix] at hlists
        exact BitVec.eq_of_toNat_eq (Numeral.hex_injective (String.toList_inj.mp hlists))
      | true => simp [hmsb, hmsb', Condition.suffix] at hlists
    | true =>
      cases hmsb' : offset'.msb with
      | false => simp [hmsb, hmsb', Condition.suffix] at hlists
      | true =>
        simp [hmsb, hmsb', Condition.suffix, - BitVec.toNat_neg] at hlists
        have hneg := Numeral.hex_injective (String.toList_inj.mp hlists)
        exact BitVec.neg_inj.mp (BitVec.eq_of_toNat_eq hneg)
  rw [hoffset]

/-! ### The index mode -/

/-- No bracket closes within a displacement. -/
theorem RegisterOperand.bracket_not_mem_text (operand : RegisterOperand) :
    ']' ∉ operand.text.toList := by
  obtain ⟨rm, shift⟩ := operand
  have hname : ∀ r : Register, ']' ∉ r.name.toList := fun r => r.plain_name.not_mem rfl
  cases shift with
  | amount kind n =>
    have hkind : ']' ∉ kind.name.toList := kind.plain_name.not_mem rfl
    have hdecimal : ']' ∉ (Numeral.decimal n.toNat).toList :=
      (Token.plain_decimal n.toNat).not_mem rfl
    by_cases hn : n = 0
    · rw [text]
      simp [hn, hname]
    · rw [text_amount hn]
      simp [hname, hkind, hdecimal]
  | register kind rs =>
    have hkind : ']' ∉ kind.name.toList := kind.plain_name.not_mem rfl
    simp [text, hname, hkind]

theorem Displacement.bracket_not_mem_text {up : Bool} {d : Displacement} {text : String}
    (h : d.text? up = some text) : ']' ∉ text.toList := by
  have hsign : ']' ∉ (if up then "" else "-" : String).toList := by cases up <;> decide
  cases d with
  | immediate bytes =>
    rw [text?] at h
    split at h
    · cases h
    · obtain rfl := Option.some.inj h
      have hdecimal : ']' ∉ (Numeral.decimal bytes.toNat).toList :=
        (Token.plain_decimal bytes.toNat).not_mem rfl
      simp only [String.toList_append, List.mem_append, not_or]
      exact ⟨⟨by decide, hsign⟩, hdecimal⟩
  | register operand =>
    obtain rfl := Option.some.inj h
    simp only [String.toList_append, List.mem_append, not_or]
    exact ⟨hsign, operand.bracket_not_mem_text⟩

/-- The bracket stands at the end iff the displacement goes into the address. -/
theorem Transfer.getLast?_ending {i : Transfer} (h : i.displacement ≠ .immediate 0) :
    i.ending.toList.getLast? = some ']' ↔ i.preIndex = true := by
  rw [ending]
  split
  · rename_i hnone
    exact absurd (Displacement.text?_eq_none_iff.mp hnone) h
  · rename_i text hsome
    cases i.preIndex with
    | true => simp [List.getLast?_cons]
    | false =>
      have hbracket := Displacement.bracket_not_mem_text hsome
      -- the last character is one of the displacement, or a blank
      simp only [Bool.false_eq_true, if_false, iff_false, String.toList_append,
        List.getLast?_append, Option.or_eq_some_iff, not_or, not_and]
      exact ⟨fun hlast => hbracket (List.mem_of_getLast? hlast), fun _ => by decide⟩

/-! ## What is shown -/

/-- The index mode is shown, unless the displacement is zero. -/
def Transfer.shown (i : Transfer) : Transfer :=
  { i.canonical with preIndex := i.preIndex || decide (i.displacement = .immediate 0) }

/-- What the text of an instruction shows of it. -/
def Instruction.shown : Instruction → Instruction
  | transfer i => transfer i.shown
  | halt => dataProcessing DataProcessing.zeroWord.canonical
  | i => i.canonical

theorem Shift.text_canonical (rm : Register) (s : Shift) :
    RegisterOperand.text ⟨rm, s.canonical⟩ = RegisterOperand.text ⟨rm, s⟩ := by
  cases s with
  | amount kind n =>
    by_cases hn : n = 0
    · subst hn
      rfl
    · rw [canonical_amount hn]
  | register kind rs => rfl

theorem SecondOperand.text_canonical (operand : SecondOperand) :
    operand.canonical.text = operand.text := by
  cases operand with
  | immediate imm rotate =>
    rw [canonical, leastImmediate, text, text, immediateValue_leastImmediate]
  | register operand => exact Shift.text_canonical operand.rm operand.shift

theorem Displacement.text?_canonical (up : Bool) (d : Displacement) :
    d.canonical.text? up = d.text? up := by
  cases d with
  | immediate bytes => rfl
  | register operand =>
    rw [canonical, text?, text?, RegisterOperand.canonical, Shift.text_canonical]

theorem Transfer.ending_shown (i : Transfer) : i.shown.ending = i.ending := by
  by_cases hzero : i.displacement = .immediate 0
  · have hnone : ∀ up, Displacement.text? up (.immediate 0) = none := fun _ => rfl
    have hcanonical : i.shown.displacement = .immediate 0 :=
      Displacement.canonical_eq_zero_iff.mpr hzero
    rw [ending, ending, hcanonical, hzero, hnone, hnone]
  · have hup : i.shown.up = i.up := by
      change (i.up || decide (i.displacement = .immediate 0)) = i.up
      rw [decide_eq_false hzero, Bool.or_false]
    have hpre : i.shown.preIndex = i.preIndex := by
      change (i.preIndex || decide (i.displacement = .immediate 0)) = i.preIndex
      rw [decide_eq_false hzero, Bool.or_false]
    have htext : i.shown.displacement.text? i.up = i.displacement.text? i.up :=
      Displacement.text?_canonical i.up i.displacement
    rw [ending, ending, hup, hpre, htext]

/-- Nothing that is not shown is in the text. -/
theorem Instruction.text_shown (i : Instruction) : i.shown.text = i.text := by
  cases i with
  | dataProcessing i =>
    obtain ⟨cond, opcode, setFlags, rn, rd, operand⟩ := i
    cases opcode <;>
      simp [shown, canonical, DataProcessing.canonical, text, DataProcessing.text,
        SecondOperand.text_canonical, Opcode.keepsResult]
  | multiply i =>
    obtain ⟨cond, accumulate, setFlags, rd, rn, rs, rm⟩ := i
    cases accumulate <;> rfl
  | transfer i =>
    have htext := i.shown.text_eq
    rw [Transfer.ending_shown] at htext
    exact htext.trans i.text_eq.symm
  | branch i => rfl
  | halt => rfl

/-- Transfers that are canonically the same and have the same text are shown alike. -/
theorem Transfer.shown_eq_of_text_eq {i j : Transfer} (h : i.canonical = j.canonical)
    (htext : i.text = j.text) : i.shown = j.shown := by
  have hpre : (i.preIndex || decide (i.displacement = .immediate 0))
      = (j.preIndex || decide (j.displacement = .immediate 0)) := by
    have hzero : i.displacement = .immediate 0 ↔ j.displacement = .immediate 0 := by
      have hcanonical : i.displacement.canonical = j.displacement.canonical :=
        congrArg displacement h
      rw [← Displacement.canonical_eq_zero_iff, hcanonical, Displacement.canonical_eq_zero_iff]
    by_cases hi : i.displacement = .immediate 0
    · simp [hi, hzero.mp hi]
    · have hj : j.displacement ≠ .immediate 0 := fun hj => hi (hzero.mpr hj)
      -- all in front of the endings is the same
      have hfields := h
      rw [canonical, canonical, mk.injEq] at hfields
      obtain ⟨hcond, hload, _, _, hrn, hrd, _⟩ := hfields
      rw [text_eq, text_eq, hload, hcond, hrd, hrn, String.append_right_inj,
        String.append_right_inj] at htext
      have hiff := getLast?_ending hi
      rw [htext, getLast?_ending hj] at hiff
      rw [decide_eq_false hi, decide_eq_false hj, Bool.or_false, Bool.or_false,
        Bool.eq_iff_iff]
      exact hiff.symm
  rw [shown, shown, hpre, h]

namespace Instruction

/-- The halt, as the instruction that it is shown as. -/
def unmasked : Instruction → Instruction
  | halt => dataProcessing { DataProcessing.zeroWord with setFlags := true }
  | i => i

theorem text_unmasked (i : Instruction) : i.unmasked.text = i.text := by cases i <;> rfl

theorem shown_unmasked (i : Instruction) : i.unmasked.shown = i.shown := by cases i <;> rfl

theorem unmasked_ne_halt (i : Instruction) : i.unmasked ≠ .halt := by
  cases i <;> simp [unmasked]

theorem encodable_unmasked {i : Instruction} (h : i.Encodable) : i.unmasked.Encodable := by
  cases i with
  | halt => decide
  | dataProcessing i => exact h
  | multiply i => exact h
  | transfer i => exact h
  | branch i => exact h

theorem shown_eq_of_text_eq {i j : Instruction} (hi : i.Encodable) (hj : j.Encodable)
    (hihalt : i ≠ .halt) (hjhalt : j ≠ .halt) (h : i.text = j.text) : i.shown = j.shown := by
  obtain ⟨_, hstem, _⟩ := text_withCondition_congr hihalt hjhalt h
  rcases i.branch_or_not with ⟨a, rfl⟩ | hi'
  · rcases j.branch_or_not with ⟨b, rfl⟩ | hj'
    · rw [Branch.eq_of_text_eq h]
    · have hne := stem_append_ne (b := a) hj' "" ""
      exact absurd (congrArg (· ++ "") hstem) hne
  · rcases j.branch_or_not with ⟨b, rfl⟩ | hj'
    · have hne := stem_append_ne (b := b) hi' "" ""
      exact absurd (congrArg (· ++ "") hstem.symm) hne
    · have hcanonical := canonical_eq_of_text_eq hi hj hihalt hjhalt hi' hj' h
      cases i with
      | halt => exact absurd rfl hihalt
      | branch a => exact absurd rfl (hi' a)
      | dataProcessing i =>
        cases j with
        | dataProcessing j => exact hcanonical
        | _ => cases hcanonical
      | multiply i =>
        cases j with
        | multiply j => exact hcanonical
        | _ => cases hcanonical
      | transfer i =>
        cases j with
        | transfer j =>
          rw [shown, shown, Transfer.shown_eq_of_text_eq (transfer.inj hcanonical) h]
        | _ => cases hcanonical

/-- **Two instructions that have words have the same text iff they are shown alike.** -/
theorem text_eq_iff {i j : Instruction} (hi : i.Encodable) (hj : j.Encodable) :
    i.text = j.text ↔ i.shown = j.shown := by
  constructor
  · intro h
    rw [← text_unmasked i, ← text_unmasked j] at h
    rw [← shown_unmasked i, ← shown_unmasked j]
    exact shown_eq_of_text_eq (encodable_unmasked hi) (encodable_unmasked hj)
      (unmasked_ne_halt i) (unmasked_ne_halt j) h
  · intro h
    rw [← text_shown i, h, text_shown]

end Instruction

end Armlet
