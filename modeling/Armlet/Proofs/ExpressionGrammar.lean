import Mathlib.Data.List.Forall2
import Mathlib.Data.Nat.Digits.Defs
import Armlet.Proofs.Layout
import Armlet.Proofs.SharedText

/-!
# The grammar of expressions

The value that a line loads is written in one of three ways, and the beginning of the
text decides which: `0x` or `0X` for a hexadecimal number, a digit or a sign for a decimal
one, and anything else for a label. No way is tried after another has failed, so a text
that looks like a number is never taken for a label, and the other way round.

`Expression.Reads` is the grammar. It says of every text what the answer is, errors
included, and it says so with the numbers that digits make and not with a reader of them.
Every word has several spellings, and all of them are read as the word.
-/

namespace Armlet

/-! ## Numerals -/

namespace Numeral

/-- The character is the digit of value `d`, in either case. -/
def IsDigit (base : Nat) (c : Char) (d : Nat) : Prop :=
  d < base ∧ (c = Nat.digitChar d ∨ c = (Nat.digitChar d).toUpper)

/-- One or more digits that make the number `n`. -/
def Digits (base : Nat) (cs : List Char) (n : Nat) : Prop :=
  cs ≠ [] ∧ ∃ ds, List.Forall₂ (IsDigit base) cs ds ∧ Nat.ofDigits base ds.reverse = n

/-- Digits with a plus sign before them, or without. -/
def Unsigned (base : Nat) (cs : List Char) (n : Nat) : Prop :=
  ∃ digits, (cs = digits ∨ cs = '+' :: digits) ∧ Digits base digits n

/-- Decimal digits with a sign before them, or without. -/
def Signed (cs : List Char) (v : Int) : Prop :=
  (∃ n : Nat, Unsigned 10 cs n ∧ v = n)
    ∨ ∃ digits n, cs = '-' :: digits ∧ Digits 10 digits n ∧ v = -(n : Int)

end Numeral

/-! ## Expressions -/

namespace Expression

open Numeral

/-- A text with the mark of a hexadecimal number, and what follows it. -/
def Hexadecimal (text : String) (rest : List Char) : Prop :=
  text.toList = '0' :: 'x' :: rest ∨ text.toList = '0' :: 'X' :: rest

/-- A text that begins like a decimal number. -/
def Decimal (text : String) : Prop :=
  (∀ rest, ¬ Hexadecimal text rest)
    ∧ ∃ c rest, text.toList = c :: rest ∧ c ∈ "0123456789+-".toList

/-- Any other text. -/
def Symbolic (text : String) : Prop :=
  (∀ rest, ¬ Hexadecimal text rest) ∧ ¬ Decimal text

/-- What an expression is answered with. -/
inductive Reads (labels : SymbolTable) (text : String) : Except SourceError Word → Prop
  | hexadecimal {rest : List Char} {w : Word} :
    Hexadecimal text rest → Unsigned 16 rest w.toNat → Reads labels text (.ok w)
  | malformedHexadecimal {rest : List Char} :
    Hexadecimal text rest → (∀ n, Unsigned 16 rest n → 0x100000000 ≤ n) →
    Reads labels text (.error (.malformedLiteral text))
  | decimal {v : Int} {w : Word} :
    Decimal text → Signed text.toList v → -0x80000000 ≤ v → v < 0x100000000 →
    (w.toNat : Int) = v % 0x100000000 → Reads labels text (.ok w)
  /-- A number of 64 bits for which there is no word. -/
  | unencodable {v : Int} :
    Decimal text → Signed text.toList v →
    -0x8000000000000000 ≤ v ∧ v < -0x80000000 ∨ 0x100000000 ≤ v ∧ v < 0x8000000000000000 →
    Reads labels text (.error (.unencodable v))
  | malformedDecimal :
    Decimal text →
    (∀ v, Signed text.toList v → v < -0x8000000000000000 ∨ 0x8000000000000000 ≤ v) →
    Reads labels text (.error (.malformedLiteral text))
  | label {addr : Word} :
    Symbolic text → labels.find? text = some addr → Reads labels text (.ok addr)
  | unbound :
    Symbolic text → labels.find? text = none → Reads labels text (.error (.unknownSymbol text))

/-- The spellings of a word. There may be zeros before the digits, and a sign before these. -/
inductive Spelling (w : Word) : List Char → Prop
  | hexadecimal {x : Char} {sign digits : List Char} (zeros : Nat) :
    x = 'x' ∨ x = 'X' → sign = [] ∨ sign = ['+'] →
    List.Forall₂ (fun c d => c = d ∨ c = d.toUpper) digits (Nat.toDigits 16 w.toNat) →
    Spelling w ('0' :: x :: (sign ++ (List.replicate zeros '0' ++ digits)))
  | decimal {sign : List Char} (zeros : Nat) : sign = [] ∨ sign = ['+'] →
    Spelling w (sign ++ (List.replicate zeros '0' ++ Nat.toDigits 10 w.toNat))
  /-- The two's complement of a word with its top bit set. -/
  | negative (zeros : Nat) : 0x80000000 ≤ w.toNat →
    Spelling w ('-' :: (List.replicate zeros '0' ++ Nat.toDigits 10 (0x100000000 - w.toNat)))

end Expression

/-! ## Reading digits -/

namespace Numeral

variable {base : Nat} {c : Char} {cs : List Char} {d n : Nat}

/-- What holds of all characters of a range, counted from its first one, holds of any in it. -/
theorem of_char_range {P : Char → Nat → Prop} {first count : Nat}
    (hall : ∀ i : Fin count, P (Char.ofNat (first + i.val)) i.val)
    (hlo : first ≤ c.toNat) (hhi : c.toNat < first + count) : P c (c.toNat - first) := by
  have h := hall ⟨c.toNat - first, by omega⟩
  rwa [Nat.add_sub_cancel' hlo, Char.ofNat_toNat] at h

theorem digitValue?_eq_some_iff (hbase : base ≤ 16) :
    digitValue? base c = some d ↔ IsDigit base c d := by
  constructor
  · intro h
    obtain ⟨hvalue, hlt⟩ := Option.filter_eq_some_iff.mp h
    refine ⟨of_decide_eq_true hlt, ?_⟩
    -- ten digits, six small letters and six capital ones
    split at hvalue
    · rename_i hrange
      cases hvalue
      have hall : ∀ i : Fin 10, Char.ofNat (48 + i.val) = Nat.digitChar i.val := by decide
      exact .inl (of_char_range (P := fun c i => c = Nat.digitChar i) hall hrange.1
        (Nat.lt_succ_of_le hrange.2))
    · split at hvalue
      · rename_i hrange
        cases hvalue
        have hall : ∀ i : Fin 6, Char.ofNat (97 + i.val) = Nat.digitChar (i.val + 10) := by decide
        exact .inl (of_char_range (P := fun c i => c = Nat.digitChar (i + 10)) hall hrange.1
          (Nat.lt_succ_of_le hrange.2))
      · split at hvalue
        · rename_i hrange
          cases hvalue
          have hall : ∀ i : Fin 6,
              Char.ofNat (65 + i.val) = (Nat.digitChar (i.val + 10)).toUpper := by decide
          exact .inr (of_char_range (P := fun c i => c = (Nat.digitChar (i + 10)).toUpper) hall
            hrange.1 (Nat.lt_succ_of_le hrange.2))
        · cases hvalue
  · rintro ⟨hlt, hc⟩
    have hall : ∀ i : Fin 16, digitValue? 16 (Nat.digitChar i.val) = some i.val
        ∧ digitValue? 16 (Nat.digitChar i.val).toUpper = some i.val := by decide
    obtain ⟨hlower, hupper⟩ := hall ⟨d, by omega⟩
    have hvalue : digitValue? 16 c = some d := by
      rcases hc with rfl | rfl
      · exact hlower
      · exact hupper
    obtain ⟨hsome, _⟩ := Option.filter_eq_some_iff.mp hvalue
    exact Option.filter_eq_some_iff.mpr ⟨hsome, decide_eq_true hlt⟩

theorem foldlM_digitValue?_eq_some_iff (hbase : base ≤ 16) (value : Nat) :
    cs.foldlM (fun value c => (digitValue? base c).map (value * base + ·)) value = some n
      ↔ ∃ ds, List.Forall₂ (IsDigit base) cs ds
        ∧ ds.foldl (fun value d => value * base + d) value = n := by
  induction cs generalizing value with
  | nil => simp
  | cons c cs ih =>
    rw [List.foldlM_cons]
    constructor
    · intro h
      obtain ⟨next, hnext, hrest⟩ := Option.bind_eq_some_iff.mp h
      obtain ⟨d, hd, rfl⟩ := Option.map_eq_some_iff.mp hnext
      obtain ⟨ds, hds, hn⟩ := (ih _).mp hrest
      exact ⟨d :: ds, .cons ((digitValue?_eq_some_iff hbase).mp hd) hds, hn⟩
    · rintro ⟨_ | ⟨d, ds⟩, hall, hn⟩
      · cases hall
      · obtain ⟨hd, hds⟩ := List.forall₂_cons.mp hall
        rw [(digitValue?_eq_some_iff hbase).mpr hd]
        exact (ih _).mpr ⟨ds, hds, hn⟩

/-- The digits weigh what their places say. -/
theorem ofDigits_reverse (ds : List Nat) :
    Nat.ofDigits base ds.reverse = ds.foldl (fun value d => value * base + d) 0 := by
  rw [Nat.ofDigits_eq_foldr, List.foldr_reverse]
  simp [Nat.mul_comm, Nat.add_comm]

theorem natural?_eq_some_iff (hbase : base ≤ 16) :
    natural? base cs = some n ↔ Digits base cs n := by
  rw [natural?, Digits]
  by_cases hnil : cs = []
  · simp [hnil]
  · rw [if_neg (by simpa using hnil), foldlM_digitValue?_eq_some_iff hbase]
    simp [hnil, ofDigits_reverse]

/-- A sign is no digit. -/
theorem not_digits_sign {sign : Char} (h : sign = '+' ∨ sign = '-') (hbase : base ≤ 16) :
    ¬ Digits base (sign :: cs) n := by
  rintro ⟨_, _ | ⟨d, ds⟩, hall, _⟩
  · cases hall
  · have hd := (digitValue?_eq_some_iff hbase).mpr (List.forall₂_cons.mp hall).1
    have hnone : digitValue? base sign = none := by
      rcases h with rfl | rfl <;> rfl
    rw [hnone] at hd
    cases hd

theorem unsigned?_eq_some_iff (hbase : base ≤ 16) :
    unsigned? base cs = some n ↔ Unsigned base cs n := by
  unfold unsigned?
  split
  · rename_i digits
    rw [natural?_eq_some_iff hbase]
    constructor
    · intro h
      exact ⟨digits, .inr rfl, h⟩
    · rintro ⟨digits', rfl | heq, h⟩
      · exact absurd h (not_digits_sign (.inl rfl) hbase)
      · cases heq
        exact h
  · rename_i hplus
    rw [natural?_eq_some_iff hbase]
    constructor
    · intro h
      exact ⟨cs, .inl rfl, h⟩
    · rintro ⟨digits', rfl | rfl, h⟩
      · exact h
      · exact absurd rfl (hplus digits')

theorem signed?_eq_some_iff {v : Int} : signed? cs = some v ↔ Signed cs v := by
  unfold signed? Signed
  split
  · rename_i digits
    have hunsigned : ∀ n, ¬ Unsigned 10 ('-' :: digits) n := by
      rintro n ⟨digits', rfl | heq, h⟩
      · exact not_digits_sign (.inr rfl) (by decide) h
      · cases heq
    constructor
    · intro h
      obtain ⟨_, hsize, rfl⟩ := Option.map_eq_some_iff.mp h
      obtain ⟨n, hn, hcast⟩ := Option.bind_eq_some_iff.mp hsize
      cases hcast
      exact .inr ⟨digits, n, rfl, (natural?_eq_some_iff (by decide)).mp hn, rfl⟩
    · rintro (⟨n, hn, _⟩ | ⟨digits', n, heq, hn, rfl⟩)
      · exact absurd hn (hunsigned n)
      · cases heq
        rw [(natural?_eq_some_iff (by decide)).mpr hn]
        rfl
  · rename_i hminus
    have hdigits : ∀ digits, cs ≠ '-' :: digits := by
      rintro digits rfl
      exact hminus digits rfl
    constructor
    · intro h
      obtain ⟨_, hsize, rfl⟩ := Option.map_eq_some_iff.mp h
      obtain ⟨n, hn, hcast⟩ := Option.bind_eq_some_iff.mp hsize
      cases hcast
      exact .inl ⟨n, (unsigned?_eq_some_iff (by decide)).mp hn, rfl⟩
    · rintro (⟨n, hn, rfl⟩ | ⟨digits, n, heq, _⟩)
      · rw [(unsigned?_eq_some_iff (by decide)).mpr hn]
        rfl
      · exact absurd heq (hdigits digits)

theorem int64?_eq_some_iff {v : Int} : int64? cs = some v
    ↔ Signed cs v ∧ -0x8000000000000000 ≤ v ∧ v < 0x8000000000000000 := by
  rw [int64?, Option.filter_eq_some_iff, signed?_eq_some_iff, decide_eq_true_eq]

theorem hexWord?_eq_some_iff {w : Word} : hexWord? cs = some w ↔ Unsigned 16 cs w.toNat := by
  unfold hexWord?
  rw [Option.map_eq_some_iff]
  constructor
  · rintro ⟨n, hn, rfl⟩
    obtain ⟨hn, hlt⟩ := Option.filter_eq_some_iff.mp hn
    rw [BitVec.toNat_ofNat, Nat.mod_eq_of_lt (of_decide_eq_true hlt)]
    exact (unsigned?_eq_some_iff (by decide)).mp hn
  · intro h
    refine ⟨w.toNat, Option.filter_eq_some_iff.mpr ⟨?_, decide_eq_true w.isLt⟩,
      BitVec.ofNat_toNat _ w⟩
    exact (unsigned?_eq_some_iff (by decide)).mpr h

/-! ## Digits as they are printed -/

/-- Zeros before a number make no difference. -/
theorem Digits.zeros (h : Digits base cs n) (zeros : Nat) :
    Digits base (List.replicate zeros '0' ++ cs) n := by
  obtain ⟨hne, ds, hds, hn⟩ := h
  refine ⟨List.append_ne_nil_of_right_ne_nil _ hne, List.replicate zeros 0 ++ ds, ?_, ?_⟩
  · refine List.rel_append ?_ hds
    have hpos : 0 < base := by
      cases hds with
      | nil => exact absurd rfl hne
      | cons hd _ => exact Nat.zero_lt_of_lt hd.1
    induction zeros with
    | zero => exact .nil
    | succ zeros ih => exact .cons ⟨hpos, .inl rfl⟩ ih
  · rw [List.reverse_append, List.reverse_replicate, Nat.ofDigits_append_replicate_zero, hn]

/-- Nor does the case of its digits. -/
theorem Digits.either_case (hbase : base ≤ 16) {cs' : List Char} (h : Digits base cs n)
    (hcs : List.Forall₂ (fun c d => c = d ∨ c = d.toUpper) cs' cs) : Digits base cs' n := by
  have hall : ∀ i : Fin 16,
      (Nat.digitChar i.val).toUpper.toUpper = (Nat.digitChar i.val).toUpper := by decide
  obtain ⟨hne, ds, hds, hn⟩ := h
  refine ⟨?_, ds, ?_, hn⟩
  · rintro rfl
    cases hcs
    exact hne rfl
  · clear hne hn
    induction hds generalizing cs' with
    | nil =>
      cases hcs
      exact .nil
    | @cons c d cs ds hd _ ih =>
      obtain _ | ⟨hc, hcs⟩ := hcs
      refine .cons ⟨hd.1, ?_⟩ (ih hcs)
      obtain ⟨hlt, rfl | rfl⟩ := hd
      · exact hc
      · rw [hall ⟨d, by omega⟩, or_self] at hc
        exact .inr hc

theorem digits_toDigits_ten (n : Nat) : Digits 10 (Nat.toDigits 10 n) n := by
  rw [← natural?_eq_some_iff (by decide), ← toList_decimal]
  exact natural?_decimal n

theorem digits_toDigits_sixteen (n : Nat) : Digits 16 (Nat.toDigits 16 n) n :=
  (natural?_eq_some_iff (by decide)).mp (natural?_toDigits n)

theorem Digits.unsigned (h : Digits base cs n) {sign : List Char}
    (hsign : sign = [] ∨ sign = ['+']) : Unsigned base (sign ++ cs) n := by
  rcases hsign with rfl | rfl
  · exact ⟨cs, .inl rfl, h⟩
  · exact ⟨cs, .inr rfl, h⟩

theorem exists_isDigit_of_mem {ds : List Nat} (h : List.Forall₂ (IsDigit base) cs ds)
    (hc : c ∈ cs) : ∃ d, IsDigit base c d := by
  induction h with
  | nil => cases hc
  | cons hd _ ih =>
    rcases List.mem_cons.mp hc with rfl | hc
    · exact ⟨_, hd⟩
    · exact ih hc

theorem Digits.mem_decimal (h : Digits 10 cs n) (hc : c ∈ cs) : c ∈ "0123456789+-".toList := by
  have hall : ∀ i : Fin 10, Nat.digitChar i.val ∈ "0123456789+-".toList
      ∧ (Nat.digitChar i.val).toUpper ∈ "0123456789+-".toList := by decide
  obtain ⟨_, ds, hds, _⟩ := h
  obtain ⟨d, hlt, rfl | rfl⟩ := exists_isDigit_of_mem hds hc
  · exact (hall ⟨d, hlt⟩).1
  · exact (hall ⟨d, hlt⟩).2

/-- The characters of a decimal number. -/
theorem Signed.mem {v : Int} (h : Signed cs v) (hc : c ∈ cs) : c ∈ "0123456789+-".toList := by
  rcases h with ⟨n, ⟨digits, rfl | rfl, h⟩, _⟩ | ⟨digits, n, rfl, h, _⟩
  · exact h.mem_decimal hc
  · rcases List.mem_cons.mp hc with rfl | hc
    · decide
    · exact h.mem_decimal hc
  · rcases List.mem_cons.mp hc with rfl | hc
    · decide
    · exact h.mem_decimal hc

theorem Signed.ne_nil {v : Int} (h : Signed cs v) : cs ≠ [] := by
  rcases h with ⟨n, ⟨digits, rfl | rfl, h⟩, _⟩ | ⟨digits, n, rfl, h, _⟩
  · exact h.1
  · exact List.cons_ne_nil _ _
  · exact List.cons_ne_nil _ _

end Numeral

/-! ## Reading expressions -/

theorem Expression.Hexadecimal.rest_unique {text : String} {rest rest' : List Char}
    (h : Hexadecimal text rest) (h' : Hexadecimal text rest') : rest = rest' := by
  rcases h with h | h
  · rw [Hexadecimal, h] at h'
    rcases h' with h' | h' <;> cases h'
    rfl
  · rw [Hexadecimal, h] at h'
    rcases h' with h' | h' <;> cases h'
    rfl

namespace Operand

open Numeral Expression

variable {labels : SymbolTable} {text : String} {rest : List Char}

theorem startsNumber_iff {cs : List Char} : startsNumber cs = true
    ↔ ∃ c rest, cs = c :: rest ∧ c ∈ "0123456789+-".toList := by
  have hall : "0123456789+-".toList.all (fun c => c.isDigit || c == '-' || c == '+') = true := by
    decide
  cases cs with
  | nil => simp [startsNumber]
  | cons c rest =>
    constructor
    · intro h
      refine ⟨c, rest, rfl, ?_⟩
      rw [startsNumber, Bool.or_eq_true, Bool.or_eq_true, beq_iff_eq, beq_iff_eq] at h
      rcases h with (hdigit | rfl) | rfl
      · obtain ⟨hlo, hhi⟩ := range_of_isDigit hdigit
        have hrange : ∀ i : Fin 10, Char.ofNat (48 + i.val) ∈ "0123456789+-".toList := by decide
        exact of_char_range (P := fun c _ => c ∈ "0123456789+-".toList) hrange hlo
          (Nat.lt_succ_of_le hhi)
      · decide
      · decide
    · rintro ⟨_, _, heq, hmem⟩
      cases heq
      exact List.all_eq_true.mp hall c hmem

theorem readExpression_of_hexadecimal (h : Hexadecimal text rest) :
    readExpression labels text
      = (hexWord? rest).elim (.error (.malformedLiteral text)) .ok := by
  unfold readExpression
  split
  · rename_i digits heq
    rw [h.rest_unique (.inl heq)]
    cases hexWord? digits <;> rfl
  · rename_i digits heq
    rw [h.rest_unique (.inr heq)]
    cases hexWord? digits <;> rfl
  · rename_i hx hX
    exact absurd h (not_or.mpr ⟨hx rest, hX rest⟩)

theorem readExpression_of_not_hexadecimal (h : ∀ rest, ¬ Hexadecimal text rest) :
    readExpression labels text = if startsNumber text.toList then
      (int64? text.toList).elim (.error (.malformedLiteral text)) wordOf
    else labels.lookup text := by
  unfold readExpression
  split
  · rename_i digits heq
    exact absurd (.inl heq) (h digits)
  · rename_i digits heq
    exact absurd (.inr heq) (h digits)
  · refine ite_congr rfl (fun _ => ?_) (fun _ => rfl)
    cases int64? text.toList <;> rfl

theorem readExpression_of_decimal (h : Decimal text) :
    readExpression labels text
      = (int64? text.toList).elim (.error (.malformedLiteral text)) wordOf := by
  rw [readExpression_of_not_hexadecimal h.1, if_pos (startsNumber_iff.mpr h.2)]

theorem readExpression_of_symbolic (h : Symbolic text) :
    readExpression labels text = labels.lookup text := by
  rw [readExpression_of_not_hexadecimal h.1, if_neg]
  intro hstarts
  exact h.2 ⟨h.1, startsNumber_iff.mp hstarts⟩

/-- There is always an answer that the grammar gives. -/
theorem reads_readExpression (labels : SymbolTable) (text : String) :
    Reads labels text (readExpression labels text) := by
  by_cases hhex : ∃ rest, Hexadecimal text rest
  · obtain ⟨rest, hrest⟩ := hhex
    rw [readExpression_of_hexadecimal hrest]
    cases hword : hexWord? rest with
    | some w => exact .hexadecimal hrest (hexWord?_eq_some_iff.mp hword)
    | none =>
      refine .malformedHexadecimal hrest fun n hn => ?_
      by_contra hlt
      have hn' : (BitVec.ofNat 32 n).toNat = n := by
        rw [BitVec.toNat_ofNat]
        omega
      rw [hexWord?_eq_some_iff.mpr (hn'.symm ▸ hn)] at hword
      cases hword
  · have hnot : ∀ rest, ¬ Hexadecimal text rest := fun rest hrest => hhex ⟨rest, hrest⟩
    by_cases hdecimal : Decimal text
    · rw [readExpression_of_decimal hdecimal]
      cases hint : int64? text.toList with
      | some v =>
        obtain ⟨hsigned, hlo, hhi⟩ := int64?_eq_some_iff.mp hint
        rw [Option.elim_some, wordOf]
        split
        · exact .unencodable hdecimal hsigned (by omega)
        · refine .decimal hdecimal hsigned (by omega) (by omega) ?_
          rw [BitVec.toNat_ofInt]
          omega
      | none =>
        refine .malformedDecimal hdecimal fun v hv => ?_
        by_contra hrange
        rw [int64?_eq_some_iff.mpr ⟨hv, by omega, by omega⟩] at hint
        cases hint
    · have hsymbolic : Symbolic text := ⟨hnot, hdecimal⟩
      rw [readExpression_of_symbolic hsymbolic, SymbolTable.lookup]
      cases hfind : labels.find? text with
      | some addr => exact .label hsymbolic hfind
      | none => exact .unbound hsymbolic hfind

/-- And it gives no other. -/
theorem readExpression_of_reads {answer : Except SourceError Word}
    (h : Reads labels text answer) : readExpression labels text = answer := by
  cases h with
  | hexadecimal hrest hw =>
    rw [readExpression_of_hexadecimal hrest, hexWord?_eq_some_iff.mpr hw]
    rfl
  | malformedHexadecimal hrest hbig =>
    rw [readExpression_of_hexadecimal hrest]
    cases hword : hexWord? _ with
    | some w =>
      have := hbig _ (hexWord?_eq_some_iff.mp hword)
      omega
    | none => rfl
  | @decimal v w hdecimal hsigned hlo hhi hw =>
    rw [readExpression_of_decimal hdecimal, int64?_eq_some_iff.mpr ⟨hsigned, by omega, by omega⟩,
      Option.elim_some, wordOf, if_neg (by omega)]
    refine congrArg Except.ok (BitVec.eq_of_toNat_eq ?_)
    rw [BitVec.toNat_ofInt]
    omega
  | unencodable hdecimal hsigned hrange =>
    rw [readExpression_of_decimal hdecimal, int64?_eq_some_iff.mpr ⟨hsigned, by omega, by omega⟩,
      Option.elim_some, wordOf, if_pos (by omega)]
  | malformedDecimal hdecimal hrange =>
    rw [readExpression_of_decimal hdecimal]
    cases hint : int64? text.toList with
    | some v =>
      obtain ⟨hsigned, hlo, hhi⟩ := int64?_eq_some_iff.mp hint
      have := hrange v hsigned
      omega
    | none => rfl
  | label hsymbolic hfind => rw [readExpression_of_symbolic hsymbolic, SymbolTable.lookup, hfind]
  | unbound hsymbolic hfind => rw [readExpression_of_symbolic hsymbolic, SymbolTable.lookup, hfind]

/-! ## Spellings of a word -/

/-- A text that reads as a decimal number is taken for one. -/
theorem decimal_of_signed {v : Int} (h : Signed text.toList v) : Decimal text := by
  constructor
  · -- the second character would be an `x`
    rintro rest (heq | heq)
    · have hx := h.mem (c := 'x') (by rw [heq]; exact List.mem_cons_of_mem _ List.mem_cons_self)
      revert hx
      decide
    · have hx := h.mem (c := 'X') (by rw [heq]; exact List.mem_cons_of_mem _ List.mem_cons_self)
      revert hx
      decide
  · cases htext : text.toList with
    | nil => exact absurd htext h.ne_nil
    | cons c rest => exact ⟨c, rest, rfl, h.mem (by rw [htext]; exact List.mem_cons_self)⟩

theorem reads_of_spelling {w : Word} (h : Spelling w text.toList) : Reads labels text (.ok w) := by
  have hw := w.isLt
  generalize htext : text.toList = cs at h
  cases h with
  | hexadecimal zeros hx hsign hdigits =>
    have hcase := (digits_toDigits_sixteen w.toNat).either_case (by decide) hdigits
    refine .hexadecimal ?_ ((hcase.zeros zeros).unsigned hsign)
    rcases hx with rfl | rfl
    · exact .inl htext
    · exact .inr htext
  | decimal zeros hsign =>
    have hsigned : Signed text.toList w.toNat := by
      rw [htext]
      exact .inl ⟨_, ((digits_toDigits_ten w.toNat).zeros zeros).unsigned hsign, rfl⟩
    exact .decimal (decimal_of_signed hsigned) hsigned (by omega) (by omega) (by omega)
  | negative zeros htop =>
    have hsigned : Signed text.toList (-((0x100000000 - w.toNat : Nat) : Int)) := by
      rw [htext]
      exact .inr ⟨_, _, rfl, (digits_toDigits_ten _).zeros zeros, rfl⟩
    exact .decimal (decimal_of_signed hsigned) hsigned (by omega) (by omega) (by omega)

/--
**Expressions are read by their grammar.** The answer for a text is the one that the
grammar gives, and no other. And a word has one value, however it is spelled: in decimal
or hexadecimal digits of either case, with zeros before them, or as the negative number
whose two's complement it is.
-/
theorem readExpression_eq_iff_reads (labels : SymbolTable) :
    (∀ text answer, readExpression labels text = answer ↔ Reads labels text answer)
      ∧ ∀ (w : Word) (text : String), Spelling w text.toList →
        readExpression labels text = .ok w := by
  refine ⟨fun text answer => ⟨?_, readExpression_of_reads⟩, ?_⟩
  · rintro rfl
    exact reads_readExpression labels text
  · intro w text h
    exact readExpression_of_reads (reads_of_spelling h)

/-- Minus two as a word, in mixed case, as a negative number and behind a plus sign. -/
theorem readExpression_eq_iff_reads_minus_two :
    Spelling 0xFFFFFFFE "0X00fFFFfFfE".toList ∧ Spelling 0xFFFFFFFE "-02".toList
      ∧ Spelling 0xFFFFFFFE "+4294967294".toList
      ∧ readExpression .empty "0X00fFFFfFfE" = .ok 0xFFFFFFFE
      ∧ readExpression .empty "-02" = .ok 0xFFFFFFFE
      ∧ readExpression .empty "+4294967294" = .ok 0xFFFFFFFE := by
  have hhex : Spelling 0xFFFFFFFE "0X00fFFFfFfE".toList :=
    @Spelling.hexadecimal 0xFFFFFFFE 'X' [] "fFFFfFfE".toList 2 (.inr rfl) (.inl rfl) (by decide)
  have hnegative : Spelling 0xFFFFFFFE "-02".toList := .negative 1 (by decide)
  have hdecimal : Spelling 0xFFFFFFFE "+4294967294".toList :=
    @Spelling.decimal 0xFFFFFFFE ['+'] 0 (.inr rfl)
  have hread := (readExpression_eq_iff_reads .empty).2 0xFFFFFFFE
  exact ⟨hhex, hnegative, hdecimal, hread _ hhex, hread _ hnegative, hread _ hdecimal⟩

end Operand

end Armlet
