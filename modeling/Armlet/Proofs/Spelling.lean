import Armlet.Proofs.Lines

/-!
# Spelling

A line that has been put together from words, with separators between them, is
taken apart into the same words. `Token.Spells` states this in a form that can be
proved along the way a line is built: words spell one token each, and what spells
some tokens, a separator, and what spells some more spell all of them.

The words in question are the ones that occur in a disassembly. They consist of
letters, digits and minus signs, so they hold no separator, start no comment and
end in no colon. Numbers are among them, and a decimal numeral reads as the number
that was written.
-/

namespace Armlet

/-! ## Pieces of a list that was put together -/

section Pieces

variable {α : Type} {p : α → Bool}

theorem consPiece_append {x : α} {ps qs : List (List α)} (h : ps ≠ []) :
    consPiece x (ps ++ qs) = consPiece x ps ++ qs := by
  cases ps with
  | nil => exact absurd rfl h
  | cons piece rest => rfl

/-- Around a cut, the pieces of both sides. -/
theorem pieces_append_cut {c : α} (hc : p c = true) (xs ys : List α) :
    pieces p (xs ++ c :: ys) = pieces p xs ++ pieces p ys := by
  induction xs with
  | nil => rw [List.nil_append, pieces_cons, if_pos hc, pieces_nil, List.singleton_append]
  | cons x xs ih =>
    rw [List.cons_append, pieces_cons, pieces_cons, ih]
    split
    · rfl
    · exact consPiece_append (pieces_ne_nil xs)

theorem pieces_of_no_cut {xs : List α} (h : ∀ x ∈ xs, p x = false) : pieces p xs = [xs] := by
  induction xs with
  | nil => rfl
  | cons x xs ih =>
    obtain ⟨hx, hxs⟩ := List.forall_mem_cons.mp h
    rw [pieces_cons, if_neg (by simp [hx]), ih hxs, consPiece]

end Pieces

/-! ## Numerals -/

namespace Numeral

theorem range_of_isDigit {c : Char} (h : c.isDigit = true) : '0' ≤ c ∧ c ≤ '9' := by
  rw [Char.isDigit, Bool.and_eq_true, decide_eq_true_eq, decide_eq_true_eq] at h
  exact h

theorem toNat_sub_lt_of_isDigit {c : Char} (h : c.isDigit = true) : c.toNat - '0'.toNat < 10 := by
  have hle : c.toNat ≤ 57 := (range_of_isDigit h).2
  have hzero : '0'.toNat = 48 := rfl
  omega

theorem digitValue?_of_isDigit {c : Char} (h : c.isDigit = true) :
    digitValue? 10 c = some (c.toNat - '0'.toNat) := by
  rw [digitValue?, if_pos (range_of_isDigit h)]
  exact Option.filter_some_pos (decide_eq_true (toNat_sub_lt_of_isDigit h))

/-- Digits read as the number they make. -/
theorem natural?_of_isDigit {cs : List Char} (hne : cs ≠ []) (h : ∀ c ∈ cs, c.isDigit = true) :
    natural? 10 cs = some (Nat.ofDigitChars 10 cs 0) := by
  have hfold : ∀ value, cs.foldlM (fun value c => (digitValue? 10 c).map (value * 10 + ·)) value
      = some (Nat.ofDigitChars 10 cs value) := by
    clear hne
    induction cs with
    | nil => intro value; rfl
    | cons c cs ih =>
      intro value
      obtain ⟨hc, hcs⟩ := List.forall_mem_cons.mp h
      rw [List.foldlM_cons, digitValue?_of_isDigit hc, Nat.ofDigitChars_cons, Nat.mul_comm 10]
      exact ih hcs _
  rw [natural?, if_neg (by simpa using hne), hfold]

theorem toList_decimal (n : Nat) : (decimal n).toList = Nat.toDigits 10 n := Nat.toList_repr

theorem isDigit_of_mem_decimal {n : Nat} {c : Char} (h : c ∈ (decimal n).toList) :
    c.isDigit = true := by
  rw [toList_decimal] at h
  exact Nat.isDigit_of_mem_toDigits (by decide) (by decide) h

theorem natural?_decimal (n : Nat) : natural? 10 (decimal n).toList = some n := by
  rw [natural?_of_isDigit (by rw [toList_decimal]; exact Nat.toDigits_ne_nil)
    fun c hc => isDigit_of_mem_decimal hc, toList_decimal, Nat.ofDigitChars_ten_toDigits]

/-- A plus sign is no digit, so digits are read as they are. -/
theorem unsigned?_of_isDigit {base : Nat} {cs : List Char} (h : ∀ c ∈ cs, c.isDigit = true) :
    unsigned? base cs = natural? base cs := by
  unfold unsigned?
  split
  · rename_i digits
    have hplus : '+'.isDigit = true := h '+' List.mem_cons_self
    cases hplus
  · rfl

/-- A numeral begins with a digit, so it has no sign. -/
theorem signed?_decimal (n : Nat) : signed? (decimal n).toList = some (n : Int) := by
  have hdigit : ∀ c ∈ (decimal n).toList, c.isDigit = true := fun c hc => isDigit_of_mem_decimal hc
  unfold signed?
  split
  · rename_i digits heq
    have hminus : '-'.isDigit = true := hdigit '-' (heq ▸ List.mem_cons_self)
    cases hminus
  · rw [unsigned?_of_isDigit hdigit, natural?_decimal]
    rfl

theorem int64?_decimal {n : Nat} (h : n < 0x8000000000000000) :
    int64? (decimal n).toList = some (n : Int) := by
  rw [int64?, signed?_decimal, Option.filter_some, if_pos]
  simp
  omega

theorem int64?_neg_decimal {n : Nat} (h : n < 0x8000000000000000) :
    int64? ('-' :: (decimal n).toList) = some (-(n : Int)) := by
  have hsigned : signed? ('-' :: (decimal n).toList) = some (-(n : Int)) := by
    simp [signed?, natural?_decimal]
  rw [int64?, hsigned, Option.filter_some, if_pos]
  simp
  omega

end Numeral

/-! ## Lines -/

namespace Token

theorem takeWhile_noComment {line : List Char} (hline : ';' ∉ line) (rest : List Char) :
    (line ++ rest).takeWhile (· != ';') = line ++ rest.takeWhile (· != ';') := by
  apply List.takeWhile_append_of_pos
  intro c hc
  rw [bne_iff_ne]
  rintro rfl
  exact hline hc

/-- A word in front of a separator is a word of the line. -/
theorem words_append_gap {line : List Char} {c : Char} (hline : ';' ∉ line)
    (hc : separates c = true) (rest : List Char) :
    words (line ++ c :: rest) = words line ++ words rest := by
  have hsemi : (c != ';') = true := by
    rw [bne_iff_ne]
    rintro rfl
    cases hc
  have hself := takeWhile_noComment hline []
  rw [List.append_nil, List.takeWhile_nil, List.append_nil] at hself
  rw [words, takeWhile_noComment hline, List.takeWhile_cons, if_pos hsemi, pieces_append_cut hc,
    List.filter_append, words, hself, words]

/-- Separators in front of a line do not matter. -/
theorem words_gap_append {gap : List Char} (hgap : ∀ c ∈ gap, separates c = true)
    (rest : List Char) : words (gap ++ rest) = words rest := by
  induction gap with
  | nil => rfl
  | cons c gap ih =>
    obtain ⟨hc, hcs⟩ := List.forall_mem_cons.mp hgap
    have hwords : words (c :: (gap ++ rest)) = words [] ++ words (gap ++ rest) :=
      words_append_gap List.not_mem_nil hc (gap ++ rest)
    rw [List.cons_append, hwords, ih hcs]
    rfl

theorem words_of_word {w : List Char} (hne : w ≠ []) (hsemi : ';' ∉ w)
    (hsep : ∀ c ∈ w, separates c = false) : words w = [w] := by
  have hself := takeWhile_noComment hsemi []
  rw [List.append_nil, List.takeWhile_nil, List.append_nil] at hself
  rw [words, hself, pieces_of_no_cut hsep,
    List.filter_cons_of_pos (by simpa using hne), List.filter_nil]

/-- A text that is a single line, without comment or label, of the given tokens. -/
structure Spells (text : String) (tokens : List Token) : Prop where
  oneLine : '\n' ∉ text.toList
  noComment : ';' ∉ text.toList
  noLabel : ∀ t ∈ tokens, t.kind ≠ .label
  wordTokens_eq : wordTokens text.toList = tokens

/-- What may stand between two words of a line. -/
def Gap (gap : String) : Prop :=
  gap.toList ≠ [] ∧ gap.toList.all (fun c => separates c && c != '\n') = true

instance : DecidablePred Gap := fun gap => inferInstanceAs (Decidable (gap.toList ≠ [] ∧ _))

theorem Gap.forall_mem {gap : String} (h : Gap gap) :
    ∀ c ∈ gap.toList, separates c = true ∧ c ≠ '\n' := by
  intro c hc
  have hboth := List.all_eq_true.mp h.2 c hc
  rwa [Bool.and_eq_true, bne_iff_ne] at hboth

theorem Spells.empty : Spells "" [] where
  oneLine := List.not_mem_nil
  noComment := List.not_mem_nil
  noLabel := by simp
  wordTokens_eq := rfl

/-- **Two spellings with a gap between them are one.** -/
theorem Spells.append {a b gap : String} {ts us : List Token} (ha : Spells a ts)
    (hgap : Gap gap) (hb : Spells b us) : Spells (a ++ gap ++ b) (ts ++ us) where
  oneLine := by
    simp only [String.toList_append, List.mem_append, not_or]
    refine ⟨⟨ha.oneLine, ?_⟩, hb.oneLine⟩
    intro hmem
    exact (hgap.forall_mem _ hmem).2 rfl
  noComment := by
    simp only [String.toList_append, List.mem_append, not_or]
    refine ⟨⟨ha.noComment, ?_⟩, hb.noComment⟩
    intro hmem
    cases (hgap.forall_mem _ hmem).1
  noLabel := by
    intro t ht
    rcases List.mem_append.mp ht with ht | ht
    · exact ha.noLabel t ht
    · exact hb.noLabel t ht
  wordTokens_eq := by
    have hsep := hgap.forall_mem
    cases hcs : gap.toList with
    | nil => exact absurd hcs hgap.1
    | cons c cs =>
      rw [hcs] at hsep
      obtain ⟨hc, hrest⟩ := List.forall_mem_cons.mp hsep
      have hwords : words (a ++ gap ++ b).toList = words a.toList ++ words b.toList := by
        rw [String.toList_append, String.toList_append, hcs, List.append_assoc, List.cons_append,
          words_append_gap ha.noComment hc.1, words_gap_append fun d hd => (hrest d hd).1]
      rw [wordTokens, hwords, List.map_append, ← wordTokens, ← wordTokens, ha.wordTokens_eq,
        hb.wordTokens_eq]

/-- A gap at the end of a line says nothing. -/
theorem Spells.closed {a gap : String} {ts : List Token} (ha : Spells a ts) (hgap : Gap gap) :
    Spells (a ++ gap) ts := by
  have h := ha.append hgap .empty
  rwa [String.append_empty, List.append_nil] at h

/-! ## Words -/

/-- A letter, a digit or a minus sign. -/
def plainChar (c : Char) : Bool := c.isAlphanum || c == '-'

/-- A word of such characters. -/
def Plain (w : String) : Prop := w.toList ≠ [] ∧ w.toList.all plainChar = true

instance : DecidablePred Plain := fun w => inferInstanceAs (Decidable (w.toList ≠ [] ∧ _))

theorem Plain.plainChar_of_mem {w : String} (hw : Plain w) {c : Char} (hc : c ∈ w.toList) :
    plainChar c = true := List.all_eq_true.mp hw.2 c hc

theorem plain_append {a b : String} (ha : Plain a) (hb : Plain b) : Plain (a ++ b) := by
  rw [Plain, String.toList_append, List.all_append, ha.2, hb.2]
  exact ⟨by simp [ha.1], rfl⟩

theorem plain_decimal (n : Nat) : Plain (Numeral.decimal n) := by
  refine ⟨by rw [Numeral.toList_decimal]; exact Nat.toDigits_ne_nil, ?_⟩
  rw [List.all_eq_true]
  intro c hc
  simp [plainChar, Char.isAlphanum, Numeral.isDigit_of_mem_decimal hc]

theorem separates_of_plainChar {c : Char} (h : plainChar c = true) : separates c = false := by
  rw [Bool.eq_false_iff]
  intro hsep
  simp only [separates, Bool.or_eq_true, beq_iff_eq] at hsep
  rcases hsep with (((((rfl | rfl) | rfl) | rfl) | rfl) | rfl) | rfl <;> cases h

/-- A character that is not plain is in no plain word. -/
theorem Plain.not_mem {w : String} (hw : Plain w) {c : Char} (hc : plainChar c = false) :
    c ∉ w.toList := by
  intro hmem
  rw [hw.plainChar_of_mem hmem] at hc
  cases hc

theorem Plain.getLast?_ne_colon {w : String} (hw : Plain w) : w.toList.getLast? ≠ some ':' := by
  intro hlast
  exact hw.not_mem rfl (List.mem_of_getLast? hlast)

theorem Plain.ofWord_eq {w : String} (hw : Plain w) : ofWord w.toList = ⟨.name, w⟩ := by
  have hhash := hw.not_mem (c := '#') rfl
  have hequals := hw.not_mem (c := '=') rfl
  unfold ofWord
  rw [if_neg hw.getLast?_ne_colon]
  split
  · rename_i heq
    rw [heq] at hhash
    exact absurd List.mem_cons_self hhash
  · rename_i heq
    rw [heq] at hequals
    exact absurd List.mem_cons_self hequals
  · rw [String.ofList_toList]

theorem Plain.spells_name {w : String} (hw : Plain w) : Spells w [⟨.name, w⟩] where
  oneLine := hw.not_mem rfl
  noComment := hw.not_mem rfl
  noLabel := by simp
  wordTokens_eq := by
    have hwords : words w.toList = [w.toList] :=
      words_of_word hw.1 (hw.not_mem rfl) fun c hc =>
        separates_of_plainChar (hw.plainChar_of_mem hc)
    rw [wordTokens, hwords, List.map_singleton, hw.ofWord_eq]

/-- A plain word behind the mark of a number. -/
theorem Plain.spells_literal {w : String} (hw : Plain w) : Spells ("#" ++ w) [⟨.literal, w⟩] where
  oneLine := by simpa using hw.not_mem rfl
  noComment := by simpa using hw.not_mem rfl
  noLabel := by simp
  wordTokens_eq := by
    have htext : ("#" ++ w).toList = '#' :: w.toList := by simp
    have hwords : words ('#' :: w.toList) = ['#' :: w.toList] := by
      refine words_of_word (List.cons_ne_nil _ _) ?_ (List.forall_mem_cons.mpr ⟨rfl, ?_⟩)
      · simpa using hw.not_mem rfl
      · intro c hc
        exact separates_of_plainChar (hw.plainChar_of_mem hc)
    have hlast : ('#' :: w.toList).getLast? ≠ some ':' := by
      rw [List.getLast?_cons_of_ne_nil hw.1]
      exact hw.getLast?_ne_colon
    rw [htext, wordTokens, hwords, List.map_singleton, ofWord, if_neg hlast]
    simp

end Token

end Armlet
