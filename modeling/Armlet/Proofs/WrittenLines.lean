import Mathlib.Data.List.Basic
import Armlet.Assembler.Program
import Armlet.Proofs.Spelling

/-!
# Writing tokens down

A token is written as a word: a label with a colon behind it, a number or an
expression with its mark in front, a name as it is. A line is written as its words,
with blanks before, between and behind them and perhaps a comment, and a source as its
lines. `WrittenLine` is a line together with all that is up to the writer in this.

Two things make a line readable again. The text of a token holds no character that
would end the word or start a comment, and its word does not look like that of another
kind: a colon at the end is only for labels, and a name begins with no mark. This
is `Token.WellFormed`. And two words are never without a blank between them. Then
reading gives back the tokens, whatever the blanks and comments are.

It is also true that every source has been written this way. So what a program means is
a matter of the tokens on its lines, and layout and comments have no part in it.
-/

namespace Armlet

/-! ## Words -/

namespace Token

/-- The characters that may stand between the words of a line. -/
def blanks : List Char := [' ', '\t', ',', '[', ']', '\r']

/-- A character that may stand in a word. -/
def WordChar (c : Char) : Prop := c ∉ blanks ∧ c ≠ '\n' ∧ c ≠ ';'

instance : DecidablePred WordChar := fun _ => inferInstanceAs (Decidable (_ ∧ _ ∧ _))

/-- A token that can be written in a line and read again. -/
def WellFormed (t : Token) : Prop :=
  (∀ c ∈ t.text.toList, WordChar c)
    ∧ match t.kind with
      | .label => True
      | .literal | .expression => t.text.toList.getLast? ≠ some ':'
      | .name => t.text.toList ≠ [] ∧ t.text.toList.head? ≠ some '#'
        ∧ t.text.toList.head? ≠ some '=' ∧ t.text.toList.getLast? ≠ some ':'
      | .newline | .endOfFile => False

/-- The word of a token: its text and the mark of its kind. -/
def word (t : Token) : List Char :=
  match t.kind with
  | .label => t.text.toList ++ [':']
  | .literal => '#' :: t.text.toList
  | .expression => '=' :: t.text.toList
  | .name | .newline | .endOfFile => t.text.toList

theorem mem_blanks_iff {c : Char} : c ∈ blanks ↔ separates c = true ∧ c ≠ '\n' := by
  constructor
  · intro h
    simp only [blanks, List.mem_cons, List.not_mem_nil, or_false] at h
    rcases h with rfl | rfl | rfl | rfl | rfl | rfl <;> decide
  · rintro ⟨hsep, hne⟩
    simp only [separates, Bool.or_eq_true, beq_iff_eq] at hsep
    rcases hsep with (((((rfl | rfl) | rfl) | rfl) | rfl) | rfl) | rfl
    all_goals first | decide | exact absurd rfl hne

theorem wordChar_iff {c : Char} : WordChar c ↔ separates c = false ∧ c ≠ ';' := by
  rw [WordChar, mem_blanks_iff]
  by_cases hc : c = '\n'
  · subst hc
    simp [separates]
  · simp [hc]

/-- A mark in front does not change how a word ends. -/
theorem getLast?_mark_iff {mark : Char} (hmark : mark ≠ ':') {cs : List Char} :
    (mark :: cs).getLast? = some ':' ↔ cs.getLast? = some ':' := by
  rw [List.getLast?_cons]
  cases cs.getLast? with
  | none => simpa using hmark
  | some c => simp

theorem ofWord_of_unmarked {w : List Char} (hcolon : w.getLast? ≠ some ':')
    (hhash : w.head? ≠ some '#') (hequals : w.head? ≠ some '=') :
    ofWord w = ⟨.name, String.ofList w⟩ := by
  unfold ofWord
  rw [if_neg hcolon]
  split
  · exact absurd rfl hhash
  · exact absurd rfl hequals
  · rfl

/-- A word is read as the token it was written for. -/
theorem ofWord_word {t : Token} (h : t.WellFormed) : ofWord t.word = t := by
  obtain ⟨kind, text⟩ := t
  obtain ⟨_, hkind⟩ := h
  cases kind with
  | label => simp [word, ofWord]
  | literal =>
    have hcolon : ('#' :: text.toList).getLast? ≠ some ':' :=
      mt (getLast?_mark_iff (by decide)).mp hkind
    simp [word, ofWord, hcolon]
  | expression =>
    have hcolon : ('=' :: text.toList).getLast? ≠ some ':' :=
      mt (getLast?_mark_iff (by decide)).mp hkind
    simp [word, ofWord, hcolon]
  | name =>
    obtain ⟨_, hhash, hequals, hcolon⟩ := hkind
    rw [word, ofWord_of_unmarked hcolon hhash hequals, String.ofList_toList]
  | newline => exact hkind.elim
  | endOfFile => exact hkind.elim

/-- What a word is read as, by its first and last character. -/
theorem ofWord_cases (w : List Char) :
    (∃ cs, w = cs ++ [':'] ∧ ofWord w = ⟨.label, String.ofList cs⟩)
      ∨ w.getLast? ≠ some ':' ∧
        ((∃ cs, w = '#' :: cs ∧ ofWord w = ⟨.literal, String.ofList cs⟩)
          ∨ (∃ cs, w = '=' :: cs ∧ ofWord w = ⟨.expression, String.ofList cs⟩)
          ∨ w.head? ≠ some '#' ∧ w.head? ≠ some '=' ∧ ofWord w = ⟨.name, String.ofList w⟩) := by
  by_cases hcolon : w.getLast? = some ':'
  · left
    obtain ⟨cs, rfl⟩ := List.getLast?_eq_some_iff.mp hcolon
    exact ⟨cs, rfl, by simp [ofWord]⟩
  · right
    refine ⟨hcolon, ?_⟩
    cases w with
    | nil => exact .inr (.inr ⟨by simp, by simp, rfl⟩)
    | cons c cs =>
      by_cases hhash : c = '#'
      · subst hhash
        exact .inl ⟨cs, rfl, if_neg hcolon⟩
      by_cases hequals : c = '='
      · subst hequals
        exact .inr (.inl ⟨cs, rfl, if_neg hcolon⟩)
      have hhead : ∀ d : Char, c ≠ d → (c :: cs).head? ≠ some d := by simp
      exact .inr (.inr ⟨hhead _ hhash, hhead _ hequals,
        ofWord_of_unmarked hcolon (hhead _ hhash) (hhead _ hequals)⟩)

/-- A word is what is written for the token that it is read as. -/
theorem word_ofWord (w : List Char) : (ofWord w).word = w := by
  rcases ofWord_cases w with ⟨cs, rfl, hof⟩ | ⟨_, ⟨cs, rfl, hof⟩ | ⟨cs, rfl, hof⟩ | ⟨_, _, hof⟩⟩
  all_goals rw [hof, word, String.toList_ofList]

theorem wellFormed_ofWord {w : List Char} (hne : w ≠ []) (hw : ∀ c ∈ w, WordChar c) :
    (ofWord w).WellFormed := by
  rcases ofWord_cases w with
    ⟨cs, rfl, hof⟩ | ⟨hcolon, ⟨cs, rfl, hof⟩ | ⟨cs, rfl, hof⟩ | ⟨hhash, hequals, hof⟩⟩
  · rw [hof, WellFormed, String.toList_ofList]
    exact ⟨fun c hc => hw c (List.mem_append_left _ hc), trivial⟩
  · rw [hof, WellFormed, String.toList_ofList]
    exact ⟨fun c hc => hw c (List.mem_cons_of_mem _ hc),
      mt (getLast?_mark_iff (by decide)).mpr hcolon⟩
  · rw [hof, WellFormed, String.toList_ofList]
    exact ⟨fun c hc => hw c (List.mem_cons_of_mem _ hc),
      mt (getLast?_mark_iff (by decide)).mpr hcolon⟩
  · rw [hof, WellFormed, String.toList_ofList]
    exact ⟨hw, hne, hhash, hequals, hcolon⟩

/-- The word of a token that can be written has no character that ends it early. -/
theorem WellFormed.wordChar {t : Token} (h : t.WellFormed) : ∀ c ∈ t.word, WordChar c := by
  obtain ⟨kind, text⟩ := t
  obtain ⟨htext, hkind⟩ := h
  cases kind with
  | label =>
    intro c hc
    rcases List.mem_append.mp hc with hc | hc
    · exact htext c hc
    · rw [List.mem_singleton.mp hc]
      decide
  | literal | expression =>
    intro c hc
    rcases List.mem_cons.mp hc with rfl | hc
    · decide
    · exact htext c hc
  | name => exact htext
  | newline | endOfFile => exact hkind.elim

theorem WellFormed.word_ne_nil {t : Token} (h : t.WellFormed) : t.word ≠ [] := by
  obtain ⟨kind, text⟩ := t
  obtain ⟨_, hkind⟩ := h
  cases kind with
  | label => simp [word]
  | literal => exact List.cons_ne_nil _ _
  | expression => exact List.cons_ne_nil _ _
  | name => exact hkind.1
  | newline | endOfFile => exact hkind.elim

/-! ## Reading words -/

/-- What may follow a word: nothing, a blank or a comment. -/
def Ends (rest : List Char) : Prop := ∀ c, rest.head? = some c → c ∈ blanks ∨ c = ';'

/-- A comment is no part of a line. -/
theorem words_append_comment {line : List Char} (hline : ';' ∉ line) (text : List Char) :
    words (line ++ ';' :: text) = words line := by
  have hself := takeWhile_noComment hline []
  rw [List.append_nil] at hself
  rw [words, words, takeWhile_noComment hline, hself, List.takeWhile_cons_of_neg (by simp),
    List.takeWhile_nil]

/-- A word is read as one, whatever follows it. -/
theorem words_word_append {w rest : List Char} (hne : w ≠ []) (hw : ∀ c ∈ w, WordChar c)
    (hrest : Ends rest) : words (w ++ rest) = w :: words rest := by
  have hsemi : ';' ∉ w := fun hmem => (hw ';' hmem).2.2 rfl
  have hword : words w = [w] := words_of_word hne hsemi fun c hc => (wordChar_iff.mp (hw c hc)).1
  cases rest with
  | nil =>
    rw [List.append_nil, hword]
    rfl
  | cons c cs =>
    rcases hrest c rfl with hc | rfl
    · have hsep := (mem_blanks_iff.mp hc).1
      have hskip : words ([c] ++ cs) = words cs := words_gap_append (by simpa using hsep) cs
      rw [List.singleton_append] at hskip
      rw [words_append_gap hsemi hsep, hword, hskip, List.singleton_append]
    · rw [words_append_comment hsemi, hword]
      rfl

theorem words_blanks_append {gap : List Char} (hgap : ∀ c ∈ gap, c ∈ blanks) (rest : List Char) :
    words (gap ++ rest) = words rest :=
  words_gap_append (fun c hc => (mem_blanks_iff.mp (hgap c hc)).1) rest

end Token

/-! ## Lines -/

/-- A line as it is written. -/
structure WrittenLine where
  /-- The tokens, each with the blanks in front of it. -/
  words : List (List Char × Token)
  /-- The blanks behind the last token. -/
  trail : List Char
  /-- What stands behind the semicolon, if there is one. -/
  comment : Option (List Char)

namespace WrittenLine

open Token (blanks WordChar)

/-- What is written for a line, without the end of the line. -/
def text (l : WrittenLine) : List Char :=
  (l.words.flatMap fun w => w.1 ++ w.2.word) ++ l.trail ++ l.comment.elim [] (';' :: ·)

/-- The tokens that a line is written for. -/
def tokens (l : WrittenLine) : List Token := l.words.map Prod.snd

/-- The rules of writing. -/
structure Valid (l : WrittenLine) : Prop where
  wellFormed : ∀ w ∈ l.words, w.2.WellFormed
  gaps : ∀ w ∈ l.words, ∀ c ∈ w.1, c ∈ blanks
  /-- Only the first token may have no blank in front of it. -/
  apart : ∀ w ∈ l.words.tail, w.1 ≠ []
  trail : ∀ c ∈ l.trail, c ∈ blanks
  comment : '\n' ∉ l.comment.getD []

/-- The source text with the given lines. -/
def source (lines : List WrittenLine) : String :=
  String.ofList ((lines.map text).flatMap (· ++ ['\n']))

/-! ### Reading what is written -/

/-- Tokens with blanks between them are read as their words. -/
theorem words_flatMap {ws : List (List Char × Token)} {rest : List Char}
    (hwell : ∀ w ∈ ws, w.2.WellFormed) (hgaps : ∀ w ∈ ws, ∀ c ∈ w.1, c ∈ blanks)
    (hapart : ∀ w ∈ ws.tail, w.1 ≠ []) (hrest : Token.Ends rest) :
    Token.words ((ws.flatMap fun w => w.1 ++ w.2.word) ++ rest)
      = ws.map (fun w => w.2.word) ++ Token.words rest := by
  induction ws with
  | nil => rfl
  | cons w ws ih =>
    obtain ⟨hw, hws⟩ := List.forall_mem_cons.mp hwell
    obtain ⟨hgap, hgaps⟩ := List.forall_mem_cons.mp hgaps
    have hends : Token.Ends ((ws.flatMap fun w => w.1 ++ w.2.word) ++ rest) := by
      cases ws with
      | nil => exact hrest
      | cons w' ws =>
        -- the next token has a blank in front of it
        obtain ⟨gap, t⟩ := w'
        cases gap with
        | nil => exact absurd rfl (hapart _ List.mem_cons_self)
        | cons d ds =>
          intro c hc
          cases hc
          exact .inl (hgaps _ List.mem_cons_self _ List.mem_cons_self)
    have hih := ih hws hgaps fun w' hw' => hapart w' (List.mem_of_mem_tail hw')
    rw [List.flatMap_cons, List.append_assoc, List.append_assoc, Token.words_blanks_append hgap,
      Token.words_word_append hw.word_ne_nil hw.wordChar hends, hih]
    rfl

variable {l : WrittenLine}

/-- Behind the last token nothing is read. -/
theorem Valid.words_rest (h : l.Valid) :
    Token.Ends (l.trail ++ l.comment.elim [] (';' :: ·))
      ∧ Token.words (l.trail ++ l.comment.elim [] (';' :: ·)) = [] := by
  constructor
  · intro c hc
    cases htrail : l.trail with
    | nil =>
      rw [htrail, List.nil_append] at hc
      cases hcomment : l.comment with
      | none => simp [hcomment] at hc
      | some text =>
        rw [hcomment] at hc
        cases hc
        exact .inr rfl
    | cons d ds =>
      have hd := h.trail
      rw [htrail] at hc hd
      cases hc
      exact .inl (hd _ List.mem_cons_self)
  · rw [Token.words_blanks_append h.trail]
    cases l.comment with
    | none => rfl
    | some text => exact Token.words_append_comment List.not_mem_nil text

/-- **A line is read as the tokens it was written for.** -/
theorem Valid.ofLine_text (h : l.Valid) : Token.ofLine l.text = l.tokens ++ [.newline] := by
  obtain ⟨hends, hrest⟩ := h.words_rest
  have hwords : Token.words l.text = l.words.map (fun w => w.2.word) := by
    rw [text, List.append_assoc, words_flatMap h.wellFormed h.gaps h.apart hends, hrest,
      List.append_nil]
  have htokens : (l.words.map fun w => w.2.word).map Token.ofWord = l.tokens := by
    rw [List.map_map, tokens]
    exact List.map_congr_left fun w hw => Token.ofWord_word (h.wellFormed w hw)
  rw [Token.ofLine, hwords, htokens]

theorem Valid.newline_not_mem (h : l.Valid) : '\n' ∉ l.text := by
  have hblank : '\n' ∉ blanks := by decide
  have hword : ¬ WordChar '\n' := by decide
  intro hmem
  rcases List.mem_append.mp hmem with hmem | hmem
  · rcases List.mem_append.mp hmem with hmem | hmem
    · obtain ⟨w, hw, hmem⟩ := List.mem_flatMap.mp hmem
      rcases List.mem_append.mp hmem with hmem | hmem
      · exact hblank (h.gaps w hw _ hmem)
      · exact hword ((h.wellFormed w hw).wordChar _ hmem)
    · exact hblank (h.trail _ hmem)
  · have hcomment := h.comment
    cases hc : l.comment with
    | none => simp [hc] at hmem
    | some text =>
      rw [hc] at hmem hcomment
      rcases List.mem_cons.mp hmem with hmem | hmem
      · cases hmem
      · exact hcomment hmem

/-! ### Every line is written -/

/-- A blank goes in front of the first token. -/
theorem Valid.exists_cons_blank (h : l.Valid) {c : Char} (hc : c ∈ blanks) :
    ∃ l' : WrittenLine, l'.Valid ∧ l'.text = c :: l.text := by
  obtain ⟨ws, trail, comment⟩ := l
  obtain ⟨hwell, hgaps, hapart, htrail, hcomment⟩ := h
  cases ws with
  | nil =>
    exact ⟨⟨[], c :: trail, comment⟩,
      ⟨hwell, hgaps, hapart, List.forall_mem_cons.mpr ⟨hc, htrail⟩, hcomment⟩, rfl⟩
  | cons w ws =>
    obtain ⟨hw, hws⟩ := List.forall_mem_cons.mp hwell
    obtain ⟨hgap, hgaps⟩ := List.forall_mem_cons.mp hgaps
    exact ⟨⟨(c :: w.1, w.2) :: ws, trail, comment⟩,
      ⟨List.forall_mem_cons.mpr ⟨hw, hws⟩,
        List.forall_mem_cons.mpr ⟨List.forall_mem_cons.mpr ⟨hc, hgap⟩, hgaps⟩, hapart, htrail,
        hcomment⟩, rfl⟩

/-- Any other character begins a token, or goes in front of the one that it touches. -/
theorem Valid.exists_cons_wordChar (h : l.Valid) {c : Char} (hc : WordChar c) :
    ∃ l' : WrittenLine, l'.Valid ∧ l'.text = c :: l.text := by
  have hsingle : (Token.ofWord [c]).WellFormed :=
    Token.wellFormed_ofWord (List.cons_ne_nil _ _) (by simpa using hc)
  obtain ⟨ws, trail, comment⟩ := l
  obtain ⟨hwell, hgaps, hapart, htrail, hcomment⟩ := h
  cases ws with
  | nil =>
    refine ⟨⟨[([], Token.ofWord [c])], trail, comment⟩,
      ⟨by simpa using hsingle, by simp, by simp, htrail, hcomment⟩, ?_⟩
    simp [text, Token.word_ofWord]
  | cons w ws =>
    obtain ⟨gap, t⟩ := w
    cases gap with
    | nil =>
      obtain ⟨ht, hws⟩ := List.forall_mem_cons.mp hwell
      obtain ⟨hgap, hgaps⟩ := List.forall_mem_cons.mp hgaps
      have hlonger : (Token.ofWord (c :: t.word)).WellFormed :=
        Token.wellFormed_ofWord (List.cons_ne_nil _ _)
          (List.forall_mem_cons.mpr ⟨hc, ht.wordChar⟩)
      refine ⟨⟨([], Token.ofWord (c :: t.word)) :: ws, trail, comment⟩,
        ⟨List.forall_mem_cons.mpr ⟨hlonger, hws⟩, List.forall_mem_cons.mpr ⟨hgap, hgaps⟩, hapart,
          htrail, hcomment⟩, ?_⟩
      simp [text, Token.word_ofWord]
    | cons d ds =>
      refine ⟨⟨([], Token.ofWord [c]) :: (d :: ds, t) :: ws, trail, comment⟩,
        ⟨List.forall_mem_cons.mpr ⟨hsingle, hwell⟩, List.forall_mem_cons.mpr ⟨by simp, hgaps⟩,
          List.forall_mem_cons.mpr ⟨List.cons_ne_nil _ _, hapart⟩, htrail, hcomment⟩, ?_⟩
      simp [text, Token.word_ofWord]

/-- What is no comment can be cut into blanks and tokens. -/
theorem exists_of_code {code : List Char} (hcode : ∀ c ∈ code, c ≠ '\n' ∧ c ≠ ';')
    {comment : Option (List Char)} (hcomment : '\n' ∉ comment.getD []) :
    ∃ l : WrittenLine, l.Valid ∧ l.text = code ++ comment.elim [] (';' :: ·) := by
  induction code with
  | nil => exact ⟨⟨[], [], comment⟩, ⟨nofun, nofun, nofun, nofun, hcomment⟩, rfl⟩
  | cons c cs ih =>
    obtain ⟨hc, hcs⟩ := List.forall_mem_cons.mp hcode
    obtain ⟨l, hvalid, htext⟩ := ih hcs
    rw [List.cons_append, ← htext]
    by_cases hblank : c ∈ blanks
    · exact hvalid.exists_cons_blank hblank
    · exact hvalid.exists_cons_wordChar ⟨hblank, hc⟩

theorem exists_text_eq {line : List Char} (hline : '\n' ∉ line) :
    ∃ l : WrittenLine, l.Valid ∧ l.text = line := by
  have hne : ∀ c ∈ line, c ≠ '\n' := fun c hc h => hline (h ▸ hc)
  by_cases hsemi : ';' ∈ line
  · obtain ⟨code, comment, rfl, hcode⟩ := List.eq_append_cons_of_mem hsemi
    have hcomment : '\n' ∉ (some comment).getD [] := fun h =>
      hline (List.mem_append_right _ (List.mem_cons_of_mem _ h))
    exact exists_of_code (fun c hc => ⟨hne c (List.mem_append_left _ hc), fun h => hcode (h ▸ hc)⟩)
      hcomment
  · have hcomment : '\n' ∉ (none : Option (List Char)).getD [] := List.not_mem_nil
    obtain ⟨l, hvalid, htext⟩ :=
      exists_of_code (fun c hc => ⟨hne c hc, fun h => hsemi (h ▸ hc)⟩) hcomment
    exact ⟨l, hvalid, htext.trans (List.append_nil _)⟩

theorem exists_map_text_eq {lines : List (List Char)} (h : ∀ line ∈ lines, '\n' ∉ line) :
    ∃ ls : List WrittenLine, (∀ l ∈ ls, l.Valid) ∧ ls.map text = lines := by
  induction lines with
  | nil => exact ⟨[], by simp, rfl⟩
  | cons line lines ih =>
    obtain ⟨hline, hlines⟩ := List.forall_mem_cons.mp h
    obtain ⟨l, hvalid, htext⟩ := exists_text_eq hline
    obtain ⟨ls, hvalids, htexts⟩ := ih hlines
    refine ⟨l :: ls, List.forall_mem_cons.mpr ⟨hvalid, hvalids⟩, ?_⟩
    rw [List.map_cons, htext, htexts]

/-! ## Sources -/

end WrittenLine

namespace Token

theorem pieces_flatMap_cut {α : Type} {p : α → Bool} {cut : α} (hcut : p cut = true)
    {xss : List (List α)} (h : ∀ xs ∈ xss, ∀ x ∈ xs, p x = false) :
    pieces p (xss.flatMap (· ++ [cut])) = xss ++ [[]] := by
  induction xss with
  | nil => rfl
  | cons xs xss ih =>
    obtain ⟨hxs, hxss⟩ := List.forall_mem_cons.mp h
    rw [List.flatMap_cons, List.append_assoc, List.singleton_append, pieces_append_cut hcut,
      pieces_of_no_cut hxs, ih hxss]
    rfl

/-- Put together with the cuts between them, the pieces are the list. -/
theorem flatMap_pieces {α : Type} [DecidableEq α] (cut : α) (xs : List α) :
    (pieces (· == cut) xs).flatMap (· ++ [cut]) = xs ++ [cut] := by
  induction xs with
  | nil => rfl
  | cons x xs ih =>
    rw [pieces_cons]
    split
    · rename_i hx
      rw [List.flatMap_cons, ih, beq_iff_eq.mp hx]
      rfl
    · cases hps : pieces (· == cut) xs with
      | nil => exact absurd hps (pieces_ne_nil xs)
      | cons piece rest =>
        rw [hps, List.flatMap_cons] at ih
        rw [consPiece, List.flatMap_cons, List.cons_append, List.cons_append, ih]
        rfl

theorem sourceLines_flatMap {lines : List (List Char)} (h : ∀ line ∈ lines, '\n' ∉ line) :
    sourceLines (lines.flatMap (· ++ ['\n'])) = lines := by
  have hcut : ∀ line ∈ lines, ∀ c ∈ line, (c == '\n') = false := by
    intro line hline c hc
    rw [beq_eq_false_iff_ne]
    rintro rfl
    exact h line hline hc
  rw [sourceLines, pieces_flatMap_cut (by rfl) hcut]
  simp

theorem newline_not_mem_of_mem {line source : List Char} (h : line ∈ sourceLines source) :
    '\n' ∉ line := by
  have hpiece : line ∈ pieces (· == '\n') source := by
    unfold sourceLines at h
    dsimp only at h
    split at h
    · exact List.dropLast_subset _ h
    · exact h
  intro hmem
  have hflat := List.mem_flatten.mpr ⟨line, hpiece, hmem⟩
  rw [flatten_pieces, List.mem_filter] at hflat
  simp at hflat

/-- The number of lines of a text: that of its line ends, and one more if anything stands behind
the last of them. -/
def lineTotal (source : List Char) : Nat :=
  source.count '\n' + if source.getLast?.getD '\n' = '\n' then 0 else 1

/-- The lines of a source make up the source, but for the end of the last one. -/
theorem sourceLines_spec (source : List Char) :
    (sourceLines source).length = lineTotal source
      ∧ ((sourceLines source).flatMap (· ++ ['\n']) = source
        ∨ (sourceLines source).flatMap (· ++ ['\n']) = source ++ ['\n']) := by
  obtain ⟨init, last, hpieces⟩ : ∃ init last, pieces (· == '\n') source = init ++ [last] :=
    ⟨_, _, (List.dropLast_concat_getLast (pieces_ne_nil source)).symm⟩
  have hwhole := flatMap_pieces '\n' source
  have hsource : source = init.flatMap (· ++ ['\n']) ++ last := by
    rw [hpieces, List.flatMap_append, List.flatMap_singleton, ← List.append_assoc] at hwhole
    exact (List.append_cancel_right hwhole).symm
  have hlength : init.length = source.count '\n' := by
    have h : (pieces (· == '\n') source).length = source.count '\n' + 1 := length_pieces source
    rw [hpieces, List.length_append] at h
    exact Nat.succ.inj h
  cases last with
  | nil =>
    -- the text is empty or ends in a line end
    have hlines : sourceLines source = init := by
      rw [sourceLines, hpieces]
      simp
    have hend : source.getLast?.getD '\n' = '\n' := by
      rw [hsource, List.append_nil]
      rcases List.eq_nil_or_concat init with rfl | ⟨init', line, rfl⟩
      · rfl
      · simp
    rw [hlines, lineTotal, if_pos hend, hlength, hsource, List.append_nil]
    exact ⟨rfl, .inl rfl⟩
  | cons c cs =>
    have hlines : sourceLines source = init ++ [c :: cs] := by
      rw [sourceLines, hpieces]
      simp
    have hend : source.getLast?.getD '\n' ≠ '\n' := by
      have hclean : '\n' ∉ c :: cs := newline_not_mem_of_mem (by rw [hlines]; simp)
      have hlast : source.getLast? = some ((c :: cs).getLast (List.cons_ne_nil c cs)) := by
        rw [hsource, List.getLast?_append, List.getLast?_eq_some_getLast (List.cons_ne_nil c cs),
          Option.some_or]
      rw [hlast, Option.getD_some]
      intro h
      exact hclean (h ▸ List.getLast_mem _)
    rw [hlines, lineTotal, if_neg hend, List.length_append, hlength, ← hpieces]
    exact ⟨rfl, .inr hwhole⟩

/-- The stream for the tokens of several lines: each line is ended, and the whole is closed. -/
def stream (lines : List (List Token)) : List Token :=
  lines.flatMap (· ++ [newline]) ++ [endOfFile]

end Token

namespace WrittenLine

theorem ofLines_map_text {ls : List WrittenLine} (h : ∀ l ∈ ls, l.Valid) :
    Token.ofLines (ls.map text) = Token.stream (ls.map tokens) := by
  rw [Token.ofLines, Token.stream, List.flatMap_map, List.flatMap_map]
  congr 1
  exact List.flatMap_congr fun l hl => (h l hl).ofLine_text

theorem tokenize_source {ls : List WrittenLine} (h : ∀ l ∈ ls, l.Valid) :
    tokenize (source ls) = Token.stream (ls.map tokens) := by
  have hclean : ∀ line ∈ ls.map text, '\n' ∉ line := by
    intro line hline
    obtain ⟨l, hl, rfl⟩ := List.mem_map.mp hline
    exact (h l hl).newline_not_mem
  rw [tokenize, source, String.toList_ofList, Token.sourceLines_flatMap hclean, ofLines_map_text h]

/--
**Writing and reading are inverse.** Lines that are written by the rules are read as
their tokens, each line with its end and the whole with its own. Every source is read
as such lines, as many as it has, and it is written by the rules but for the end of its
last line. So sources that are written for the same tokens are the same program.
-/
theorem tokenize_written :
    (∀ ls : List WrittenLine, (∀ l ∈ ls, l.Valid) →
        tokenize (source ls) = Token.stream (ls.map tokens))
      ∧ (∀ text : String, ∃ ls : List WrittenLine, (∀ l ∈ ls, l.Valid)
        ∧ tokenize text = Token.stream (ls.map tokens)
        ∧ ls.length = Token.lineTotal text.toList
        ∧ (source ls = text ∨ source ls = text ++ "\n"))
      ∧ ∀ ls ls' : List WrittenLine, (∀ l ∈ ls, l.Valid) → (∀ l ∈ ls', l.Valid) →
        ls.map tokens = ls'.map tokens →
          Program.ofSource (source ls) = Program.ofSource (source ls') := by
  refine ⟨fun ls => tokenize_source, ?_, ?_⟩
  · intro s
    have hclean : ∀ line ∈ Token.sourceLines s.toList, '\n' ∉ line :=
      fun line => Token.newline_not_mem_of_mem
    obtain ⟨ls, hvalid, htexts⟩ := exists_map_text_eq hclean
    obtain ⟨hlength, hsource⟩ := Token.sourceLines_spec s.toList
    refine ⟨ls, hvalid, ?_, ?_, ?_⟩
    · rw [tokenize, ← htexts, ofLines_map_text hvalid]
    · rw [← hlength, ← htexts, List.length_map]
    · rw [source, htexts]
      refine hsource.imp ?_ ?_
      · intro h
        rw [h, String.ofList_toList]
      · intro h
        rw [h, String.ofList_append, String.ofList_toList]
  · intro ls ls' h h' htokens
    rw [Program.ofSource, Program.ofSource, tokenize_source h, tokenize_source h', htokens]

/-- Labels that look like a number or like nothing, a number that looks like an expression, and a
comment that looks like a line. -/
def disguised : List WrittenLine :=
  [⟨[(['\t'], ⟨.label, "#a"⟩), ([','], ⟨.label, ""⟩), ([' ', '['], ⟨.literal, "=4"⟩)], ['\r'],
    some [':', ';', '=', 'x', '\r']⟩, ⟨[], [], none⟩]

theorem tokenize_written_disguised :
    (∀ l ∈ disguised, l.Valid) ∧ source disguised = "\t#a:,: [#=4\r;:;=x\r\n\n"
      ∧ tokenize (source disguised)
        = [⟨.label, "#a"⟩, ⟨.label, ""⟩, ⟨.literal, "=4"⟩, .newline, .newline, .endOfFile] := by
  have hvalid : ∀ l ∈ disguised, l.Valid := by
    refine List.forall_mem_cons.mpr ⟨⟨?_, ?_, ?_, ?_, ?_⟩,
      List.forall_mem_singleton.mpr ⟨nofun, nofun, nofun, nofun, nofun⟩⟩
    · simp [Token.WellFormed, Token.WordChar, Token.blanks]
    · simp [Token.blanks]
    · simp
    · simp [Token.blanks]
    · simp
  exact ⟨hvalid, rfl, tokenize_written.1 disguised hvalid⟩

end WrittenLine

end Armlet
