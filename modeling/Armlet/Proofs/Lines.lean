import Armlet.Proofs.Layout

/-!
# A token stream, part by part

Up to its first end-of-file token a stream is cut into parts at the ends of
lines. All parts but the last are the lines that the second pass encodes; the
last one is an unfinished line, which is empty for every source text but need
not be for other streams.

The first pass never forms these parts. It walks over the tokens with an address
in its hand. `Layout.bindings_scan` says that it comes to the same thing: the
labels it binds are those of the parts, one part after the other, each with four
times the number of its part. From there on labels are a matter of parts alone,
and `lastPart?` finds the part that decides what a name stands for.
-/

namespace Armlet

/-- The pieces put together are the list without the cuts. -/
theorem flatten_pieces {α : Type} {p : α → Bool} (xs : List α) :
    (pieces p xs).flatten = xs.filter fun x => !p x := by
  induction xs with
  | nil => rfl
  | cons x xs ih =>
    rw [pieces_cons]
    split
    · rename_i hx
      rw [List.filter_cons_of_neg (by simp [hx]), ← ih, List.flatten_cons, List.nil_append]
    · rename_i hx
      rw [List.filter_cons_of_pos (by simpa using hx), ← ih]
      cases hps : pieces p xs with
      | nil => exact absurd hps (pieces_ne_nil xs)
      | cons piece rest => rfl

namespace Token

/-- The lines of a stream, and behind them the unfinished one. -/
def parts (tokens : List Token) : List (List Token) :=
  pieces (·.kind == .newline) (tokens.takeWhile (·.kind != .endOfFile))

theorem parts_ne_nil (tokens : List Token) : parts tokens ≠ [] := pieces_ne_nil _

/-- What stands behind the last end of line. -/
def unfinished (tokens : List Token) : List Token := (parts tokens).getLast (parts_ne_nil tokens)

theorem lines_concat_unfinished (tokens : List Token) :
    lines tokens ++ [unfinished tokens] = parts tokens :=
  List.dropLast_concat_getLast (parts_ne_nil tokens)

theorem length_parts (tokens : List Token) : (parts tokens).length = lineCount tokens + 1 := by
  rw [← lines_concat_unfinished, List.length_append, length_lines, List.length_singleton]

theorem exists_mem_parts {tokens : List Token} {t : Token} :
    (∃ part ∈ parts tokens, t ∈ part)
      ↔ t ∈ tokens.takeWhile (·.kind != .endOfFile) ∧ t.kind ≠ .newline := by
  rw [← List.mem_flatten, parts, flatten_pieces, List.mem_filter, Bool.not_eq_true',
    beq_eq_false_iff_ne]

theorem parts_of_endOfFile {t : Token} (h : t.kind = .endOfFile) (ts : List Token) :
    parts (t :: ts) = [[]] := by
  rw [parts, List.takeWhile_cons_of_neg (by simp [h]), pieces_nil]

theorem parts_of_newline {t : Token} (h : t.kind = .newline) (ts : List Token) :
    parts (t :: ts) = [] :: parts ts := by
  rw [parts, List.takeWhile_cons_of_pos (by simp [h]), pieces_cons, if_pos (by simp [h]), parts]

/-- Any other token goes to the front of the part that comes next. -/
theorem parts_of_word {t : Token} (heof : t.kind ≠ .endOfFile) (hnl : t.kind ≠ .newline)
    (ts : List Token) :
    ∃ part rest, parts ts = part :: rest ∧ parts (t :: ts) = (t :: part) :: rest := by
  have hcons : parts (t :: ts) = consPiece t (parts ts) := by
    rw [parts, List.takeWhile_cons_of_pos (by simpa using heof), pieces_cons,
      if_neg (by simpa using hnl), parts]
  cases hparts : parts ts with
  | nil => exact absurd hparts (parts_ne_nil ts)
  | cons part rest => exact ⟨part, rest, rfl, by rw [hcons, hparts, consPiece]⟩

/-- Tokens that stay within a line, closed by the end of the line. -/
theorem parts_append_newline {line : List Token}
    (hline : ∀ t ∈ line, t.kind ≠ .endOfFile ∧ t.kind ≠ .newline) {nl : Token}
    (hnl : nl.kind = .newline) (ts : List Token) :
    parts (line ++ nl :: ts) = line :: parts ts := by
  induction line with
  | nil => exact parts_of_newline hnl ts
  | cons t line ih =>
    obtain ⟨heof, hnot⟩ := hline t List.mem_cons_self
    obtain ⟨part, rest, hrest, hcons⟩ := parts_of_word heof hnot (line ++ nl :: ts)
    rw [ih fun s hs => hline s (List.mem_cons_of_mem t hs)] at hrest
    obtain ⟨rfl, rfl⟩ := List.cons.inj hrest
    exact hcons

/-! ## Labels -/

/-- The labels of a line. -/
def labelsOf (line : List Token) : List Token := line.filter (·.kind == .label)

/-- A line on which a name is bound. -/
def Binds (line : List Token) (name : String) : Prop := ∃ t ∈ line, t.kind = .label ∧ t.text = name

instance (line : List Token) (name : String) : Decidable (Binds line name) :=
  inferInstanceAs (Decidable (∃ t ∈ line, _))

theorem binds_iff {line : List Token} {name : String} :
    Binds line name ↔ ∃ t ∈ labelsOf line, t.text = name := by
  simp [Binds, labelsOf, and_assoc]

/-- The names that are bound are the labels before the first end of file. -/
theorem exists_binds_iff {tokens : List Token} {name : String} :
    (∃ part ∈ parts tokens, Binds part name)
      ↔ ∃ t ∈ tokens.takeWhile (·.kind != .endOfFile), t.kind = .label ∧ t.text = name := by
  constructor
  · rintro ⟨part, hpart, t, ht, hname⟩
    exact ⟨t, (exists_mem_parts.mp ⟨part, hpart, ht⟩).1, hname⟩
  · rintro ⟨t, ht, hlabel, hname⟩
    obtain ⟨part, hpart, hmem⟩ := exists_mem_parts.mpr ⟨ht, by simp [hlabel]⟩
    exact ⟨part, hpart, t, hmem, hlabel, hname⟩

/-- The number of the last part on which a name is bound. -/
def lastPart? (name : String) : List (List Token) → Option Nat
  | [] => none
  | part :: rest =>
    match lastPart? name rest with
    | some k => some (k + 1)
    | none => if Binds part name then some 0 else none

theorem lastPart?_eq_none_iff {name : String} {ps : List (List Token)} :
    lastPart? name ps = none ↔ ∀ part ∈ ps, ¬ Binds part name := by
  induction ps with
  | nil => simp [lastPart?]
  | cons part rest ih =>
    rw [lastPart?, List.forall_mem_cons, ← ih]
    cases lastPart? name rest with
    | none => simp
    | some k => simp

theorem lastPart?_eq_some_iff {name : String} {ps : List (List Token)} {k : Nat} :
    lastPart? name ps = some k ↔ (∃ part, ps[k]? = some part ∧ Binds part name)
      ∧ ∀ j part, k < j → ps[j]? = some part → ¬ Binds part name := by
  induction ps generalizing k with
  | nil => simp [lastPart?]
  | cons part rest ih =>
    rw [lastPart?]
    cases hrest : lastPart? name rest with
    | some m =>
      obtain ⟨hfound, hlater⟩ := ih.mp hrest
      constructor
      · intro h
        cases h
        refine ⟨hfound, ?_⟩
        intro j part' hj hget
        obtain ⟨j, rfl⟩ : ∃ j', j = j' + 1 := ⟨j - 1, by omega⟩
        exact hlater j part' (Nat.lt_of_succ_lt_succ hj) hget
      · -- the last part with a binding is behind the first one, where `m` says it is
        rintro ⟨hfound', hlater'⟩
        cases k with
        | zero =>
          obtain ⟨part', hget, hbinds⟩ := hfound
          exact absurd hbinds (hlater' (m + 1) part' (Nat.succ_pos m) hget)
        | succ k =>
          have hk : lastPart? name rest = some k := by
            refine ih.mpr ⟨hfound', ?_⟩
            intro j part' hj hget
            exact hlater' (j + 1) part' (Nat.succ_lt_succ hj) hget
          rw [hrest] at hk
          rw [Option.some.inj hk]
    | none =>
      have hnone := lastPart?_eq_none_iff.mp hrest
      constructor
      · intro h
        dsimp only at h
        split at h
        · rename_i hbinds
          cases h
          refine ⟨⟨part, rfl, hbinds⟩, ?_⟩
          intro j part' hj hget
          obtain ⟨j, rfl⟩ : ∃ j', j = j' + 1 := ⟨j - 1, by omega⟩
          exact hnone part' (List.mem_of_getElem? hget)
        · cases h
      · rintro ⟨⟨part', hget, hbinds⟩, _⟩
        cases k with
        | zero =>
          cases hget
          exact if_pos hbinds
        | succ k => exact absurd hbinds (hnone part' (List.mem_of_getElem? hget))

/-- The last part on which a name is bound is a line or the unfinished one. -/
theorem lastPart?_le_lineCount {tokens : List Token} {name : String} {k : Nat}
    (h : lastPart? name (parts tokens) = some k) : k ≤ lineCount tokens := by
  obtain ⟨⟨part, hget, _⟩, _⟩ := lastPart?_eq_some_iff.mp h
  obtain ⟨hlt, _⟩ := List.getElem?_eq_some_iff.mp hget
  rw [length_parts] at hlt
  exact Nat.le_of_lt_succ hlt

end Token

/-! ## What the first pass binds -/

namespace SymbolTable

theorem insertAll_append (table : SymbolTable) (bs bs' : List (String × Word)) :
    table.insertAll (bs ++ bs') = (table.insertAll bs).insertAll bs' := List.foldl_append

/-- Binding names to one address. -/
theorem find?_insertAll_const {table : SymbolTable} {names : List String} {addr : Word}
    {name : String} :
    (table.insertAll (names.map fun n => (n, addr))).find? name
      = if name ∈ names then some addr else table.find? name := by
  induction names generalizing table with
  | nil => rfl
  | cons n names ih =>
    change ((table.insert n addr).insertAll (names.map fun n => (n, addr))).find? name = _
    rw [ih, find?_insert]
    by_cases hmem : name ∈ names
    · rw [if_pos hmem, if_pos (List.mem_cons_of_mem n hmem)]
    · rw [if_neg hmem]
      by_cases hn : n = name
      · rw [if_pos hn, if_pos (hn ▸ List.mem_cons_self)]
      · rw [if_neg hn, if_neg (by simp [hmem, Ne.symm hn])]

end SymbolTable

namespace Layout

/-- The bindings of parts of which the first has the number `index`. -/
def bindingsFrom (index : Nat) : List (List Token) → List (String × Word)
  | [] => []
  | part :: rest =>
    ((Token.labelsOf part).map (·.text)).map (fun name => (name, Listing.lineAddress index))
      ++ bindingsFrom (index + 1) rest

theorem lineAddress_succ (index : Nat) :
    Listing.lineAddress (index + 1) = Listing.lineAddress index + 4 := by
  unfold Listing.lineAddress
  apply BitVec.eq_of_toNat_eq
  simp only [BitVec.toNat_ofNat, BitVec.toNat_add, show (4 : Word).toNat = 4 from rfl]
  omega

/-- **The first pass binds the labels of each part to the address of the part.** -/
theorem bindings_scan (tokens : List Token) (index : Nat) :
    (scan (Listing.lineAddress index) tokens).bindings
      = bindingsFrom index (Token.parts tokens) := by
  -- the address in the hand of the pass is always that of the part which comes next
  induction tokens generalizing index with
  | nil => rfl
  | cons t ts ih =>
    rw [scan]
    split
    · rename_i hkind
      obtain ⟨part, rest, hparts, hcons⟩ := Token.parts_of_word (t := t) (by simp [hkind])
        (by simp [hkind]) ts
      dsimp only
      rw [ih, hparts, hcons]
      simp [bindingsFrom, Token.labelsOf, hkind]
    · rename_i hkind
      rw [← lineAddress_succ, ih, Token.parts_of_newline hkind]
      rfl
    · rename_i hkind
      rw [Token.parts_of_endOfFile hkind]
      rfl
    · rename_i hlabel hnewline heof
      obtain ⟨part, rest, hparts, hcons⟩ := Token.parts_of_word heof hnewline ts
      have hfilter : Token.labelsOf (t :: part) = Token.labelsOf part :=
        List.filter_cons_of_neg (by simpa using hlabel)
      rw [ih, hparts, hcons, bindingsFrom, bindingsFrom, hfilter]

theorem bindings_ofTokens (tokens : List Token) :
    (ofTokens tokens).bindings = bindingsFrom 0 (Token.parts tokens) :=
  bindings_scan tokens 0

theorem find?_insertAll_bindingsFrom (table : SymbolTable) (index : Nat)
    (ps : List (List Token)) (name : String) :
    (table.insertAll (bindingsFrom index ps)).find? name
      = ((Token.lastPart? name ps).map fun k => Listing.lineAddress (index + k)).or
        (table.find? name) := by
  induction ps generalizing table index with
  | nil => rfl
  | cons part rest ih =>
    have hbinds : name ∈ (Token.labelsOf part).map (·.text) ↔ Token.Binds part name := by
      rw [Token.binds_iff, List.mem_map]
    rw [bindingsFrom, SymbolTable.insertAll_append, ih, SymbolTable.find?_insertAll_const,
      Token.lastPart?]
    cases Token.lastPart? name rest with
    | some k =>
      -- a later part decides
      simp [Nat.add_assoc, Nat.add_comm 1 k]
    | none =>
      by_cases hpart : Token.Binds part name
      · simp [hbinds.mpr hpart, hpart]
      · rw [if_neg (mt hbinds.mp hpart), if_neg hpart]
        rfl

/-- **A name stands for the address of the last part that binds it.** -/
theorem find?_labels (tokens : List Token) (name : String) :
    (ofTokens tokens).labels.find? name
      = (Token.lastPart? name (Token.parts tokens)).map Listing.lineAddress := by
  rw [labels, bindings_ofTokens, find?_insertAll_bindingsFrom, SymbolTable.find?_empty,
    Option.or_none]
  simp

end Layout

/-! ## Source texts -/

namespace Token

theorem kind_ofWord (word : List Char) :
    (ofWord word).kind ≠ .endOfFile ∧ (ofWord word).kind ≠ .newline := by
  unfold ofWord
  split
  · simp
  · split <;> simp

/-- The tokens of the words of a line. -/
def wordTokens (line : List Char) : List Token := (words line).map ofWord

theorem parts_ofLines (ls : List (List Char)) :
    parts (ofLines ls) = ls.map wordTokens ++ [[]] := by
  induction ls with
  | nil => exact parts_of_endOfFile rfl []
  | cons l ls ih =>
    have hofLines : ofLines (l :: ls) = wordTokens l ++ newline :: ofLines ls := by
      simp [ofLines, ofLine, wordTokens]
    have hline : ∀ t ∈ wordTokens l, t.kind ≠ .endOfFile ∧ t.kind ≠ .newline := by
      intro t ht
      obtain ⟨word, _, rfl⟩ := List.mem_map.mp ht
      exact kind_ofWord word
    rw [hofLines, parts_append_newline hline rfl, ih, List.map_cons, List.cons_append]

/-- The lines of a source text are its lines, word by word, and none is left unfinished. -/
theorem parts_tokenize (source : String) :
    parts (tokenize source) = (sourceLines source.toList).map wordTokens ++ [[]] :=
  parts_ofLines _

theorem lines_tokenize (source : String) :
    lines (tokenize source) = (sourceLines source.toList).map wordTokens := by
  have hparts := parts_tokenize source
  rw [← lines_concat_unfinished] at hparts
  exact (List.append_inj' hparts rfl).1

theorem unfinished_tokenize (source : String) : unfinished (tokenize source) = [] := by
  have hparts := parts_tokenize source
  rw [← lines_concat_unfinished] at hparts
  exact List.singleton_inj.mp (List.append_inj' hparts rfl).2

end Token

end Armlet
