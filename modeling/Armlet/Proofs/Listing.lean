import Armlet.Assembler.Program
import Armlet.Proofs.Layout
import Armlet.Proofs.LiteralPool
import Armlet.Proofs.RoundTrip

/-!
# The second pass, line by line

The lines are encoded in order and hand a literal pool on from one to the next.
`poolBefore` names the pool that a line is handed, and with it a line of a
finished pass can be looked at on its own: it was encoded at four times its
number, against the labels, into the pool it was handed.

Three facts are carried through the pass. The pools only grow, the pool begins
behind the last line, and labels stand at multiples of four. They are what the
statements of the lines need to be encodable, and so no line is ever given a
word that the machine refuses or reads as something else.
-/

namespace Armlet

namespace Statement

/-- A line that was encoded has been read. -/
theorem assemble_eq_ok {labels : SymbolTable} {pool pool' : LiteralPool} {addr : Word}
    {line : List Token} {i : Instruction} (h : assemble labels pool addr line = (.ok i, pool')) :
    ∃ s, parse labels line = .ok s ∧ s.encode pool addr = (.ok i, pool') := by
  unfold assemble at h
  split at h
  · rename_i s hs
    exact ⟨s, hs, h⟩
  · cases h

theorem extends_assemble (labels : SymbolTable) (pool : LiteralPool) (addr : Word)
    (line : List Token) : pool.Extends (assemble labels pool addr line).2 := by
  unfold assemble
  split
  · exact extends_encode _
  · exact .refl pool

end Statement

namespace Listing

variable {labels : SymbolTable} {pool pool' : LiteralPool} {index : Nat}
  {line : List Token} {rest lines : List (List Token)}

theorem ofLines_cons_ok {i : Instruction}
    (h : Statement.assemble labels pool (lineAddress index) (Token.withoutLabels line)
      = (.ok i, pool')) :
    ofLines labels pool index (line :: rest)
      = { ofLines labels pool' (index + 1) rest with
          instructions := i :: (ofLines labels pool' (index + 1) rest).instructions } := by
  rw [ofLines, h]

theorem ofLines_cons_error {e : SourceError}
    (h : Statement.assemble labels pool (lineAddress index) (Token.withoutLabels line)
      = (.error e, pool')) :
    ofLines labels pool index (line :: rest)
      = ⟨[], pool', some ((Diagnostic.ofError e).withLine (index + 1))⟩ := by
  rw [ofLines, h]

/-- The pool grows over any number of lines, whether the pass gets through them or not. -/
theorem extends_ofLines (labels : SymbolTable) (pool : LiteralPool) (index : Nat)
    (lines : List (List Token)) : pool.Extends (ofLines labels pool index lines).pool := by
  induction lines generalizing pool index with
  | nil => exact .refl pool
  | cons line rest ih =>
    have hext := Statement.extends_assemble labels pool (lineAddress index)
      (Token.withoutLabels line)
    rcases hline : Statement.assemble labels pool (lineAddress index)
      (Token.withoutLabels line) with ⟨e | i, pool'⟩
    · -- the pass ends here
      rw [ofLines_cons_error hline]
      rw [hline] at hext
      exact hext
    · rw [ofLines_cons_ok hline]
      rw [hline] at hext
      exact hext.trans (ih pool' (index + 1))

/-- The first line of a pass that got through was encoded. -/
theorem assemble_ok_of_no_failure (h : (ofLines labels pool index (line :: rest)).failure = none) :
    ∃ i pool', Statement.assemble labels pool (lineAddress index) (Token.withoutLabels line)
      = (.ok i, pool') ∧ (ofLines labels pool' (index + 1) rest).failure = none := by
  rcases hline : Statement.assemble labels pool (lineAddress index)
    (Token.withoutLabels line) with ⟨e | i, pool'⟩
  · rw [ofLines_cons_error hline] at h
    cases h
  · rw [ofLines_cons_ok hline] at h
    exact ⟨i, pool', rfl, h⟩

theorem length_instructions (h : (ofLines labels pool index lines).failure = none) :
    (ofLines labels pool index lines).instructions.length = lines.length := by
  induction lines generalizing pool index with
  | nil => rfl
  | cons line rest ih =>
    obtain ⟨i, pool', hline, hrest⟩ := assemble_ok_of_no_failure h
    rw [ofLines_cons_ok hline, List.length_cons, List.length_cons, ih hrest]

/-- Pools after more lines extend pools after fewer, whether the pass gets through them or not. -/
theorem extends_take (labels : SymbolTable) (pool : LiteralPool) (index : Nat)
    (lines : List (List Token)) {j k : Nat} (hjk : j ≤ k) :
    (ofLines labels pool index (lines.take j)).pool.Extends
      (ofLines labels pool index (lines.take k)).pool := by
  induction lines generalizing pool index j k with
  | nil =>
    rw [List.take_nil, List.take_nil]
    exact .refl _
  | cons line rest ih =>
    cases j with
    | zero => exact extends_ofLines labels pool index _
    | succ j =>
      obtain ⟨k, rfl⟩ : ∃ k', k = k' + 1 := ⟨k - 1, by omega⟩
      rw [List.take_succ_cons, List.take_succ_cons]
      rcases hline : Statement.assemble labels pool (lineAddress index)
        (Token.withoutLabels line) with ⟨e | i, pool'⟩
      · rw [ofLines_cons_error hline, ofLines_cons_error hline]
        exact .refl pool'
      · rw [ofLines_cons_ok hline, ofLines_cons_ok hline]
        exact ih pool' (index + 1) (Nat.le_of_succ_le_succ hjk)

/-- **A line of a pass that got through was encoded in the pool handed to it.** -/
theorem line_encoded (h : (ofLines labels pool index lines).failure = none) {k : Nat}
    (hk : k < lines.length) :
    ∃ i, Statement.assemble labels (ofLines labels pool index (lines.take k)).pool
        (lineAddress (index + k)) (Token.withoutLabels lines[k])
        = (.ok i, (ofLines labels pool index (lines.take (k + 1))).pool)
      ∧ (ofLines labels pool index lines).instructions[k]? = some i := by
  induction lines generalizing pool index k with
  | nil => exact absurd hk (Nat.not_lt_zero k)
  | cons line rest ih =>
    obtain ⟨i, pool', hline, hrest⟩ := assemble_ok_of_no_failure h
    cases k with
    | zero =>
      refine ⟨i, ?_, ?_⟩
      · rw [List.take_succ_cons, List.take_zero, ofLines_cons_ok hline]
        exact hline
      · rw [ofLines_cons_ok hline]
        rfl
    | succ k =>
      obtain ⟨i', hi', hget⟩ := ih hrest (Nat.lt_of_succ_lt_succ hk)
      refine ⟨i', ?_, ?_⟩
      · rw [List.take_succ_cons, List.take_succ_cons, ofLines_cons_ok hline,
          ofLines_cons_ok hline, show index + (k + 1) = index + 1 + k by omega]
        exact hi'
      · rw [ofLines_cons_ok hline]
        exact hget

end Listing

/-! ## Programs -/

namespace Program

variable {tokens : List Token} {p : Program}

/-- The pool that a line is handed: what the lines before it have left. -/
def poolBefore (tokens : List Token) (k : Nat) : LiteralPool :=
  (Listing.ofLines (Layout.ofTokens tokens).labels (.empty (Layout.ofTokens tokens).finish) 0
    ((Token.lines tokens).take k)).pool

/-- The pool after the last line. -/
def pool (tokens : List Token) : LiteralPool := poolBefore tokens (Token.lineCount tokens)

/-- The tokens of a line that its encoding is about. -/
def line (tokens : List Token) (k : Nat) : List Token :=
  Token.withoutLabels ((Token.lines tokens)[k]?.getD [])

/-- What a line is encoded to, at its address and in the pool it is handed. -/
def encodeLine (tokens : List Token) (k : Nat) : Except SourceError Instruction :=
  (Statement.assemble (Layout.ofTokens tokens).labels (poolBefore tokens k)
    (Listing.lineAddress k) (line tokens k)).1

/-- A program that fits the address space: its addresses do not wrap round. -/
def Small (tokens : List Token) : Prop :=
  4 * (Token.lineCount tokens + (pool tokens).words.length) < 0x100000000

theorem pool_eq (tokens : List Token) :
    pool tokens = (Listing.ofTokens (Layout.ofTokens tokens) tokens).pool := by
  rw [pool, poolBefore, ← Token.length_lines, List.take_length, Listing.ofTokens]

/-- What a successful assembly delivers. -/
theorem eq_of_ofTokens (h : ofTokens tokens = .ok p) :
    (Listing.ofTokens (Layout.ofTokens tokens) tokens).failure = none
      ∧ p.words = (Listing.ofTokens (Layout.ofTokens tokens) tokens).lineWords
        ++ (pool tokens).words
      ∧ p.labels = (Layout.ofTokens tokens).labels := by
  obtain ⟨words, hwords, hok⟩ := of_bind_eq_ok h
  cases hok
  unfold Listing.words at hwords
  split at hwords
  · cases hwords
  · rename_i hfail
    cases hwords
    exact ⟨hfail, by rw [pool_eq], rfl⟩

theorem ofTokens_eq_error_iff {d : Diagnostic} : ofTokens tokens = .error d
    ↔ (Listing.ofTokens (Layout.ofTokens tokens) tokens).failure = some d := by
  unfold ofTokens Listing.words
  dsimp only
  cases (Listing.ofTokens (Layout.ofTokens tokens) tokens).failure with
  | none => simp [bind, Except.bind]
  | some d' => simp [bind, Except.bind]

theorem exists_ofTokens_eq_ok_iff : (∃ p, ofTokens tokens = .ok p)
    ↔ (Listing.ofTokens (Layout.ofTokens tokens) tokens).failure = none := by
  constructor
  · rintro ⟨p, hp⟩
    exact (eq_of_ofTokens hp).1
  · intro h
    cases hp : ofTokens tokens with
    | ok p => exact ⟨p, rfl⟩
    | error d =>
      rw [ofTokens_eq_error_iff, h] at hp
      cases hp

/-- A program is known to exist once its words are. -/
theorem exists_of_map_words {ws : List Word}
    (h : (ofTokens tokens).toOption.map words = some ws) :
    ∃ p, ofTokens tokens = .ok p ∧ p.words = ws := by
  cases hp : ofTokens tokens with
  | error d =>
    rw [hp] at h
    cases h
  | ok p =>
    rw [hp] at h
    exact ⟨p, rfl, Option.some.inj h⟩

theorem length_lineWords (h : ofTokens tokens = .ok p) :
    (Listing.ofTokens (Layout.ofTokens tokens) tokens).lineWords.length
      = Token.lineCount tokens := by
  rw [Listing.lineWords, List.length_map, Listing.ofTokens,
    Listing.length_instructions (eq_of_ofTokens h).1, Token.length_lines]

theorem length_words (h : ofTokens tokens = .ok p) :
    p.words.length = Token.lineCount tokens + (pool tokens).words.length := by
  rw [(eq_of_ofTokens h).2.1, List.length_append, length_lineWords h]

/-- The pool stands behind the lines. -/
theorem drop_words (h : ofTokens tokens = .ok p) :
    p.words.drop (Token.lineCount tokens) = (pool tokens).words := by
  rw [(eq_of_ofTokens h).2.1, List.drop_left' (length_lineWords h)]

/-- Every pool on the way begins behind the last line and is a beginning of the last pool. -/
theorem extends_poolBefore {k : Nat} (hk : k ≤ Token.lineCount tokens) :
    (poolBefore tokens k).Extends (pool tokens) :=
  Listing.extends_take _ _ _ _ hk

theorem base_poolBefore (tokens : List Token) (k : Nat) :
    (poolBefore tokens k).base = Listing.lineAddress (Token.lineCount tokens) := by
  rw [poolBefore, (Listing.extends_ofLines _ _ _ _).base_eq]
  exact Layout.finish_ofTokens tokens

theorem toNat_lineAddress {k : Nat} (hk : 4 * k < 0x100000000) :
    (Listing.lineAddress k).toNat = 4 * k := by
  rw [Listing.lineAddress, BitVec.toNat_ofNat]
  omega

/-- Every line lies before the pool it is handed, and the pool within the address space. -/
theorem poolBefore_bounds (hsmall : Small tokens) {k : Nat} (hk : k < Token.lineCount tokens) :
    (Listing.lineAddress k).toNat = 4 * k
      ∧ (poolBefore tokens k).base.toNat = 4 * Token.lineCount tokens
      ∧ (Listing.lineAddress k).toNat ≤ (poolBefore tokens k).base.toNat
      ∧ (poolBefore tokens k).base.toNat + 4 * (poolBefore tokens k).words.length
        < 0x100000000 := by
  have hlen := (extends_poolBefore (Nat.le_of_lt hk)).length_le
  unfold Small at hsmall
  have haddr : (Listing.lineAddress k).toNat = 4 * k := toNat_lineAddress (by omega)
  have hbase : (poolBefore tokens k).base.toNat = 4 * Token.lineCount tokens := by
    rw [base_poolBefore, toNat_lineAddress (by omega)]
  exact ⟨haddr, hbase, by omega, by omega⟩

/-- A line is assembled in the pool it is handed, and its word stands at its place. -/
theorem line_assembled (h : ofTokens tokens = .ok p) {k : Nat} (hk : k < Token.lineCount tokens) :
    ∃ i, Statement.assemble (Layout.ofTokens tokens).labels (poolBefore tokens k)
        (Listing.lineAddress k) (line tokens k) = (.ok i, poolBefore tokens (k + 1))
      ∧ p.words[k]? = some i.encode := by
  have hk' : k < (Token.lines tokens).length := by rw [Token.length_lines]; exact hk
  obtain ⟨hfail, hwords, _⟩ := eq_of_ofTokens h
  obtain ⟨i, hassemble, hget⟩ := Listing.line_encoded hfail hk'
  refine ⟨i, ?_, ?_⟩
  · rw [Nat.zero_add] at hassemble
    rw [line, List.getElem?_eq_getElem hk', Option.getD_some]
    exact hassemble
  · rw [hwords, List.getElem?_append_left (by rw [length_lineWords h]; exact hk),
      Listing.lineWords, List.getElem?_map]
    exact congrArg (Option.map Instruction.encode) hget

/-- A line is encoded to what it says. -/
theorem encodeLine_of_encode {k : Nat} {s : Statement} {i : Instruction} {pool' : LiteralPool}
    (hparse : Statement.parse (Layout.ofTokens tokens).labels (line tokens k) = .ok s)
    (hencode : s.encode (poolBefore tokens k) (Listing.lineAddress k) = (.ok i, pool')) :
    encodeLine tokens k = .ok i := by
  rw [encodeLine, Statement.assemble, hparse]
  exact congrArg Prod.fst hencode

/--
**A line of an assembled program, all at once**: what it says, what it was encoded
to, and its word.
-/
theorem line_spec (h : ofTokens tokens = .ok p) (hsmall : Small tokens) {k : Nat}
    (hk : k < Token.lineCount tokens) :
    ∃ s i, Statement.parse (Layout.ofTokens tokens).labels (line tokens k) = .ok s
      ∧ s.Legal (Layout.ofTokens tokens).labels
      ∧ s.encode (poolBefore tokens k) (Listing.lineAddress k) = (.ok i, poolBefore tokens (k + 1))
      ∧ i.Encodable ∧ p.words[k]? = some i.encode := by
  obtain ⟨i, hassemble, hword⟩ := line_assembled h hk
  obtain ⟨s, hparse, hencode⟩ := Statement.assemble_eq_ok hassemble
  have hlegal := Statement.parse_legal hparse
  -- the three facts that are carried through the pass
  obtain ⟨haddr, _, hle, hsize⟩ := poolBefore_bounds hsmall hk
  have hencodable : i.Encodable :=
    Statement.encodable_of_encode hlegal (fun _ _ => Layout.aligned_labels)
      (by omega) hle hsize (congrArg Prod.fst hencode)
  exact ⟨s, i, hparse, hlegal, hencode, hencodable, hword⟩

/--
**The machine reads every line as the instruction the assembler meant.**

An assembled program is one word for each line and then the literal pool. The
word of a line decodes to the very instruction its line was encoded to, with no
field changed; so no line is given a word that is refused or read as something
else.
-/
theorem words_decode (h : ofTokens tokens = .ok p) (hsmall : Small tokens) :
    p.words.length = Token.lineCount tokens + (pool tokens).words.length
      ∧ (∀ k, k < Token.lineCount tokens → ∃ i, encodeLine tokens k = .ok i
        ∧ p.words[k]? = some i.encode ∧ Instruction.decode? i.encode = some i)
      ∧ p.words.drop (Token.lineCount tokens) = (pool tokens).words := by
  refine ⟨length_words h, ?_, drop_words h⟩
  intro k hk
  obtain ⟨s, i, hparse, _, hencode, hencodable, hword⟩ := line_spec h hsmall hk
  exact ⟨i, encodeLine_of_encode hparse hencode, hword,
    Instruction.decode?_encode_of_encodable hencodable⟩

/-- A constant from the pool, a branch forward, and a store below its base. -/
def sample : List Token := tokenize "ldr r0, =0x12345\nb x\nx: str r0, [r1, #-4]\n"

theorem words_decode_sample :
    ∃ p, ofTokens sample = .ok p ∧ Small sample
      ∧ p.words = [0xE59F000C, 0xEAFFFFFF, 0xE5010004, 0x12345]
      ∧ p.words.length = Token.lineCount sample + (pool sample).words.length
      ∧ (∀ k, k < Token.lineCount sample → ∃ i, encodeLine sample k = .ok i
        ∧ p.words[k]? = some i.encode ∧ Instruction.decode? i.encode = some i)
      ∧ p.words.drop (Token.lineCount sample) = (pool sample).words := by
  have hmap : (ofTokens sample).toOption.map words
      = some [0xE59F000C, 0xEAFFFFFF, 0xE5010004, 0x12345] := by decide +kernel
  obtain ⟨p, h, hwords⟩ := exists_of_map_words hmap
  have hsmall : Small sample := by unfold Small; decide +kernel
  exact ⟨p, h, hsmall, hwords, words_decode h hsmall⟩

end Program

end Armlet
