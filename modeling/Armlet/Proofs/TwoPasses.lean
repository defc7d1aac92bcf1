import Armlet.Proofs.Lines
import Armlet.Proofs.Listing

/-!
# The two passes agree

The first pass counts ends of lines and gives addresses to labels, the second
cuts the tokens into lines and gives addresses to instructions. Nothing is handed
from one to the other but the table of labels and the address at the end, so a
program hangs together only because both count alike.

They do, on every stream: `PassesAgree` lists what that means. It takes an
address space that the lines fit into, and nothing else. Labels may be bound
twice, share a line, stand in the middle of one or behind the last one, and
end-of-file tokens may be missing or misplaced.

The second pass is described here as the loop it is, with an address that counts
up by a word a line. A source text leaves no line unfinished, so each of its
labels stands for a line, and for no word of the literal pool.
-/

namespace Armlet

/-! ## The second pass as a loop -/

namespace Listing

/-- Takes in what a line was encoded to, unless the pass has broken off. -/
def extend (listing : Listing) (outcome : Except SourceError Instruction × LiteralPool) :
    Listing :=
  match listing.failure, outcome with
  | some _, _ => listing
  | none, (.ok i, pool) => ⟨listing.instructions ++ [i], pool, none⟩
  | none, (.error e, pool) =>
    ⟨listing.instructions, pool, some ⟨e, some (listing.instructions.length + 1)⟩⟩

/-- The second pass between two lines, with the address it has come to. -/
structure Cursor where
  listing : Listing
  addr : Word

namespace Cursor

/-- Encodes the next line at the address of the cursor, and goes on by a word. -/
def next (labels : SymbolTable) (c : Cursor) (line : List Token) : Cursor where
  listing := c.listing.extend
    (Statement.assemble labels c.listing.pool c.addr (Token.withoutLabels line))
  addr := c.addr + 4

/-- The cursor in front of the line number `k`. -/
def before (tokens : List Token) (k : Nat) : Cursor :=
  ((Token.lines tokens).take k).foldl (next (Layout.ofTokens tokens).labels)
    ⟨⟨[], .empty (Layout.ofTokens tokens).finish, none⟩, 0⟩

theorem listing_foldl_of_failure {labels : SymbolTable} {c : Cursor} {d : Diagnostic}
    (h : c.listing.failure = some d) (lines : List (List Token)) :
    (lines.foldl (next labels) c).listing = c.listing := by
  induction lines generalizing c with
  | nil => rfl
  | cons line rest ih =>
    have hnext : (c.next labels line).listing = c.listing := by
      simp only [next, extend, h]
    rw [List.foldl_cons, ih (hnext ▸ h), hnext]

/-- The loop goes on where it stands as the pass goes on from there. -/
theorem listing_foldl {labels : SymbolTable} (lines : List (List Token)) {c : Cursor}
    (hfail : c.listing.failure = none)
    (haddr : c.addr = lineAddress c.listing.instructions.length) :
    (lines.foldl (next labels) c).listing
      = { ofLines labels c.listing.pool c.listing.instructions.length lines with
          instructions := c.listing.instructions ++ (ofLines labels c.listing.pool
            c.listing.instructions.length lines).instructions } := by
  obtain ⟨⟨is, pool, failure⟩, addr⟩ := c
  dsimp only at hfail haddr ⊢
  subst hfail haddr
  induction lines generalizing is pool with
  | nil => simp [ofLines]
  | cons line rest ih =>
    rcases hline : Statement.assemble labels pool (lineAddress is.length)
      (Token.withoutLabels line) with ⟨e | i, pool'⟩
    · -- the pass breaks off here, and the loop changes nothing any more
      have hnext : (next labels ⟨⟨is, pool, none⟩, lineAddress is.length⟩ line).listing
          = ⟨is, pool', some ⟨e, some (is.length + 1)⟩⟩ := by
        simp only [next, hline, extend]
      rw [List.foldl_cons, listing_foldl_of_failure (congrArg Listing.failure hnext) rest, hnext,
        ofLines_cons_error hline, List.append_nil]
      rfl
    · have hnext : next labels ⟨⟨is, pool, none⟩, lineAddress is.length⟩ line
          = ⟨⟨is ++ [i], pool', none⟩, lineAddress (is ++ [i]).length⟩ := by
        simp only [next, hline, extend, List.length_append, List.length_singleton,
          Layout.lineAddress_succ]
      rw [List.foldl_cons, hnext, ih, ofLines_cons_ok hline]
      simp [List.append_assoc]

theorem addr_foldl {labels : SymbolTable} (lines : List (List Token)) (c : Cursor) (index : Nat)
    (h : c.addr = lineAddress index) :
    (lines.foldl (next labels) c).addr = lineAddress (index + lines.length) := by
  induction lines generalizing c index with
  | nil => exact h
  | cons line rest ih =>
    have hnext : (c.next labels line).addr = lineAddress (index + 1) := by
      rw [next, h, Layout.lineAddress_succ]
    rw [List.foldl_cons, ih _ (index + 1) hnext, List.length_cons, Nat.add_assoc,
      Nat.add_comm 1]

theorem addr_before {tokens : List Token} {k : Nat} (hk : k ≤ (Token.lines tokens).length) :
    (before tokens k).addr = lineAddress k := by
  rw [before, addr_foldl _ _ 0 rfl, List.length_take, Nat.min_eq_left hk, Nat.zero_add]

/-- The loop has done what the pass does once it is behind the last line. -/
theorem listing_before (tokens : List Token) :
    (before tokens (Token.lines tokens).length).listing
      = ofTokens (Layout.ofTokens tokens) tokens := by
  rw [before, List.take_length, listing_foldl _ rfl rfl]
  rfl

end Cursor

end Listing

/-- The words of an assembled program begin with those of its lines. -/
theorem Program.encodeLine_of_ofTokens {tokens : List Token} {p : Program}
    (h : ofTokens tokens = .ok p) {k : Nat} (hk : k < Token.lineCount tokens) :
    ∃ i, encodeLine tokens k = .ok i ∧ p.words[k]? = some i.encode := by
  obtain ⟨i, hassemble, hword⟩ := line_assembled h hk
  exact ⟨i, congrArg Prod.fst hassemble, hword⟩

/-! ## Agreement -/

/-- What the two passes have to agree on. -/
structure PassesAgree (tokens : List Token) : Prop where
  /-- The first pass ends behind the lines that the second one cuts. -/
  finish : (Layout.ofTokens tokens).finish.toNat = 4 * (Token.lines tokens).length
  /-- The second pass comes to the line number `k` with the address `4 * k`. -/
  line_address : ∀ k, k ≤ (Token.lines tokens).length →
    (Listing.Cursor.before tokens k).addr.toNat = 4 * k
  /-- Behind the last line it has made the listing of the program. -/
  listing : (Listing.Cursor.before tokens (Token.lines tokens).length).listing
    = Listing.ofTokens (Layout.ofTokens tokens) tokens
  /-- A name is bound iff it is a label before the first end of file. -/
  bound_iff : ∀ name, (∃ addr, (Layout.ofTokens tokens).labels.find? name = some addr)
    ↔ ∃ t ∈ tokens.takeWhile (·.kind != .endOfFile), t.kind = .label ∧ t.text = name
  /-- It stands for the last line that binds it, or for the end if that is behind every line. -/
  label_address : ∀ name addr, (Layout.ofTokens tokens).labels.find? name = some addr
    ↔ ∃ k part, (Token.lines tokens ++ [Token.unfinished tokens])[k]? = some part
      ∧ Token.Binds part name
      ∧ (∀ j later, k < j →
        (Token.lines tokens ++ [Token.unfinished tokens])[j]? = some later →
        ¬ Token.Binds later name)
      ∧ addr.toNat = 4 * k
  /-- Nothing behind the first end of file makes a difference. -/
  cut : ∀ tokens', tokens'.takeWhile (·.kind != .endOfFile)
      = tokens.takeWhile (·.kind != .endOfFile) →
    Layout.ofTokens tokens' = Layout.ofTokens tokens
      ∧ Token.lines tokens' = Token.lines tokens
      ∧ Program.ofTokens tokens' = Program.ofTokens tokens

/-- A stream whose every label stands for a line, and for no constant. -/
structure LabelsOnLines (tokens : List Token) : Prop where
  inside : ∀ name addr, (Layout.ofTokens tokens).labels.find? name = some addr →
    addr.toNat % 4 = 0 ∧ addr.toNat < (Layout.ofTokens tokens).finish.toNat
  /-- The word at the address of a label is that of a line. -/
  word : ∀ p name addr, Program.ofTokens tokens = .ok p →
    (Layout.ofTokens tokens).labels.find? name = some addr →
    ∃ i, Program.encodeLine tokens (addr.toNat / 4) = .ok i
      ∧ p.words[addr.toNat / 4]? = some i.encode
  /-- The constants are the words from the end of the lines on. -/
  not_pool : ∀ p name addr j, Program.ofTokens tokens = .ok p →
    (Layout.ofTokens tokens).labels.find? name = some addr →
    j < (Program.pool tokens).words.length →
    p.words[(Token.lines tokens).length + j]? = (Program.pool tokens).words[j]?
      ∧ addr.toNat ≠ 4 * ((Token.lines tokens).length + j)

namespace Layout

variable {tokens tokens' : List Token}

/-- The first pass looks at nothing behind the first end of file. -/
theorem scan_takeWhile (tokens : List Token) (addr : Word) :
    scan addr (tokens.takeWhile (·.kind != .endOfFile)) = scan addr tokens := by
  induction tokens generalizing addr with
  | nil => rfl
  | cons t ts ih =>
    by_cases heof : t.kind = .endOfFile
    · rw [List.takeWhile_cons_of_neg (by simp [heof])]
      simp only [scan, heof]
    · rw [List.takeWhile_cons_of_pos (by simpa using heof)]
      simp only [scan, ih]

theorem ofTokens_congr (h : tokens'.takeWhile (·.kind != .endOfFile)
    = tokens.takeWhile (·.kind != .endOfFile)) : ofTokens tokens' = ofTokens tokens := by
  rw [ofTokens, ofTokens, ← scan_takeWhile, h, scan_takeWhile]

theorem find?_eq_some_iff (h : Token.lineCount tokens < 0x40000000) {name : String}
    {addr : Word} : (ofTokens tokens).labels.find? name = some addr
      ↔ ∃ k, Token.lastPart? name (Token.parts tokens) = some k ∧ addr.toNat = 4 * k := by
  rw [find?_labels, Option.map_eq_some_iff]
  refine exists_congr fun k => and_congr_right fun hk => ?_
  -- the number of a part is at most that of the lines, so its address does not wrap round
  have hle := Token.lastPart?_le_lineCount hk
  have haddr : (Listing.lineAddress k).toNat = 4 * k :=
    Program.toNat_lineAddress (by omega)
  rw [← haddr, BitVec.toNat_inj, eq_comm]

end Layout

theorem PassesAgree.of_lineCount {tokens : List Token}
    (h : Token.lineCount tokens < 0x40000000) : PassesAgree tokens where
  finish := by
    rw [Layout.finish_ofTokens, Token.length_lines, Program.toNat_lineAddress (by omega)]
  line_address := by
    intro k hk
    rw [Listing.Cursor.addr_before hk]
    rw [Token.length_lines] at hk
    exact Program.toNat_lineAddress (by omega)
  listing := Listing.Cursor.listing_before tokens
  bound_iff := by
    intro name
    rw [← Token.exists_binds_iff]
    constructor
    · rintro ⟨addr, haddr⟩
      obtain ⟨k, hk, _⟩ := (Layout.find?_eq_some_iff h).mp haddr
      obtain ⟨⟨part, hget, hbinds⟩, _⟩ := Token.lastPart?_eq_some_iff.mp hk
      exact ⟨part, List.mem_of_getElem? hget, hbinds⟩
    · rintro ⟨part, hmem, hbinds⟩
      rw [Layout.find?_labels]
      cases hk : Token.lastPart? name (Token.parts tokens) with
      | none => exact absurd hbinds (Token.lastPart?_eq_none_iff.mp hk part hmem)
      | some k => exact ⟨_, rfl⟩
  label_address := by
    intro name addr
    rw [Layout.find?_eq_some_iff h, Token.lines_concat_unfinished]
    constructor
    · rintro ⟨k, hk, haddr⟩
      obtain ⟨⟨part, hget, hbinds⟩, hlater⟩ := Token.lastPart?_eq_some_iff.mp hk
      exact ⟨k, part, hget, hbinds, hlater, haddr⟩
    · rintro ⟨k, part, hget, hbinds, hlater, haddr⟩
      exact ⟨k, Token.lastPart?_eq_some_iff.mpr ⟨⟨part, hget, hbinds⟩, hlater⟩, haddr⟩
  cut := by
    intro tokens' hcut
    have hlayout := Layout.ofTokens_congr hcut
    have hlines : Token.lines tokens' = Token.lines tokens := by
      rw [Token.lines, Token.lines, hcut]
    refine ⟨hlayout, hlines, ?_⟩
    rw [Program.ofTokens, Program.ofTokens, Listing.ofTokens, Listing.ofTokens, hlayout, hlines]

theorem LabelsOnLines.of_unfinished {tokens : List Token}
    (h : Token.lineCount tokens < 0x40000000)
    (hnone : ∀ name, ¬ Token.Binds (Token.unfinished tokens) name) : LabelsOnLines tokens := by
  -- the last part binds nothing, so the part of a label is a line
  have hline : ∀ name addr, (Layout.ofTokens tokens).labels.find? name = some addr →
      ∃ k, k < Token.lineCount tokens ∧ addr.toNat = 4 * k := by
    intro name addr hfind
    obtain ⟨k, part, hget, hbinds, _, haddr⟩ :=
      ((PassesAgree.of_lineCount h).label_address name addr).mp hfind
    refine ⟨k, ?_, haddr⟩
    rcases Nat.lt_or_ge k (Token.lines tokens).length with hlt | hge
    · rwa [← Token.length_lines]
    · rw [List.getElem?_append_right hge] at hget
      rw [List.mem_singleton.mp (List.mem_of_getElem? hget)] at hbinds
      exact absurd hbinds (hnone name)
  constructor
  case inside =>
    intro name addr hfind
    obtain ⟨k, hk, haddr⟩ := hline name addr hfind
    rw [(PassesAgree.of_lineCount h).finish, Token.length_lines]
    omega
  case word =>
    intro p name addr hp hfind
    obtain ⟨k, hk, haddr⟩ := hline name addr hfind
    rw [haddr, Nat.mul_div_cancel_left k (by decide)]
    exact Program.encodeLine_of_ofTokens hp hk
  case not_pool =>
    intro p name addr j hp hfind hj
    obtain ⟨k, hk, haddr⟩ := hline name addr hfind
    rw [Token.length_lines]
    refine ⟨?_, by omega⟩
    rw [← Program.drop_words hp, List.getElem?_drop]

/--
**The two passes agree**, on every stream of fewer than `2 ^ 30` lines; and in a
source text every label stands for a line, so that it never denotes a constant.
-/
theorem Program.passes_agree {tokens : List Token} (h : Token.lineCount tokens < 0x40000000) :
    PassesAgree tokens ∧ ∀ source, tokens = tokenize source → LabelsOnLines tokens := by
  refine ⟨.of_lineCount h, ?_⟩
  rintro source rfl
  refine .of_unfinished h ?_
  intro name hbinds
  rw [Token.unfinished_tokenize] at hbinds
  obtain ⟨t, ht, _⟩ := hbinds
  cases ht

/-- Two labels on a line, one of them bound again in the middle of the next, one behind the last
line, and one behind the end of file. -/
def Token.untidy : List Token :=
  [⟨.label, "a"⟩, ⟨.label, "b"⟩, .newline, ⟨.name, "b"⟩, ⟨.label, "a"⟩, ⟨.name, "b"⟩, .newline,
    ⟨.label, "c"⟩, .endOfFile, ⟨.label, "d"⟩, .newline]

theorem Program.passes_agree_untidy :
    Token.lineCount Token.untidy < 0x40000000 ∧ PassesAgree Token.untidy
      ∧ (["a", "b", "c", "d"].map (Layout.ofTokens Token.untidy).labels.find?)
        = [some 4, some 0, some 8, none]
      ∧ Token.lineCount (tokenize "x: y: b x\ny:") < 0x40000000
      ∧ LabelsOnLines (tokenize "x: y: b x\ny:") := by
  have huntidy : Token.lineCount Token.untidy < 0x40000000 := by decide +kernel
  have hsource : Token.lineCount (tokenize "x: y: b x\ny:") < 0x40000000 := by decide +kernel
  exact ⟨huntidy, (passes_agree huntidy).1, by decide +kernel, hsource,
    (passes_agree hsource).2 _ rfl⟩

end Armlet
