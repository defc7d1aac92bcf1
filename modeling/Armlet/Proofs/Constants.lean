import Mathlib.Data.List.Nodup
import Mathlib.Data.Nat.Find
import Armlet.Proofs.LineTexts
import Armlet.Proofs.SourceMachine
import Armlet.Proofs.TwoPasses

/-!
# Constants

A line `ldr rd, =e` puts the value of `e` into a register. A value that fits a
byte is moved there; any other stands in the literal pool, and the line loads it
from there. The distance to it is settled while the pool is still growing, and it
goes into a field that is wider than what the machine reads.

The pool holds the values above a byte in the order of first use, each one once.
It grows at its end only, so the place that a line was given stays the place of
its value. The one thing that can go wrong is the distance: a line is refused iff
its value is, or would be, more than 4095 bytes ahead.
-/

namespace Armlet

/-! ## The pool as a list without repetitions -/

theorem eraseDups_concat (vs : List Word) (v : Word) :
    (vs ++ [v]).eraseDups = if v ∈ vs then vs.eraseDups else vs.eraseDups ++ [v] := by
  rw [List.eraseDups_append]
  split
  · rename_i hmem
    simp [List.removeAll, hmem]
  · rename_i hnew
    simp [List.removeAll, hnew, List.eraseDups_cons]

namespace LiteralPool

/-- The pool holds the values of a list, each one once, in the order of first use. -/
structure Collects (pool : LiteralPool) (vs : List Word) : Prop where
  words_eq : pool.words = vs.eraseDups
  nodup : pool.words.Nodup

theorem collects_empty (base : Word) : (empty base).Collects [] := ⟨rfl, List.nodup_nil⟩

theorem Collects.intern {pool : LiteralPool} {vs : List Word} (h : pool.Collects vs) (v : Word) :
    (pool.intern v).2.Collects (vs ++ [v]) := by
  -- a value is in the pool iff it has been used
  have hmem : v ∈ pool.words ↔ v ∈ vs := by rw [h.words_eq, List.mem_eraseDups]
  rw [intern_eq]
  dsimp only
  split
  · rename_i hold
    refine ⟨?_, h.nodup⟩
    rw [eraseDups_concat, if_pos (hmem.mp hold), h.words_eq]
  · rename_i hnew
    refine ⟨?_, ?_⟩
    · rw [eraseDups_concat, if_neg (mt hmem.mpr hnew), h.words_eq]
    · rw [← List.concat_eq_append]
      exact h.nodup.concat hnew

end LiteralPool

/-! ## Lines that load constants -/

namespace Statement

variable {labels : SymbolTable} {pool : LiteralPool} {addr : Word} {line : List Token}
  {rd : Register} {v : Word}

/-- The constant that a line puts into the pool, if it needs one there. -/
def pooled? (labels : SymbolTable) (line : List Token) : Option Word :=
  (constantLoad? labels line).bind fun load => if load.2 ≤ 0xFF then none else some load.2

theorem pooled?_of_constantLoad (h : constantLoad? labels line = some (rd, v)) :
    pooled? labels line = if v ≤ 0xFF then none else some v := by
  rw [pooled?, h, Option.bind_some]

theorem pooled?_eq_none (h : ∀ rd v, parse labels line ≠ .ok (.loadConstant rd v)) :
    pooled? labels line = none := by
  have hload : constantLoad? labels line = none := by
    rw [Option.eq_none_iff_forall_ne_some]
    rintro ⟨rd, v⟩ hsome
    exact h rd v (parse_eq_loadConstant_iff.mpr hsome)
  rw [pooled?, hload, Option.bind_none]

/-- **One line.** The pool takes in the constant of the line, if it has one, and nothing else. -/
theorem collects_assemble {vs : List Word} (h : pool.Collects vs) :
    (assemble labels pool addr line).2.Collects (vs ++ (pooled? labels line).toList) := by
  -- any other line, and one that cannot be read, leaves the pool alone
  have hrest : (∀ rd v, parse labels line ≠ .ok (.loadConstant rd v)) →
      pool.Collects (vs ++ (pooled? labels line).toList) := by
    intro hparse
    rw [pooled?_eq_none hparse, Option.toList_none, List.append_nil]
    exact h
  unfold assemble
  split
  · rename_i s hs
    cases s with
    | loadConstant rd v =>
      rw [pooled?_of_constantLoad (parse_eq_loadConstant_iff.mp hs), encode]
      split
      · rw [Option.toList_none, List.append_nil]
        exact h
      · rw [Option.toList_some]
        exact h.intern v
    | blank => exact hrest (by simp [hs])
    | instruction i => exact hrest (by simp [hs])
    | branchTo cond target => exact hrest (by simp [hs])
  · rename_i e he
    exact hrest (by simp [he])

theorem encodeLoad_eq_error_iff {slot : Word} {e : SourceError} :
    encodeLoad addr rd slot = .error e
      ↔ 4095 < (slot.toNat : Int) - addr.toNat
        ∧ e = .unencodable ((slot.toNat : Int) - addr.toNat) := by
  unfold encodeLoad transferReach
  dsimp only
  split
  · rename_i hfar
    rw [Except.error.injEq, eq_comm]
    exact (and_iff_right hfar).symm
  · rename_i hnear
    exact iff_of_false nofun fun h => hnear h.1

end Statement

/-! ## The pass, line by line -/

/-- One more line of a program is the line with the next number. -/
theorem Program.take_succ_lines {tokens : List Token} {k : Nat} (hk : k < Token.lineCount tokens) :
    ∃ l, (Token.lines tokens).take (k + 1) = (Token.lines tokens).take k ++ [l]
      ∧ line tokens k = Token.withoutLabels l := by
  rw [← Token.length_lines] at hk
  refine ⟨(Token.lines tokens)[k], (List.take_append_getElem hk).symm, ?_⟩
  rw [line, List.getElem?_eq_getElem hk, Option.getD_some]

namespace Listing

theorem extend_ok {listing : Listing} (h : listing.failure = none) (i : Instruction)
    (pool : LiteralPool) :
    listing.extend (.ok i, pool) = ⟨listing.instructions ++ [i], pool, none⟩ := by
  simp only [extend, h]

theorem extend_error {listing : Listing} (h : listing.failure = none) (e : SourceError)
    (pool : LiteralPool) : listing.extend (.error e, pool)
      = ⟨listing.instructions, pool, some ⟨e, some (listing.instructions.length + 1)⟩⟩ := by
  simp only [extend, h]

namespace Cursor

variable {tokens : List Token} {k : Nat}

theorem pool_before (tokens : List Token) (k : Nat) :
    (before tokens k).listing.pool = Program.poolBefore tokens k := by
  rw [before, listing_foldl _ rfl rfl]
  rfl

/-- A line is taken in if no earlier one has stopped the pass. -/
theorem listing_before_succ (hk : k < Token.lineCount tokens) :
    (before tokens (k + 1)).listing = (before tokens k).listing.extend
      (Statement.assemble (Layout.ofTokens tokens).labels (Program.poolBefore tokens k)
        (lineAddress k) (Program.line tokens k)) := by
  obtain ⟨l, htake, hline⟩ := Program.take_succ_lines hk
  rw [← Token.length_lines] at hk
  rw [← pool_before, ← addr_before (Nat.le_of_lt hk), hline, before, htake, List.foldl_append,
    List.foldl_cons, List.foldl_nil]
  rfl

/-- A pass that has broken off stays as it is. -/
theorem listing_before_of_failure {d : Diagnostic} {j : Nat}
    (h : (before tokens j).listing.failure = some d) (hjk : j ≤ k) :
    (before tokens k).listing = (before tokens j).listing := by
  obtain ⟨n, rfl⟩ := Nat.exists_eq_add_of_le hjk
  rw [before, List.take_add, List.foldl_append]
  exact listing_foldl_of_failure h _

end Cursor

end Listing

namespace Program

variable {tokens : List Token} {p : Program} {k : Nat} {rd : Register} {v : Word}

/-- The lines before the number `k` can all be encoded. -/
def EncodedBefore (tokens : List Token) (k : Nat) : Prop :=
  ∀ j, j < k → ∃ i, encodeLine tokens j = .ok i

/-- The constants that the lines before the number `k` put into the pool, with repetitions. -/
def constantsBefore (tokens : List Token) (k : Nat) : List Word :=
  ((Token.lines tokens).take k).filterMap fun line =>
    Statement.pooled? (Layout.ofTokens tokens).labels (Token.withoutLabels line)

/-- The constants of all lines. -/
def constants (tokens : List Token) : List Word := constantsBefore tokens (Token.lineCount tokens)

theorem constantsBefore_succ (hk : k < Token.lineCount tokens) :
    constantsBefore tokens (k + 1) = constantsBefore tokens k
      ++ (Statement.pooled? (Layout.ofTokens tokens).labels (line tokens k)).toList := by
  obtain ⟨l, htake, hline⟩ := take_succ_lines hk
  rw [constantsBefore, htake, List.filterMap_append, hline]
  rfl

/-- What is known between two lines, as long as every line can be encoded. -/
structure Progress (tokens : List Token) (k : Nat) : Prop where
  failure : (Listing.Cursor.before tokens k).listing.failure = none
  length : (Listing.Cursor.before tokens k).listing.instructions.length = k
  collects : (poolBefore tokens k).Collects (constantsBefore tokens k)

theorem progress_zero (tokens : List Token) : Progress tokens 0 where
  failure := rfl
  length := rfl
  collects := LiteralPool.collects_empty _

/-- **One step of the pass.** -/
theorem Progress.succ (h : Progress tokens k) (hk : k < Token.lineCount tokens)
    {i : Instruction} (hi : encodeLine tokens k = .ok i) : Progress tokens (k + 1) := by
  have hlisting := Listing.Cursor.listing_before_succ hk
  have hcollects : (Statement.assemble (Layout.ofTokens tokens).labels (poolBefore tokens k)
      (Listing.lineAddress k) (line tokens k)).2.Collects _ :=
    Statement.collects_assemble h.collects
  rcases hline : Statement.assemble (Layout.ofTokens tokens).labels (poolBefore tokens k)
    (Listing.lineAddress k) (line tokens k) with ⟨_ | i, pool'⟩
  · rw [encodeLine, hline] at hi
    cases hi
  · rw [hline] at hcollects
    rw [hline, Listing.extend_ok h.failure] at hlisting
    refine ⟨congrArg Listing.failure hlisting, ?_, ?_⟩
    · rw [hlisting, List.length_append, h.length, List.length_singleton]
    · rw [← Listing.Cursor.pool_before, hlisting, constantsBefore_succ hk]
      exact hcollects

/-- **The pass up to a line**, if it can encode all lines before. -/
theorem progress (h : EncodedBefore tokens k) (hk : k ≤ Token.lineCount tokens) :
    Progress tokens k := by
  induction k with
  | zero => exact progress_zero tokens
  | succ k ih =>
    obtain ⟨i, hi⟩ := h k (Nat.lt_succ_self k)
    have hprogress := ih (fun j hj => h j (Nat.lt_succ_of_lt hj)) (Nat.le_of_lt hk)
    exact hprogress.succ hk hi

/-- The first line that cannot be encoded ends the assembly. -/
theorem ofTokens_eq_error_of_line (h : EncodedBefore tokens k) (hk : k < Token.lineCount tokens)
    {e : SourceError} (he : encodeLine tokens k = .error e) :
    ofTokens tokens = .error ⟨e, some (k + 1)⟩ := by
  have hprogress := progress h (Nat.le_of_lt hk)
  have hlisting := Listing.Cursor.listing_before_succ hk
  rcases hline : Statement.assemble (Layout.ofTokens tokens).labels (poolBefore tokens k)
    (Listing.lineAddress k) (line tokens k) with ⟨e' | i, pool'⟩
  · rw [encodeLine, hline] at he
    cases he
    rw [hline, Listing.extend_error hprogress.failure] at hlisting
    -- the pass has broken off behind this line, and so it stays to the end
    have hfailure : (Listing.Cursor.before tokens (k + 1)).listing.failure
        = some ⟨e, some (k + 1)⟩ := by
      rw [hlisting, hprogress.length]
    rw [ofTokens_eq_error_iff, ← Listing.Cursor.listing_before, Token.length_lines,
      Listing.Cursor.listing_before_of_failure hfailure hk]
    exact hfailure
  · rw [encodeLine, hline] at he
    cases he

/-- An assembled program is one whose lines have all been encoded. -/
theorem exists_ofTokens_iff : (∃ p, ofTokens tokens = .ok p)
    ↔ EncodedBefore tokens (Token.lineCount tokens) := by
  constructor
  · rintro ⟨p, h⟩ j hj
    obtain ⟨i, hi, _⟩ := encodeLine_of_ofTokens h hj
    exact ⟨i, hi⟩
  · intro h
    rw [exists_ofTokens_eq_ok_iff, ← Listing.Cursor.listing_before, Token.length_lines]
    exact (progress h (Nat.le_refl _)).failure

/-- The error that is reported is that of the first line that cannot be encoded. -/
theorem ofTokens_eq_error_line_iff {e : SourceError} :
    ofTokens tokens = .error ⟨e, some (k + 1)⟩
      ↔ k < Token.lineCount tokens ∧ EncodedBefore tokens k ∧ encodeLine tokens k = .error e := by
  constructor
  · intro h
    -- some line cannot be encoded, and the first such line is the one reported
    have hsome : ∃ j, j < Token.lineCount tokens ∧ ¬ ∃ i, encodeLine tokens j = .ok i := by
      refine Classical.byContradiction fun hnone => ?_
      have hall : EncodedBefore tokens (Token.lineCount tokens) := fun j hj =>
        Classical.byContradiction fun hj' => hnone ⟨j, hj, hj'⟩
      obtain ⟨p, hp⟩ := exists_ofTokens_iff.mpr hall
      rw [hp] at h
      cases h
    classical
    obtain ⟨hlt, hfails⟩ := Nat.find_spec hsome
    have hbefore : EncodedBefore tokens (Nat.find hsome) := fun j hj =>
      Classical.byContradiction fun hj' => Nat.find_min hsome hj ⟨Nat.lt_trans hj hlt, hj'⟩
    cases he : encodeLine tokens (Nat.find hsome) with
    | ok i => exact absurd ⟨i, he⟩ hfails
    | error e' =>
      have hreport := ofTokens_eq_error_of_line hbefore hlt he
      rw [h, Except.error.injEq, Diagnostic.mk.injEq, Option.some.injEq,
        Nat.add_right_cancel_iff] at hreport
      obtain ⟨rfl, hk⟩ := hreport
      rw [hk]
      exact ⟨hlt, hbefore, he⟩
  · rintro ⟨hk, hbefore, he⟩
    exact ofTokens_eq_error_of_line hbefore hk he

/-! ## Loading from the pool -/

/-- The place in the pool of a constant that the line number `k` loads: the first that holds it
by then, or else the end. -/
def place (tokens : List Token) (k : Nat) (v : Word) : Nat :=
  (poolBefore tokens k).words.idxOf v

theorem lt_lineCount_of_constantLoad
    (h : Statement.constantLoad? (Layout.ofTokens tokens).labels (line tokens k) = some (rd, v)) :
    k < Token.lineCount tokens := by
  refine Classical.byContradiction fun hk => ?_
  have hnone : (Token.lines tokens)[k]? = none := by
    rw [List.getElem?_eq_none_iff, Token.length_lines]
    exact Nat.le_of_not_lt hk
  rw [line, hnone] at h
  cases h

/-- How far ahead of a line the place of its constant is. -/
theorem slot_sub_lineAddress (hsmall : Small tokens) (hk : k < Token.lineCount tokens) :
    (((poolBefore tokens k).slot (place tokens k v)).toNat : Int) - (Listing.lineAddress k).toNat
      = (4 * (Token.lineCount tokens + place tokens k v - k) : Nat) := by
  obtain ⟨haddr, hbase, _, hsize⟩ := poolBefore_bounds hsmall hk
  have hplace : place tokens k v ≤ (poolBefore tokens k).words.length := List.idxOf_le_length
  rw [LiteralPool.toNat_slot (by omega), haddr, hbase]
  omega

theorem encodeLine_of_pooled
    (h : Statement.constantLoad? (Layout.ofTokens tokens).labels (line tokens k) = some (rd, v))
    (hv : 0xFF < v) : encodeLine tokens k = Statement.encodeLoad (Listing.lineAddress k) rd
      ((poolBefore tokens k).slot (place tokens k v)) := by
  rw [encodeLine, Statement.assemble, Statement.parse_eq_loadConstant_iff.mpr h]
  simp only [Statement.encode, if_neg (BitVec.not_le.mpr hv), LiteralPool.intern_eq, place]

/-- **The line is refused iff its constant is too far ahead.** -/
theorem encodeLine_eq_error_iff (hsmall : Small tokens)
    (h : Statement.constantLoad? (Layout.ofTokens tokens).labels (line tokens k) = some (rd, v))
    (hv : 0xFF < v) {e : SourceError} : encodeLine tokens k = .error e
      ↔ 4095 < 4 * (Token.lineCount tokens + place tokens k v - k)
        ∧ e = .unencodable (4 * (Token.lineCount tokens + place tokens k v - k) : Nat) := by
  rw [encodeLine_of_pooled h hv, Statement.encodeLoad_eq_error_iff,
    slot_sub_lineAddress hsmall (lt_lineCount_of_constantLoad h)]
  refine and_congr_left' ?_
  omega

/-- What becomes of the constants of an assembled program. -/
structure LoadsConstants (tokens : List Token) (p : Program) : Prop where
  /-- Behind the lines stand the values above a byte, each one once, in the order of first use. -/
  pool : p.words.drop (Token.lineCount tokens) = (constants tokens).eraseDups
  nodup : (p.words.drop (Token.lineCount tokens)).Nodup
  /-- A value that fits a byte is moved, and the flags are left alone. -/
  byte : ∀ k rd v,
    Statement.constantLoad? (Layout.ofTokens tokens).labels (line tokens k) = some (rd, v) →
    v ≤ 0xFF →
    p.words[k]? = some (Instruction.encode
        (.dataProcessing ⟨.al, .mov, false, .r0, rd, .immediate (v.setWidth 8) 0⟩))
      ∧ SecondOperand.immediateValue (v.setWidth 8) 0 = v
  /-- Any other is loaded from its place. Its distance fits the field, and nothing of it is lost. -/
  slot : ∀ k rd v,
    Statement.constantLoad? (Layout.ofTokens tokens).labels (line tokens k) = some (rd, v) →
    0xFF < v →
    ∃ (w : Word) (bytes : BitVec 16), p.words[k]? = some w
      ∧ Instruction.decode? w
        = some (.transfer ⟨.al, true, true, true, .pc, rd, .immediate bytes⟩)
      ∧ p.words[Token.lineCount tokens + place tokens k v]? = some v
      ∧ bytes.toNat = 4 * (Token.lineCount tokens + place tokens k v - k)
      ∧ 4 ≤ bytes.toNat ∧ bytes.toNat ≤ 4092

theorem loadsConstants (hsmall : Small tokens) (h : ofTokens tokens = .ok p) :
    LoadsConstants tokens p := by
  have hcollects := (progress (exists_ofTokens_iff.mp ⟨p, h⟩) (Nat.le_refl _)).collects
  constructor
  case pool =>
    rw [drop_words h]
    exact hcollects.words_eq
  case nodup =>
    rw [drop_words h]
    exact hcollects.nodup
  case byte =>
    intro k rd v hload hv
    have hk := lt_lineCount_of_constantLoad hload
    obtain ⟨s, i, hparse, _, hencode, _, hword⟩ := line_spec h hsmall hk
    rw [Statement.parse_eq_loadConstant_iff.mpr hload] at hparse
    cases hparse
    rw [Statement.encode, if_pos hv, Prod.mk.injEq, Except.ok.injEq] at hencode
    rw [hword, ← hencode.1]
    exact ⟨rfl, SecondOperand.immediateValue_of_le hv⟩
  case slot =>
    intro k rd v hload hv
    have hk := lt_lineCount_of_constantLoad hload
    obtain ⟨s, i, hparse, _, hencode, hencodable, hword⟩ := line_spec h hsmall hk
    have hline : encodeLine tokens k = .ok i := encodeLine_of_encode hparse hencode
    rw [encodeLine_of_pooled hload hv] at hline
    -- the pool lies behind the line, so the distance is not negative
    have hdistance := slot_sub_lineAddress (v := v) hsmall hk
    obtain ⟨bytes, rfl, hsum, hbytes⟩ := Statement.encodeLoad_eq_ok (by omega) hline
    refine ⟨_, bytes, hword, Instruction.decode?_encode_of_encodable hencodable, ?_, ?_⟩
    · -- the place holds the value from this line on
      rw [Statement.parse_eq_loadConstant_iff.mpr hload] at hparse
      cases hparse
      rw [Statement.encode, if_neg (BitVec.not_le.mpr hv), Prod.mk.injEq] at hencode
      have hget := (poolBefore tokens k).getElem?_idxOf_intern v
      rw [hencode.2] at hget
      rw [← List.getElem?_drop, drop_words h]
      exact (extends_poolBefore hk).getElem?_eq hget
    · omega

/--
**Every constant arrives, or its line is refused for its distance.**

In an assembled program the pool holds exactly the values above a byte that lines
load, and each such line loads its value from there. In any program, whether it
is assembled or not, a line that loads such a value, with nothing wrong before
it, fails iff the place of the value is more than 4095 bytes ahead; and the
report names the line and the distance.
-/
theorem constants_loaded (hsmall : Small tokens) :
    (∀ p, ofTokens tokens = .ok p → LoadsConstants tokens p)
      ∧ ∀ k rd v, EncodedBefore tokens k →
        Statement.constantLoad? (Layout.ofTokens tokens).labels (line tokens k) = some (rd, v) →
        0xFF < v → ∀ e,
        (encodeLine tokens k = .error e
          ↔ 4095 < 4 * (Token.lineCount tokens + place tokens k v - k)
            ∧ e = .unencodable (4 * (Token.lineCount tokens + place tokens k v - k) : Nat))
        ∧ (ofTokens tokens = .error ⟨e, some (k + 1)⟩
          ↔ 4095 < 4 * (Token.lineCount tokens + place tokens k v - k)
            ∧ e = .unencodable (4 * (Token.lineCount tokens + place tokens k v - k) : Nat)) := by
  refine ⟨fun p => loadsConstants hsmall, ?_⟩
  intro k rd v hbefore hload hv e
  have hline := encodeLine_eq_error_iff (e := e) hsmall hload hv
  refine ⟨hline, ?_⟩
  rw [← hline, ofTokens_eq_error_line_iff]
  constructor
  · exact fun h => h.2.2
  · exact fun h => ⟨lt_lineCount_of_constantLoad hload, hbefore, h⟩

/-- Four lines that need two constants. The first and the last share one. -/
def sharing : List Token :=
  tokenize "ldr r0, =0x12345\nldr r1, =255\nldr r2, =0x300\nldr r3, =0x12345\n"

/-- A constant that does not fit a byte, and lines until its place is too far ahead. -/
def distant : List Token :=
  [⟨.name, "ldr"⟩, ⟨.name, "r0"⟩, ⟨.expression, "0x100"⟩] ++ List.replicate 1024 Token.newline

theorem constants_loaded_distant :
    Small sharing ∧ (∃ p, ofTokens sharing = .ok p
        ∧ p.words = [0xE59F0010, 0xE3A010FF, 0xE59F200C, 0xE59F3004, 0x12345, 0x300]
        ∧ LoadsConstants sharing p)
      ∧ Small distant
        ∧ Statement.constantLoad? (Layout.ofTokens distant).labels (line distant 0)
          = some (.r0, 0x100)
        ∧ encodeLine distant 0 = .error (.unencodable 4096)
        ∧ ofTokens distant = .error ⟨.unencodable 4096, some 1⟩ := by
  have hmap : (ofTokens sharing).toOption.map words
      = some [0xE59F0010, 0xE3A010FF, 0xE59F200C, 0xE59F3004, 0x12345, 0x300] := by
    decide +kernel
  obtain ⟨p, hp, hwords⟩ := exists_of_map_words hmap
  have hsharing : Small sharing := by
    unfold Small
    decide +kernel
  have hdistant : Small distant := by
    unfold Small
    decide +kernel
  have hload : Statement.constantLoad? (Layout.ofTokens distant).labels (line distant 0)
      = some (.r0, 0x100) := by
    decide +kernel
  have hdistance : 4 * (Token.lineCount distant + place distant 0 0x100 - 0) = 4096 := by
    decide +kernel
  obtain ⟨hline, hreport⟩ :=
    (constants_loaded hdistant).2 0 .r0 0x100 nofun hload (by decide) (.unencodable 4096)
  rw [hdistance] at hline hreport
  have hfar : 4095 < 4096 ∧ SourceError.unencodable 4096 = .unencodable (4096 : Nat) :=
    ⟨by decide, rfl⟩
  exact ⟨hsharing, ⟨p, hp, hwords, (constants_loaded hsharing).1 p hp⟩, hdistant, hload,
    hline.mpr hfar, hreport.mpr hfar⟩

end Program

end Armlet
