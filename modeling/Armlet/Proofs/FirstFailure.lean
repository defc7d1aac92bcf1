import Armlet.Proofs.Lines
import Armlet.Proofs.Listing

/-!
# Which error is reported

An assembly that fails names one line. This file says which: the lines are
encoded in order and hand a literal pool on, whether they succeed or not
(`Listing.outcomes`), and the error that is reported is the first one among what
comes of that, with its number counted from 1. What is wrong with the line is a
bare `SourceError`, so the report carries no line number but its own.

The lines behind the reported one have a say in two ways only. Their labels are
in the table, and their number fixes where the pool begins. `AgreeThrough` leaves
both alone and everything else behind the line open, and the error stays.
-/

namespace Armlet

/-! ## The first error of a list -/

/-- The result number `k` is an error, and all those in front of it are none. -/
def FirstError {ε α : Type} (rs : List (Except ε α)) (k : Nat) (e : ε) : Prop :=
  rs[k]? = some (.error e) ∧ ∀ j, j < k → ∃ a, rs[j]? = some (.ok a)

namespace FirstError

variable {ε α : Type} {rs : List (Except ε α)} {k : Nat} {e : ε}

theorem cons_error_iff {e' : ε} : FirstError (.error e' :: rs) k e ↔ k = 0 ∧ e = e' := by
  constructor
  · rintro ⟨hget, hbefore⟩
    cases k with
    | zero =>
      cases hget
      exact ⟨rfl, rfl⟩
    | succ k =>
      obtain ⟨a, ha⟩ := hbefore 0 (Nat.succ_pos k)
      cases ha
  · rintro ⟨rfl, rfl⟩
    exact ⟨rfl, fun j hj => absurd hj (Nat.not_lt_zero j)⟩

theorem cons_ok_iff {a : α} :
    FirstError (.ok a :: rs) k e ↔ ∃ k', k = k' + 1 ∧ FirstError rs k' e := by
  constructor
  · rintro ⟨hget, hbefore⟩
    cases k with
    | zero => cases hget
    | succ k =>
      refine ⟨k, rfl, hget, ?_⟩
      intro j hj
      exact hbefore (j + 1) (Nat.succ_lt_succ hj)
  · rintro ⟨k, rfl, hget, hbefore⟩
    refine ⟨hget, ?_⟩
    intro j hj
    cases j with
    | zero => exact ⟨a, rfl⟩
    | succ j => exact hbefore j (Nat.lt_of_succ_lt_succ hj)

theorem exists_iff : (∃ k e, FirstError rs k e) ↔ ∃ e, .error e ∈ rs := by
  induction rs with
  | nil => simp [FirstError]
  | cons r rs ih =>
    cases r with
    | error e' =>
      constructor
      · intro _
        exact ⟨e', List.mem_cons_self⟩
      · intro _
        exact ⟨0, e', cons_error_iff.mpr ⟨rfl, rfl⟩⟩
    | ok a =>
      constructor
      · rintro ⟨k, e, h⟩
        obtain ⟨k', _, h'⟩ := cons_ok_iff.mp h
        obtain ⟨e', hmem⟩ := ih.mp ⟨k', e, h'⟩
        exact ⟨e', List.mem_cons_of_mem _ hmem⟩
      · rintro ⟨e, hmem⟩
        have hmem' : .error e ∈ rs := by simpa using hmem
        obtain ⟨k, e', h⟩ := ih.mpr ⟨e, hmem'⟩
        exact ⟨k + 1, e', cons_ok_iff.mpr ⟨k, rfl, h⟩⟩

/-- Nothing behind the first error matters. -/
theorem of_take {rs' : List (Except ε α)} (h : FirstError rs k e)
    (htake : rs'.take (k + 1) = rs.take (k + 1)) : FirstError rs' k e := by
  have hget : ∀ j, j < k + 1 → rs'[j]? = rs[j]? := by
    intro j hj
    rw [← List.getElem?_take_of_lt hj, htake, List.getElem?_take_of_lt hj]
  refine ⟨(hget k (Nat.lt_succ_self k)).trans h.1, ?_⟩
  intro j hj
  rw [hget j (Nat.lt_succ_of_lt hj)]
  exact h.2 j hj

end FirstError

/-! ## What comes of the lines -/

namespace Listing

variable {labels : SymbolTable}

/-- What each line is encoded to. All of them share one pool, and no line stops those behind it. -/
def outcomes (labels : SymbolTable) (pool : LiteralPool) (index : Nat) :
    List (List Token) → List (Except SourceError Instruction)
  | [] => []
  | line :: rest =>
    let outcome := Statement.assemble labels pool (lineAddress index) (Token.withoutLabels line)
    outcome.1 :: outcomes labels outcome.2 (index + 1) rest

theorem outcomes_take (pool : LiteralPool) (index n : Nat) (lines : List (List Token)) :
    outcomes labels pool index (lines.take n) = (outcomes labels pool index lines).take n := by
  induction lines generalizing pool index n with
  | nil => rw [List.take_nil, outcomes, List.take_nil]
  | cons line rest ih =>
    cases n with
    | zero => rfl
    | succ n =>
      rw [List.take_succ_cons, outcomes, outcomes, List.take_succ_cons, ih]

/-- **The pass breaks off at the first line that cannot be encoded.** -/
theorem failure_ofLines (pool : LiteralPool) (index : Nat) (lines : List (List Token))
    (d : Diagnostic) : (ofLines labels pool index lines).failure = some d
      ↔ ∃ k e, FirstError (outcomes labels pool index lines) k e
        ∧ d = ⟨e, some (index + k + 1)⟩ := by
  induction lines generalizing pool index with
  | nil => simp [ofLines, outcomes, FirstError]
  | cons line rest ih =>
    rcases hline : Statement.assemble labels pool (lineAddress index)
      (Token.withoutLabels line) with ⟨e | i, pool'⟩
    · rw [ofLines_cons_error hline, outcomes, hline]
      constructor
      · intro h
        cases h
        exact ⟨0, e, FirstError.cons_error_iff.mpr ⟨rfl, rfl⟩, rfl⟩
      · rintro ⟨k, e', h, rfl⟩
        obtain ⟨rfl, rfl⟩ := FirstError.cons_error_iff.mp h
        rfl
    · rw [ofLines_cons_ok hline, outcomes, hline]
      dsimp only
      rw [ih]
      constructor
      · rintro ⟨k, e, h, rfl⟩
        refine ⟨k + 1, e, FirstError.cons_ok_iff.mpr ⟨k, rfl, h⟩, ?_⟩
        rw [show index + 1 + k = index + (k + 1) by omega]
      · rintro ⟨k, e, h, rfl⟩
        obtain ⟨k', rfl, h'⟩ := FirstError.cons_ok_iff.mp h
        refine ⟨k', e, h', ?_⟩
        rw [show index + 1 + k' = index + (k' + 1) by omega]

end Listing

/-! ## Streams that differ behind a line -/

/-- `tokens'` is `tokens` with the lines behind the number `n` saying something else. Their
number and their labels are the same. -/
structure Token.AgreeThrough (n : Nat) (tokens tokens' : List Token) : Prop where
  lines_eq : (lines tokens').take n = (lines tokens).take n
  labels_eq : (lines tokens').map labelsOf = (lines tokens).map labelsOf
  unfinished_eq : labelsOf (unfinished tokens') = labelsOf (unfinished tokens)

namespace Layout

theorem bindingsFrom_congr {ps ps' : List (List Token)}
    (h : ps'.map Token.labelsOf = ps.map Token.labelsOf) (index : Nat) :
    bindingsFrom index ps' = bindingsFrom index ps := by
  induction ps generalizing ps' index with
  | nil => rw [List.map_eq_nil_iff.mp h]
  | cons part rest ih =>
    obtain ⟨part', rest', rfl, hpart, hrest⟩ := List.map_eq_cons_iff.mp h
    rw [bindingsFrom, bindingsFrom, hpart, ih hrest]

/-- The first pass reads nothing but labels and ends of lines. -/
theorem ofTokens_of_labels {tokens tokens' : List Token}
    (hlines : (Token.lines tokens').map Token.labelsOf
      = (Token.lines tokens).map Token.labelsOf)
    (hrest : Token.labelsOf (Token.unfinished tokens')
      = Token.labelsOf (Token.unfinished tokens)) : ofTokens tokens' = ofTokens tokens := by
  have hcount : Token.lineCount tokens' = Token.lineCount tokens := by
    have hlength := congrArg List.length hlines
    rwa [List.length_map, List.length_map, Token.length_lines, Token.length_lines] at hlength
  have hparts : (Token.parts tokens').map Token.labelsOf
      = (Token.parts tokens).map Token.labelsOf := by
    rw [← Token.lines_concat_unfinished, ← Token.lines_concat_unfinished, List.map_append,
      List.map_append, hlines, List.map_singleton, List.map_singleton, hrest]
  have hbindings : (ofTokens tokens').bindings = (ofTokens tokens).bindings := by
    rw [bindings_ofTokens, bindings_ofTokens, bindingsFrom_congr hparts]
  have hfinish : (ofTokens tokens').finish = (ofTokens tokens).finish := by
    rw [finish_ofTokens, finish_ofTokens, hcount]
  cases hl : ofTokens tokens with
  | mk bindings finish =>
    cases hl' : ofTokens tokens' with
    | mk bindings' finish' =>
      rw [hl, hl'] at hbindings hfinish
      rw [show bindings' = bindings from hbindings, show finish' = finish from hfinish]

end Layout

/-! ## Programs -/

namespace Program

/-- What each line of a program is encoded to. -/
def outcomes (tokens : List Token) : List (Except SourceError Instruction) :=
  Listing.outcomes (Layout.ofTokens tokens).labels (.empty (Layout.ofTokens tokens).finish) 0
    (Token.lines tokens)

/-- The line number `n`, counted from 1, is the first that cannot be encoded. -/
def FirstFailure (tokens : List Token) (n : Nat) (e : SourceError) : Prop :=
  1 ≤ n ∧ FirstError (outcomes tokens) (n - 1) e

variable {tokens tokens' : List Token}

theorem ofTokens_eq_error_iff_firstFailure {d : Diagnostic} :
    ofTokens tokens = .error d ↔ ∃ n e, FirstFailure tokens n e ∧ d = ⟨e, some n⟩ := by
  rw [ofTokens_eq_error_iff, Listing.ofTokens, Listing.failure_ofLines]
  constructor
  · rintro ⟨k, e, h, rfl⟩
    refine ⟨k + 1, e, ⟨Nat.succ_pos k, h⟩, ?_⟩
    rw [Nat.zero_add]
  · rintro ⟨n, e, ⟨hpos, h⟩, rfl⟩
    refine ⟨n - 1, e, h, ?_⟩
    rw [show 0 + (n - 1) + 1 = n by omega]

/-- The first failure depends on the lines up to it, and on the layout. -/
theorem FirstFailure.of_agree {n : Nat} {e : SourceError} (h : FirstFailure tokens n e)
    (hagree : Token.AgreeThrough n tokens tokens') : FirstFailure tokens' n e := by
  have hlayout := Layout.ofTokens_of_labels hagree.labels_eq hagree.unfinished_eq
  refine ⟨h.1, h.2.of_take ?_⟩
  rw [Nat.sub_add_cancel h.1, outcomes, outcomes, ← Listing.outcomes_take,
    ← Listing.outcomes_take, hlayout, hagree.lines_eq]

/--
**The reported error is the first.** An assembly fails iff some line cannot be
encoded. What it reports is the number of the first such line and what is wrong
with it, and saying something else behind that line does not change the report.
-/
theorem reports_first_failure (tokens : List Token) :
    ((∃ d, ofTokens tokens = .error d) ↔ ∃ e, .error e ∈ outcomes tokens)
      ∧ (∀ d, ofTokens tokens = .error d
        ↔ ∃ n e, FirstFailure tokens n e ∧ d = ⟨e, some n⟩)
      ∧ (∀ n e tokens', ofTokens tokens = .error ⟨e, some n⟩ →
        Token.AgreeThrough n tokens tokens' → ofTokens tokens' = .error ⟨e, some n⟩) := by
  refine ⟨?_, fun d => ofTokens_eq_error_iff_firstFailure, ?_⟩
  · rw [← FirstError.exists_iff]
    constructor
    · rintro ⟨d, hd⟩
      obtain ⟨n, e, h, _⟩ := ofTokens_eq_error_iff_firstFailure.mp hd
      exact ⟨n - 1, e, h.2⟩
    · rintro ⟨k, e, h⟩
      have hfirst : FirstFailure tokens (k + 1) e := ⟨Nat.succ_pos k, h⟩
      exact ⟨_, ofTokens_eq_error_iff_firstFailure.mpr ⟨k + 1, e, hfirst, rfl⟩⟩
  · intro n e tokens' herror hagree
    obtain ⟨n', e', hfirst, hd⟩ := ofTokens_eq_error_iff_firstFailure.mp herror
    cases hd
    exact ofTokens_eq_error_iff_firstFailure.mpr ⟨n, e, hfirst.of_agree hagree, rfl⟩

/-- The second line names no label. The third would not be encoded either. -/
def faulty : List Token := tokenize "ldr r0, =512\nb nowhere\nx: mov r1, #257\n"

/-- The same with another third line, which has the same label. -/
def mended : List Token := tokenize "ldr r0, =512\nb nowhere\nmov r1, x: #256\n"

theorem reports_first_failure_mended :
    ofTokens faulty = .error ⟨.unknownSymbol "nowhere", some 2⟩
      ∧ Token.AgreeThrough 2 faulty mended
      ∧ FirstFailure faulty 2 (.unknownSymbol "nowhere")
      ∧ ofTokens mended = .error ⟨.unknownSymbol "nowhere", some 2⟩ := by
  have herror : ofTokens faulty = .error ⟨.unknownSymbol "nowhere", some 2⟩ := by
    rw [ofTokens_eq_error_iff]
    decide +kernel
  have hagree : Token.AgreeThrough 2 faulty mended := by
    constructor
    · decide +kernel
    · decide +kernel
    · decide +kernel
  obtain ⟨_, hfirst, hstays⟩ := reports_first_failure faulty
  obtain ⟨n, e, hfailure, hd⟩ := (hfirst _).mp herror
  cases hd
  exact ⟨herror, hagree, hfailure, hstays 2 _ mended herror hagree⟩

end Program

end Armlet
