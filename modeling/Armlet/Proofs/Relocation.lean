import Armlet.Proofs.Lines
import Armlet.Proofs.Listing

/-!
# Lines in front of a program

A program is put `k` lines further back when `k` empty lines are put in front of
it. Its labels, its lines and its literal pool then all stand `4 * k` bytes
higher, and every word stays what it was: a branch is encoded by the distance to
its label, a load by the distance to its constant, and distances do not change.
An error stays what it was too, even where it names a distance.

One thing could give the place of a program away, and that is the address of a
label used as a value, in `ldr rd, =label`. Where no expression names a label,
two assemblies go side by side from the first line to the last. What relates them
is that the second has every address raised (`Statement.raise`,
`LiteralPool.rebase`); that addresses are compared as numbers makes it necessary
that none of them wraps round.
-/

namespace Armlet

/-! ## Reading -/

/-- The same statement in a program whose labels stand `d` bytes higher. -/
def Statement.raise (d : Word) : Statement → Statement
  | .branchTo cond target => .branchTo cond (target + d)
  | s => s

/-- `labels'` has the names of `labels`, `d` bytes higher. -/
def SymbolTable.RaisedBy (d : Word) (labels labels' : SymbolTable) : Prop :=
  ∀ name, labels'.find? name = (labels.find? name).map (· + d)

/-- No expression on a line names a label. -/
def Token.NamesNoLabel (labels : SymbolTable) (line : List Token) : Prop :=
  ∀ t ∈ line, t.kind = .expression → labels.find? t.text = none

theorem map_bind {ε α β γ : Type} (x : Except ε α) (f : α → Except ε β) (g : β → γ) :
    (x >>= f).map g = x >>= fun a => (f a).map g := by
  cases x with
  | error e => rfl
  | ok a => rfl

namespace SymbolTable.RaisedBy

variable {d : Word} {labels labels' : SymbolTable}

theorem lookup_eq (h : labels.RaisedBy d labels') (name : String) :
    labels'.lookup name = (labels.lookup name).map (· + d) := by
  unfold lookup
  rw [h name]
  cases labels.find? name with
  | none => rfl
  | some addr => rfl

/-- An expression that is no label has the same value everywhere. -/
theorem readExpression_eq (h : labels.RaisedBy d labels') {text : String}
    (hnone : labels.find? text = none) :
    Operand.readExpression labels' text = Operand.readExpression labels text := by
  have hlookup : labels'.lookup text = labels.lookup text := by
    rw [h.lookup_eq, lookup, hnone]
    rfl
  unfold Operand.readExpression
  rw [hlookup]

theorem parseTransfer_eq (h : labels.RaisedBy d labels') {load : Bool} {rd : Register}
    {operand : Token} {rest : List Token}
    (hnone : operand.kind = .expression → labels.find? operand.text = none) :
    Statement.parseTransfer labels' load rd operand rest
      = (Statement.parseTransfer labels load rd operand rest).map (Statement.raise d) := by
  unfold Statement.parseTransfer
  split
  · rename_i hkind
    rw [h.readExpression_eq (hnone hkind)]
    split
    · simp only [map_bind]
      rfl
    · rfl
  · simp only [map_bind]
    rfl

theorem parseOperands_eq (h : labels.RaisedBy d labels') {mnemonic : Mnemonic}
    {operands : List Token} (hnone : Token.NamesNoLabel labels operands) :
    Statement.parseOperands labels' mnemonic operands
      = (Statement.parseOperands labels mnemonic operands).map (Statement.raise d) := by
  -- only a transfer and a branch look at the labels
  unfold Statement.parseOperands
  split
  · simp only [map_bind]
    rfl
  · -- a move and a comparison put the register in different places, and both are no branch
    rename_i opcode t0 t1 rest _
    simp only [map_bind]
    by_cases hmov : opcode = .mov
    · simp only [if_pos hmov]
      rfl
    · simp only [if_neg hmov]
      rfl
  · simp only [map_bind]
    rfl
  · simp only [map_bind]
    rfl
  · rename_i load t0 t1 rest _
    have ht1 : t1.kind = .expression → labels.find? t1.text = none :=
      hnone t1 (List.mem_cons_of_mem t0 List.mem_cons_self)
    simp only [map_bind, h.parseTransfer_eq ht1]
  · rename_i cond t0 rest _
    simp only [map_bind, h.lookup_eq]
    cases labels.lookup t0.text with
    | error e => rfl
    | ok target => rfl
  · simp only [map_bind]
    rfl
  · rfl
  · rfl

/-- **A line says the same in the raised program, but for where its branch leads.** -/
theorem parse_eq (h : labels.RaisedBy d labels') {line : List Token}
    (hnone : Token.NamesNoLabel labels line) :
    Statement.parse labels' line = (Statement.parse labels line).map (Statement.raise d) := by
  cases line with
  | nil => rfl
  | cons head operands =>
    rw [Statement.parse, Statement.parse]
    cases Mnemonic.ofName? head.text with
    | none => rfl
    | some mnemonic =>
      exact h.parseOperands_eq fun t ht => hnone t (List.mem_cons_of_mem head ht)

end SymbolTable.RaisedBy

/-! ## Encoding -/

/-- The same pool with another beginning. -/
def LiteralPool.rebase (pool : LiteralPool) (base : Word) : LiteralPool := { pool with base }

theorem LiteralPool.intern_rebase (pool : LiteralPool) (base v : Word) : ∃ j,
    j < (pool.intern v).2.words.length ∧ (pool.intern v).1 = pool.slot j
      ∧ (pool.rebase base).intern v
        = ((pool.rebase base).slot j, (pool.intern v).2.rebase base) := by
  unfold intern
  simp only [rebase]
  split
  · rename_i j hj
    obtain ⟨hlt, _⟩ := List.idxOf?_eq_some_iff.mp hj
    exact ⟨j, hlt, rfl, rfl⟩
  · refine ⟨pool.words.length, ?_, rfl, rfl⟩
    rw [List.length_append]
    exact Nat.lt_succ_self _

namespace Statement

variable {labels labels' : SymbolTable} {pool : LiteralPool} {addr addr' base' : Word} {n : Nat}

theorem encodeBranch_congr {cond : Condition} {target target' : Word}
    (h : (addr'.toNat : Int) - target'.toNat = (addr.toNat : Int) - target.toNat) :
    encodeBranch addr' cond target' = encodeBranch addr cond target := by
  unfold encodeBranch
  rw [h]

theorem encodeLoad_congr {rd : Register} {slot slot' : Word}
    (h : (slot'.toNat : Int) - addr'.toNat = (slot.toNat : Int) - addr.toNat) :
    encodeLoad addr' rd slot' = encodeLoad addr rd slot := by
  unfold encodeLoad
  rw [h]

/-- What is encoded is a matter of distances, which stay. -/
theorem encode_raise {d : Word} (haddr : addr'.toNat = addr.toNat + n)
    (hbase : base'.toNat = pool.base.toNat + n) {s : Statement}
    (htarget : ∀ cond target, s = .branchTo cond target →
      (target + d).toNat = target.toNat + n)
    (hsize : base'.toNat + 4 * (s.encode pool addr).2.words.length ≤ 0x100000000) :
    (s.raise d).encode (pool.rebase base') addr'
      = ((s.encode pool addr).1, (s.encode pool addr).2.rebase base') := by
  cases s with
  | blank => rfl
  | instruction i => rfl
  | branchTo cond target =>
    have htarget' := htarget cond target rfl
    have hdistance : (addr'.toNat : Int) - (target + d).toNat
        = (addr.toNat : Int) - target.toNat := by omega
    rw [raise, encode, encode, encodeBranch_congr hdistance]
  | loadConstant rd v =>
    simp only [raise, encode] at hsize ⊢
    split
    · rfl
    · rename_i hv
      rw [if_neg hv] at hsize
      obtain ⟨j, hj, hslot, hintern⟩ := pool.intern_rebase base' v
      dsimp only at hsize
      have hslot' : ((pool.rebase base').slot j).toNat = base'.toNat + 4 * j :=
        LiteralPool.toNat_slot (by simp only [LiteralPool.rebase]; omega)
      have hnat : (pool.slot j).toNat = pool.base.toNat + 4 * j :=
        LiteralPool.toNat_slot (by omega)
      have hdistance : (((pool.rebase base').slot j).toNat : Int) - addr'.toNat
          = ((pool.slot j).toNat : Int) - addr.toNat := by omega
      rw [hintern, hslot]
      dsimp only
      rw [encodeLoad_congr hdistance]

variable (pool) in
/-- A line in the raised program. -/
theorem assemble_raisedBy {d : Word} (h : labels.RaisedBy d labels')
    (hlabels : ∀ name target, labels.find? name = some target →
      (target + d).toNat = target.toNat + n)
    (haddr : addr'.toNat = addr.toNat + n) (hbase : base'.toNat = pool.base.toNat + n)
    {line : List Token} (hnone : Token.NamesNoLabel labels line)
    (hsize : base'.toNat + 4 * (assemble labels pool addr line).2.words.length ≤ 0x100000000) :
    assemble labels' (pool.rebase base') addr' line
      = ((assemble labels pool addr line).1, (assemble labels pool addr line).2.rebase base') := by
  unfold assemble at hsize ⊢
  rw [h.parse_eq hnone]
  cases hparse : parse labels line with
  | error e => rfl
  | ok s =>
    rw [hparse] at hsize
    refine encode_raise haddr hbase ?_ hsize
    rintro cond target rfl
    obtain ⟨name, hname⟩ := parse_legal hparse
    exact hlabels name target (SymbolTable.lookup_eq_ok_iff.mp hname)

end Statement

/-! ## The passes side by side -/

namespace Listing

variable {labels labels' : SymbolTable} {pool : LiteralPool} {base' : Word} {index k : Nat}

/-- The same listing `k` lines further back, with its pool at `base`. -/
def moveBack (k : Nat) (base : Word) (listing : Listing) : Listing where
  instructions := listing.instructions
  pool := listing.pool.rebase base
  failure := listing.failure.map fun d => ⟨d.cause, d.line.map (· + k)⟩

theorem ofLines_moveBack {d : Word} (h : labels.RaisedBy d labels')
    (hlabels : ∀ name target, labels.find? name = some target →
      (target + d).toNat = target.toNat + 4 * k)
    (hbase : base'.toNat = pool.base.toNat + 4 * k) {lines : List (List Token)}
    (hnone : ∀ line ∈ lines, Token.NamesNoLabel labels line)
    (hlines : 4 * (index + lines.length + k) ≤ 0x100000000)
    (hsize : base'.toNat + 4 * (ofLines labels pool index lines).pool.words.length
      ≤ 0x100000000) :
    ofLines labels' (pool.rebase base') (index + k) lines
      = (ofLines labels pool index lines).moveBack k base' := by
  induction lines generalizing pool index with
  | nil => rfl
  | cons line rest ih =>
    obtain ⟨hline, hrest⟩ := List.forall_mem_cons.mp hnone
    rw [List.length_cons] at hlines
    have haddr : (lineAddress (index + k)).toNat = (lineAddress index).toNat + 4 * k := by
      rw [Program.toNat_lineAddress (by omega), Program.toNat_lineAddress (by omega)]
      omega
    have hwords : Token.NamesNoLabel labels (Token.withoutLabels line) :=
      fun t ht => hline t (List.mem_filter.mp ht).1
    -- the pool after the line is part of the pool at the end, which is known to fit
    have hstep := Statement.assemble_raisedBy pool h hlabels haddr hbase hwords
    have hext := extends_ofLines labels pool index (line :: rest)
    rcases hassemble : Statement.assemble labels pool (lineAddress index)
      (Token.withoutLabels line) with ⟨e | i, pool'⟩
    · rw [ofLines_cons_error hassemble] at hsize ⊢
      rw [hassemble] at hstep
      rw [ofLines_cons_error (hstep hsize)]
      simp only [moveBack, Diagnostic.ofError, Diagnostic.withLine, Option.none_or,
        Option.map_some, Nat.add_right_comm]
    · rw [ofLines_cons_ok hassemble] at hsize ⊢
      rw [hassemble] at hstep
      have hpool : pool.Extends pool' := by
        have := Statement.extends_assemble labels pool (lineAddress index)
          (Token.withoutLabels line)
        rwa [hassemble] at this
      have hle := (extends_ofLines labels pool' (index + 1) rest).length_le
      dsimp only at hsize hstep
      have htail : ofLines labels' (pool'.rebase base') (index + 1 + k) rest
          = (ofLines labels pool' (index + 1) rest).moveBack k base' :=
        ih (hpool.base_eq ▸ hbase) hrest (by omega) hsize
      rw [ofLines_cons_ok (hstep (by omega)), Nat.add_right_comm index k 1, htail]
      rfl

/-- Empty lines are encoded to instructions that do nothing. -/
theorem ofLines_replicate_nil (labels : SymbolTable) (pool : LiteralPool) (index k : Nat)
    (lines : List (List Token)) :
    ofLines labels pool index (List.replicate k [] ++ lines)
      = { ofLines labels pool (index + k) lines with
          instructions := List.replicate k .nop
            ++ (ofLines labels pool (index + k) lines).instructions } := by
  induction k generalizing index with
  | zero => rfl
  | succ k ih =>
    have hnop : Statement.assemble labels pool (lineAddress index) (Token.withoutLabels [])
        = (.ok .nop, pool) := rfl
    rw [List.replicate_succ, List.cons_append, ofLines_cons_ok hnop, ih, List.replicate_succ,
      Nat.add_right_comm, Nat.add_assoc]
    rfl

end Listing

/-! ## Programs -/

section

variable {front tokens : List Token}

theorem Token.parts_append_newlines (h : ∀ t ∈ front, t.kind = .newline) :
    parts (front ++ tokens) = List.replicate front.length [] ++ parts tokens := by
  induction front with
  | nil => rfl
  | cons t front ih =>
    obtain ⟨ht, hfront⟩ := List.forall_mem_cons.mp h
    rw [List.cons_append, parts_of_newline ht, ih hfront]
    rfl

theorem Token.lines_append_newlines (h : ∀ t ∈ front, t.kind = .newline) :
    lines (front ++ tokens) = List.replicate front.length [] ++ lines tokens := by
  have hparts : parts (front ++ tokens) = List.replicate front.length [] ++ parts tokens :=
    parts_append_newlines h
  rw [← lines_concat_unfinished, ← lines_concat_unfinished, ← List.append_assoc] at hparts
  exact (List.append_inj' hparts rfl).1

theorem Token.lastPart?_replicate_nil (name : String) (k : Nat) (ps : List (List Token)) :
    lastPart? name (List.replicate k [] ++ ps) = (lastPart? name ps).map (· + k) := by
  induction k with
  | zero => simp
  | succ k ih =>
    rw [List.replicate_succ, List.cons_append, lastPart?, ih]
    cases lastPart? name ps with
    | none => rfl
    | some j => rfl

theorem Layout.labels_append_newlines (h : ∀ t ∈ front, t.kind = .newline) :
    (ofTokens tokens).labels.RaisedBy (Listing.lineAddress front.length)
      (ofTokens (front ++ tokens)).labels := by
  intro name
  rw [find?_labels, find?_labels, Token.parts_append_newlines h, Token.lastPart?_replicate_nil,
    Option.map_map, Option.map_map]
  congr 1
  funext j
  apply BitVec.eq_of_toNat_eq
  simp only [Function.comp_apply, Listing.lineAddress, BitVec.toNat_add, BitVec.toNat_ofNat]
  omega

end

namespace Program

/-- `p'` is `p` behind `k` instructions that do nothing. -/
structure Behind (k : Nat) (p p' : Program) : Prop where
  words : p'.words = List.replicate k Instruction.nop.encode ++ p.words
  labels : ∀ name, (p'.labels.find? name).map BitVec.toNat
    = (p.labels.find? name).map fun addr => addr.toNat + 4 * k

variable {front tokens : List Token}

/-- The labels of a program lie where the program does. -/
theorem toNat_label_add {k : Nat}
    (hsize : 4 * (k + Token.lineCount tokens) < 0x100000000) {name : String} {addr : Word}
    (h : (Layout.ofTokens tokens).labels.find? name = some addr) :
    (addr + Listing.lineAddress k).toNat = addr.toNat + 4 * k := by
  rw [Layout.find?_labels, Option.map_eq_some_iff] at h
  obtain ⟨j, hj, rfl⟩ := h
  have hle := Token.lastPart?_le_lineCount hj
  rw [BitVec.toNat_add, toNat_lineAddress (by omega), toNat_lineAddress (by omega)]
  omega

/-- The listing behind empty lines is the listing, moved back behind them. -/
theorem listing_append_newlines (hfront : ∀ t ∈ front, t.kind = .newline)
    (hsize : 4 * (front.length + Token.lineCount tokens + (pool tokens).words.length)
      < 0x100000000)
    (hnone : Token.NamesNoLabel (Layout.ofTokens tokens).labels tokens) :
    ∃ base, Listing.ofTokens (Layout.ofTokens (front ++ tokens)) (front ++ tokens)
      = { (Listing.ofTokens (Layout.ofTokens tokens) tokens).moveBack front.length base with
          instructions := List.replicate front.length .nop
            ++ (Listing.ofTokens (Layout.ofTokens tokens) tokens).instructions } := by
  have hcount : Token.lineCount (front ++ tokens)
      = front.length + Token.lineCount tokens := by
    rw [← Token.length_lines, Token.lines_append_newlines hfront, List.length_append,
      List.length_replicate, Token.length_lines]
  have hfinish : (Layout.ofTokens tokens).finish.toNat = 4 * Token.lineCount tokens := by
    rw [Layout.finish_ofTokens, toNat_lineAddress (by omega)]
  have hfinish' : (Layout.ofTokens (front ++ tokens)).finish.toNat
      = (Layout.ofTokens tokens).finish.toNat + 4 * front.length := by
    rw [Layout.finish_ofTokens, hcount, toNat_lineAddress (by omega), hfinish]
    omega
  have hlines : ∀ line ∈ Token.lines tokens,
      Token.NamesNoLabel (Layout.ofTokens tokens).labels line := by
    intro line hline t ht
    have hpart : line ∈ Token.parts tokens := by
      rw [← Token.lines_concat_unfinished]
      exact List.mem_append_left _ hline
    have hmem := (Token.exists_mem_parts.mp ⟨line, hpart, ht⟩).1
    exact hnone t ((List.takeWhile_prefix _).subset hmem)
  have hpool : (Layout.ofTokens (front ++ tokens)).finish.toNat
      + 4 * (Listing.ofTokens (Layout.ofTokens tokens) tokens).pool.words.length
        ≤ 0x100000000 := by
    rw [pool_eq] at hsize
    omega
  have hmove : Listing.ofLines (Layout.ofTokens (front ++ tokens)).labels
      ((LiteralPool.empty (Layout.ofTokens tokens).finish).rebase
        (Layout.ofTokens (front ++ tokens)).finish) (0 + front.length) (Token.lines tokens)
      = (Listing.ofTokens (Layout.ofTokens tokens) tokens).moveBack front.length
        (Layout.ofTokens (front ++ tokens)).finish :=
    Listing.ofLines_moveBack (Layout.labels_append_newlines hfront)
      (fun name target => toNat_label_add (by omega)) hfinish' hlines
      (by rw [Token.length_lines]; omega) hpool
  refine ⟨(Layout.ofTokens (front ++ tokens)).finish, ?_⟩
  have hempty : LiteralPool.empty (Layout.ofTokens (front ++ tokens)).finish
      = (LiteralPool.empty (Layout.ofTokens tokens).finish).rebase
        (Layout.ofTokens (front ++ tokens)).finish := rfl
  rw [Listing.ofTokens, Token.lines_append_newlines hfront, Listing.ofLines_replicate_nil,
    hempty, hmove]
  rfl

/--
**Empty lines in front of a program only move it.** Let no expression of the
program name a label, and let the program fit the address space behind the lines.
It is assembled behind them iff it is assembled without them, to the same words
with a word that does nothing for each of the lines, and with the same labels as
many words higher; and it fails behind them with the same error, as many lines
further down.
-/
theorem behind_empty_lines (hfront : ∀ t ∈ front, t.kind = .newline)
    (hsize : 4 * (front.length + Token.lineCount tokens + (pool tokens).words.length)
      < 0x100000000)
    (hnone : ∀ t ∈ tokens, t.kind = .expression →
      (Layout.ofTokens tokens).labels.find? t.text = none) :
    ((∃ p, ofTokens tokens = .ok p) ↔ ∃ p', ofTokens (front ++ tokens) = .ok p')
      ∧ (∀ p p', ofTokens tokens = .ok p → ofTokens (front ++ tokens) = .ok p' →
        Behind front.length p p')
      ∧ (∀ n e, ofTokens tokens = .error ⟨e, some n⟩
        ↔ ofTokens (front ++ tokens) = .error ⟨e, some (n + front.length)⟩) := by
  obtain ⟨base, hlisting⟩ := listing_append_newlines hfront hsize hnone
  have hfailure := congrArg Listing.failure hlisting
  simp only [Listing.moveBack] at hfailure
  refine ⟨?_, ?_, ?_⟩
  · rw [exists_ofTokens_eq_ok_iff, exists_ofTokens_eq_ok_iff, hfailure, Option.map_eq_none_iff]
  · intro p p' hp hp'
    obtain ⟨_, hwords, hlabels⟩ := eq_of_ofTokens hp
    obtain ⟨_, hwords', hlabels'⟩ := eq_of_ofTokens hp'
    constructor
    case words =>
      rw [hwords', hwords, pool_eq, pool_eq, Listing.lineWords, Listing.lineWords, hlisting]
      simp [Listing.moveBack, LiteralPool.rebase]
    case labels =>
      intro name
      rw [hlabels', hlabels, Layout.labels_append_newlines hfront name]
      cases hfind : (Layout.ofTokens tokens).labels.find? name with
      | none => rfl
      | some addr =>
        exact congrArg some (toNat_label_add (by omega) hfind)
  · intro n e
    rw [ofTokens_eq_error_iff, ofTokens_eq_error_iff, hfailure, Option.map_eq_some_iff]
    constructor
    · intro h
      exact ⟨_, h, rfl⟩
    · rintro ⟨⟨cause, line⟩, h, hd⟩
      obtain ⟨rfl, hline⟩ := Diagnostic.mk.inj hd
      obtain ⟨m, rfl, hm⟩ := Option.map_eq_some_iff.mp hline
      rw [h, Nat.add_right_cancel hm]

/-- A branch backward, one forward, and a constant from the pool. -/
def movable : List Token := tokenize "x: ldr r0, =0x12345\nbne x\nb y\ny:\n"

theorem behind_empty_lines_movable :
    (∀ t ∈ [Token.newline, .newline], t.kind = .newline)
      ∧ 4 * ([Token.newline, .newline].length + Token.lineCount movable
        + (pool movable).words.length) < 0x100000000
      ∧ (∀ t ∈ movable, t.kind = .expression →
        (Layout.ofTokens movable).labels.find? t.text = none)
      ∧ ∃ p p', ofTokens movable = .ok p ∧ ofTokens ([.newline, .newline] ++ movable) = .ok p'
        ∧ Behind 2 p p' ∧ p.words = [0xE59F0010, 0x1A000001, 0xEAFFFFFF, 0xE1A00000, 0x12345] := by
  have hfront : ∀ t ∈ [Token.newline, .newline], t.kind = .newline := by decide
  have hsize : 4 * ([Token.newline, .newline].length + Token.lineCount movable
      + (pool movable).words.length) < 0x100000000 := by decide +kernel
  have hnone : ∀ t ∈ movable, t.kind = .expression →
      (Layout.ofTokens movable).labels.find? t.text = none := by decide +kernel
  have hmap : (ofTokens movable).toOption.map words
      = some [0xE59F0010, 0x1A000001, 0xEAFFFFFF, 0xE1A00000, 0x12345] := by decide +kernel
  obtain ⟨p, hp, hwords⟩ := exists_of_map_words hmap
  obtain ⟨hiff, hbehind, _⟩ := behind_empty_lines hfront hsize hnone
  obtain ⟨p', hp'⟩ := hiff.mp ⟨p, hp⟩
  exact ⟨hfront, hsize, hnone, p, p', hp, hp', hbehind p p' hp hp', hwords⟩

end Program

end Armlet
