import Armlet.Proofs.Constants

/-!
# What a line does to the literal pool

One pool serves all lines of a program, so a line must not spoil it for the others. A line
`ldr rd, =e` adds its value, if that does not fit a byte and is not in the pool yet. No
other line changes the pool, and nothing that is in it is ever moved.

A line that is refused leaves the pool alone as well, with one exception. How far away a
value is cannot be known before the value has a place, so a value is added first and its
distance is looked at afterwards. If it is too far ahead, the line is refused and the value
stays. It does no harm there: an error ends the assembly, and the pool is given up with it.

Addresses that have been handed out are kept by all of this, by the lines that are encoded
as well as by those that are not.
-/

namespace Armlet

/-! ## Addresses of values -/

namespace LiteralPool

/-- The pool with one more value at its end. -/
def append (pool : LiteralPool) (v : Word) : LiteralPool :=
  { pool with words := pool.words ++ [v] }

/-- The value stands at the address. -/
def HasAt (pool : LiteralPool) (addr v : Word) : Prop :=
  ∃ j, pool.slot j = addr ∧ pool.words[j]? = some v

variable {p q : LiteralPool} {addr v w : Word}

theorem append_ne_self (pool : LiteralPool) (v : Word) : pool.append v ≠ pool := by
  intro h
  have hlength := congrArg (fun pool => pool.words.length) h
  simp [append] at hlength

/-- What has been added later makes no difference. -/
theorem HasAt.extends (h : p.HasAt addr v) (hpq : p.Extends q) : q.HasAt addr v := by
  obtain ⟨j, hslot, hget⟩ := h
  refine ⟨j, ?_, hpq.getElem?_eq hget⟩
  rw [← hslot, slot, slot, hpq.base_eq]

/-- In a pool that ends within the address space, no address has two values. -/
theorem HasAt.unique (h : p.HasAt addr v) (h' : p.HasAt addr w)
    (hsize : p.base.toNat + 4 * p.words.length ≤ 0x100000000) : v = w := by
  obtain ⟨j, hslot, hget⟩ := h
  obtain ⟨k, hslot', hget'⟩ := h'
  obtain ⟨hj, _⟩ := List.getElem?_eq_some_iff.mp hget
  obtain ⟨hk, _⟩ := List.getElem?_eq_some_iff.mp hget'
  have hnat : (p.slot j).toNat = (p.slot k).toNat := by rw [hslot, hslot']
  rw [toNat_slot (by omega), toNat_slot (by omega)] at hnat
  have hjk : j = k := by omega
  subst hjk
  exact Option.some.inj (hget.symm.trans hget')

/-- The value is the one that stands at the address. -/
def Denotes (pool : LiteralPool) (addr v : Word) : Prop :=
  pool.HasAt addr v
    ∧ (pool.base.toNat + 4 * pool.words.length ≤ 0x100000000 → ∀ w, pool.HasAt addr w → w = v)

theorem HasAt.denotes (h : p.HasAt addr v) : p.Denotes addr v :=
  ⟨h, fun hsize _ hw => hw.unique h hsize⟩

/-- Interning puts the value where it says. -/
theorem hasAt_intern (pool : LiteralPool) (v : Word) :
    (pool.intern v).2.HasAt (pool.intern v).1 v := by
  obtain ⟨hextends, j, _, hslot, hget⟩ := pool.intern_spec v
  refine ⟨j, ?_, hget⟩
  rw [hslot, slot, slot, hextends.base_eq]

end LiteralPool

/-! ## One line -/

namespace Statement

variable {labels : SymbolTable} {pool : LiteralPool} {addr : Word} {line : List Token}
  {rd : Register} {v : Word}

/-- The line loads a value that does not fit a byte and that the pool does not have. -/
def LoadsNew (labels : SymbolTable) (pool : LiteralPool) (line : List Token) (v : Word) : Prop :=
  (∃ rd, constantLoad? labels line = some (rd, v)) ∧ 0xFF < v ∧ v ∉ pool.words

/-- How far behind `addr` the next value of the pool comes to stand. -/
def nextDistance (pool : LiteralPool) (addr : Word) : Int :=
  ((pool.slot pool.words.length).toNat : Int) - addr.toNat

/-- A line that loads no constant has no business with the pool. -/
theorem assemble_of_no_constant (h : constantLoad? labels line = none) :
    (assemble labels pool addr line).2 = pool := by
  unfold assemble
  split
  · rename_i s hs
    cases s with
    | loadConstant rd v =>
      rw [parse_eq_loadConstant_iff.mp hs] at h
      cases h
    | blank => rfl
    | instruction i => rfl
    | branchTo cond target => rfl
  · rfl

theorem assemble_of_constant (h : constantLoad? labels line = some (rd, v)) :
    assemble labels pool addr line
      = if v ≤ 0xFF then (.ok (moveByte rd v), pool)
        else (encodeLoad addr rd (pool.intern v).1, (pool.intern v).2) := by
  rw [assemble, parse_eq_loadConstant_iff.mpr h]
  rfl

theorem assemble_of_large (h : constantLoad? labels line = some (rd, v)) (hv : 0xFF < v) :
    assemble labels pool addr line
      = (encodeLoad addr rd (pool.intern v).1, (pool.intern v).2) := by
  rw [assemble_of_constant h, if_neg (BitVec.not_le.mpr hv)]

/-- The new value is added, wherever it comes to stand. -/
theorem pool_of_loadsNew (h : LoadsNew labels pool line v) :
    (assemble labels pool addr line).2 = pool.append v := by
  obtain ⟨⟨rd, hload⟩, hv, hnew⟩ := h
  rw [assemble_of_large hload hv, LiteralPool.intern_eq]
  exact if_neg hnew

/-- The line is refused iff the new value comes to stand too far ahead. -/
theorem error_of_loadsNew_iff (h : LoadsNew labels pool line v) {e : SourceError} :
    (assemble labels pool addr line).1 = .error e
      ↔ 4095 < nextDistance pool addr ∧ e = .unencodable (nextDistance pool addr) := by
  obtain ⟨⟨rd, hload⟩, hv, hnew⟩ := h
  rw [assemble_of_large hload hv, encodeLoad_eq_error_iff, LiteralPool.intern_eq,
    List.idxOf_of_notMem hnew]
  rfl

theorem pool_of_not_loadsNew (h : ∀ v, ¬ LoadsNew labels pool line v) :
    (assemble labels pool addr line).2 = pool := by
  cases hload : constantLoad? labels line with
  | none => exact assemble_of_no_constant hload
  | some load =>
    obtain ⟨rd, v⟩ := load
    rw [assemble_of_constant hload]
    split
    · rfl
    · rename_i hv
      -- the value is large, so it must be there already
      have hmem : v ∈ pool.words := by
        by_contra hnew
        exact h v ⟨⟨rd, hload⟩, BitVec.not_le.mp hv, hnew⟩
      rw [LiteralPool.intern_eq]
      exact if_pos hmem

/-! ## Sequences of lines -/

/-- The pool after some lines, each of them given with its address. -/
def poolAfter (labels : SymbolTable) (pool : LiteralPool) (calls : List (Word × List Token)) :
    LiteralPool :=
  calls.foldl (fun pool call => (assemble labels pool call.1 call.2).2) pool

theorem poolAfter_cons (call : Word × List Token) (after : List (Word × List Token)) :
    poolAfter labels pool (call :: after)
      = poolAfter labels (assemble labels pool call.1 call.2).2 after := rfl

theorem poolAfter_append (before after : List (Word × List Token)) :
    poolAfter labels pool (before ++ after)
      = poolAfter labels (poolAfter labels pool before) after :=
  List.foldl_append

/-- **All lines.** The pool grows at its end only. -/
theorem extends_poolAfter (labels : SymbolTable) (pool : LiteralPool)
    (calls : List (Word × List Token)) : pool.Extends (poolAfter labels pool calls) := by
  induction calls generalizing pool with
  | nil => exact .refl pool
  | cons call rest ih => exact (extends_assemble labels pool call.1 call.2).trans (ih _)

/--
**A line adds its constant to the pool, or leaves the pool as it is.**

It adds the constant iff this is new, and nothing else is ever added. A line that is
refused has added nothing, unless it is refused for the distance of its new constant. And
an address that a line has taken from the pool has the value of this line for good, and no
other, whatever lines come after it and whether they can be encoded or not.
-/
theorem pool_kept_or_extended (labels : SymbolTable) (pool : LiteralPool) :
    (∀ addr line,
      ((assemble labels pool addr line).2 ≠ pool ↔ ∃ v, LoadsNew labels pool line v)
      ∧ (∀ v, LoadsNew labels pool line v →
        (assemble labels pool addr line).2 = pool.append v)
      ∧ ∀ e, (assemble labels pool addr line).1 = .error e →
        (assemble labels pool addr line).2 = pool
          ∨ ∃ v, LoadsNew labels pool line v ∧ 4095 < nextDistance pool addr
            ∧ e = .unencodable (nextDistance pool addr))
      ∧ ∀ before addr line rd v, constantLoad? labels line = some (rd, v) → 0xFF < v →
        ∃ a, (assemble labels (poolAfter labels pool before) addr line).1 = encodeLoad addr rd a
          ∧ ∀ after, (poolAfter labels pool (before ++ (addr, line) :: after)).Denotes a v := by
  constructor
  · intro addr line
    by_cases hnew : ∃ v, LoadsNew labels pool line v
    · obtain ⟨v, hv⟩ := hnew
      have hadded : (assemble labels pool addr line).2 = pool.append v := pool_of_loadsNew hv
      refine ⟨iff_of_true ?_ ⟨v, hv⟩, fun _ => pool_of_loadsNew, fun e he => .inr ⟨v, hv, ?_⟩⟩
      · rw [hadded]
        exact pool.append_ne_self v
      · exact (error_of_loadsNew_iff hv).mp he
    · have hkept : (assemble labels pool addr line).2 = pool :=
        pool_of_not_loadsNew (not_exists.mp hnew)
      exact ⟨iff_of_false (not_not.mpr hkept) hnew, fun _ => pool_of_loadsNew,
        fun _ _ => .inl hkept⟩
  · intro before addr line rd v hload hv
    have hassemble : assemble labels (poolAfter labels pool before) addr line = _ :=
      assemble_of_large hload hv
    refine ⟨_, congrArg Prod.fst hassemble, fun after => LiteralPool.HasAt.denotes ?_⟩
    -- the value stands there behind its own line, and no later line moves it
    rw [poolAfter_append, poolAfter_cons, hassemble]
    exact (LiteralPool.hasAt_intern _ v).extends (extends_poolAfter labels _ after)

/-- A line whose constant has to be loaded. -/
def remote : List Token := [⟨.name, "ldr"⟩, ⟨.name, "r0"⟩, ⟨.expression, "0x100"⟩]

/-- The first line is refused, since the pool begins 4096 bytes ahead; the second one finds the
constant there, and a line that cannot be read does not take it away. -/
theorem pool_kept_or_extended_remote :
    LoadsNew .empty (.empty 0x1000) remote 0x100
      ∧ (assemble .empty (.empty 0x1000) 0 remote).2 = ⟨0x1000, [0x100]⟩
      ∧ (assemble .empty (.empty 0x1000) 0 remote).1 = .error (.unencodable 0x1000)
      ∧ ((assemble .empty (.empty 0x1000) 0 remote).2 = .empty 0x1000
        ∨ ∃ v, LoadsNew .empty (.empty 0x1000) remote v
          ∧ 4095 < nextDistance (.empty 0x1000) 0
          ∧ SourceError.unencodable 0x1000 = .unencodable (nextDistance (.empty 0x1000) 0))
      ∧ constantLoad? .empty remote = some (.r0, 0x100)
      ∧ ∃ a, (assemble .empty (poolAfter .empty (.empty 0x1000) [(0, remote)]) 4 remote).1
          = encodeLoad 4 .r0 a
        ∧ (poolAfter .empty (.empty 0x1000)
          [(0, remote), (4, remote), (8, [⟨.name, "ldr"⟩])]).Denotes a 0x100 := by
  obtain ⟨hline, hrun⟩ := pool_kept_or_extended .empty (.empty 0x1000)
  obtain ⟨_, hadded, hrefused⟩ := hline 0 remote
  have hload : constantLoad? .empty remote = some (.r0, 0x100) := by decide +kernel
  have hnew : LoadsNew .empty (.empty 0x1000) remote 0x100 :=
    ⟨⟨.r0, hload⟩, by decide, List.not_mem_nil⟩
  have herror : (assemble .empty (.empty 0x1000) 0 remote).1 = .error (.unencodable 0x1000) := by
    decide +kernel
  obtain ⟨a, hanswer, hdenotes⟩ := hrun [(0, remote)] 4 remote .r0 0x100 hload (by decide)
  exact ⟨hnew, hadded 0x100 hnew, herror, hrefused _ herror, hload, a, hanswer,
    hdenotes [(8, [⟨.name, "ldr"⟩])]⟩

/-- A line that is refused can have changed the pool. -/
theorem pool_extended_by_refusal :
    (assemble .empty (.empty 0x1000) 0 remote).1 = .error (.unencodable 0x1000)
      ∧ (assemble .empty (.empty 0x1000) 0 remote).2 ≠ .empty 0x1000 := by
  decide +kernel

end Statement

end Armlet
