import Armlet.Proofs.TrapState

/-!
# A board as a word store

Seen from its bus, a board is a store of words. What it answers is a matter of
what has been stored, and nothing that lies behind an answer has to be known for
it: bytes in memory, or a word that two registers share.

* A function select returns the word that was stored to it last.
* The set and the clear register return a word made of pins. Each pin is as the
  last store has left it that named the pin, be it to set or to clear it.
* Any other address is one of memory. It is refused if it is no multiple of four,
  or if its word is not inside; else it returns the word stored to it last.

Where nothing has been stored, the answer is what has been there at the start.
`Recalls` says this of a board and of the accesses made to it since the start. One
access keeps it, so all sequences of accesses do.
-/

namespace Armlet

/-! ## Accesses and what is left of them -/

/-- A call on the bus. -/
inductive Access where
  | read (addr : Word)
  | write (addr value : Word)
  deriving DecidableEq, Repr

namespace Access

/-- The word that an access stores at `addr`, if it is a store to this address. -/
def storedAt (addr : Word) : Access → Option Word
  | read _ => none
  | write a v => if a = addr then some v else none

/-- The level to which an access switches a pin, if it does. -/
def switched (pin : Nat) : Access → Option Bool
  | read _ => none
  | write a v =>
    if v.getLsbD pin then
      if a = PinRegister.set.address then some true
      else if a = PinRegister.clear.address then some false
      else none
    else none

/-- What the last access has left of which `f` says that it leaves something. -/
def last {α : Type} (f : Access → Option α) (past : List Access) : Option α :=
  past.reverse.findSome? f

/-- The last access comes before all others. -/
theorem getD_last_concat {α : Type} (f : Access → Option α) (past : List Access) (a : Access)
    (d : α) : (last f (past ++ [a])).getD d = (f a).getD ((last f past).getD d) := by
  unfold last
  rw [List.reverse_concat, List.findSome?_cons]
  cases f a with
  | none => rfl
  | some v => rfl

end Access

namespace Board

/-- A board after an access. A read leaves it as it is. -/
def accessed (board : Board) : Access → Board
  | .read _ => board
  | .write addr v => (board.write addr v).state

/-- A board after a sequence of accesses, the first one at the head. -/
def afterAccesses (board : Board) (past : List Access) : Board := past.foldl accessed board

/-! ## What one access does -/

section

variable (board : Board)

theorem read_address (r : PinRegister) : board.read r.address = .ok (board.pins.read r) := by
  rw [read, PinRegister.ofAddress?_address]

theorem accessed_write_address (r : PinRegister) (v : Word) :
    board.accessed (.write r.address v) = { board with pins := (board.pins.write r v).state } := by
  change (board.write r.address v).state = _
  rw [board.write_of_register v (PinRegister.ofAddress?_address r)]

theorem accessed_write_memory {addr : Word} (hpin : ∀ r : PinRegister, r.address ≠ addr)
    (v : Word) :
    board.accessed (.write addr v) = { board with ram := (board.ram.write addr v).state } := by
  change (board.write addr v).state = _
  rw [board.write_of_memory v (PinRegister.ofAddress?_eq_none_iff.mpr hpin)]

variable (a : Access)

theorem size_accessed : (board.accessed a).ram.size = board.ram.size := by
  cases a with
  | read _ => rfl
  | write addr v =>
    rcases PinRegister.address_cases addr with ⟨r, rfl⟩ | hpin
    · rw [board.accessed_write_address]
    · rw [board.accessed_write_memory hpin]
      exact board.ram.size_write addr v

theorem word_accessed {addr : Word} (hpin : ∀ r : PinRegister, r.address ≠ addr)
    (haligned : addr.toNat % 4 = 0) (hfits : addr.toNat + 4 ≤ board.ram.size) :
    (board.accessed a).ram.word addr.toNat
      = (a.storedAt addr).getD (board.ram.word addr.toNat) := by
  cases a with
  | read _ => rfl
  | write other v =>
    rw [Access.storedAt]
    rcases PinRegister.address_cases other with ⟨r, rfl⟩ | hother
    · rw [board.accessed_write_address, if_neg (hpin r)]
      rfl
    · rw [board.accessed_write_memory hother]
      split
      · rename_i heq
        rw [heq, board.ram.write_of_no_fault v (board.ram.fault?_eq_none_iff.mpr ⟨haligned, hfits⟩)]
        exact board.ram.word_putWord_self v hfits
      · rename_i hne
        -- `addr` is a multiple of four, so a store elsewhere misses its word altogether
        have hne' : addr.toNat ≠ other.toNat := fun heq => hne (BitVec.toNat_inj.mp heq.symm)
        obtain ⟨k, hk⟩ : ∃ k, addr.toNat = 4 * k := ⟨addr.toNat / 4, by omega⟩
        rw [hk] at hne' ⊢
        exact board.ram.word_write_of_ne v hne'

theorem select_accessed (i : Fin 4) :
    (board.accessed a).pins.functionSelect.get i
      = (a.storedAt (PinRegister.functionSelect i).address).getD
        (board.pins.functionSelect.get i) := by
  cases a with
  | read _ => rfl
  | write addr v =>
    rw [Access.storedAt]
    rcases PinRegister.address_cases addr with ⟨r, rfl⟩ | hpin
    · rw [board.accessed_write_address]
      simp only [PinRegister.address_eq_iff]
      cases r with
      | functionSelect j =>
        change (board.pins.functionSelect.set j v)[i] = _
        split
        · rename_i heq
          cases heq
          exact Vector.getElem_set_self _
        · rename_i hne
          have hval : j.val ≠ i.val := fun heq => hne (congrArg _ (Fin.ext heq))
          exact Vector.getElem_set_ne j.isLt i.isLt hval
      | set => rfl
      | clear => rfl
    · rw [board.accessed_write_memory hpin, if_neg (hpin _).symm]
      rfl

theorem level_accessed {p : Nat} (hp : p < 32) :
    (board.accessed a).pins.levels.getLsbD p
      = (a.switched p).getD (board.pins.levels.getLsbD p) := by
  cases a with
  | read _ => rfl
  | write addr v =>
    rw [Access.switched]
    rcases PinRegister.address_cases addr with ⟨r, rfl⟩ | hpin
    · rw [board.accessed_write_address]
      simp only [PinRegister.address_eq_iff]
      cases r with
      | functionSelect j =>
        split
        · rfl
        · rfl
      | set =>
        change (board.pins.levels ||| v).getLsbD p = _
        rw [BitVec.getLsbD_or]
        cases v.getLsbD p with
        | false => exact Bool.or_false _
        | true => exact Bool.or_true _
      | clear =>
        change (board.pins.levels &&& ~~~v).getLsbD p = _
        rw [BitVec.getLsbD_and, BitVec.getLsbD_not, decide_eq_true hp, Bool.true_and]
        cases v.getLsbD p with
        | false => exact Bool.and_true _
        | true => exact Bool.and_false _
    · rw [board.accessed_write_memory hpin, if_neg (hpin .set).symm, if_neg (hpin .clear).symm]
      split
      · rfl
      · rfl

end

/-! ## Sequences of accesses -/

/-- What a board remembers of the accesses made to it since it was `start`. -/
structure Recalls (start : Board) (past : List Access) (now : Board) : Prop where
  size : now.ram.size = start.ram.size
  words : ∀ addr : Word, (∀ r : PinRegister, r.address ≠ addr) → addr.toNat % 4 = 0 →
    addr.toNat + 4 ≤ start.ram.size →
    now.ram.word addr.toNat
      = (Access.last (Access.storedAt addr) past).getD (start.ram.word addr.toNat)
  selects : ∀ i : Fin 4, now.pins.functionSelect.get i
    = (Access.last (Access.storedAt (PinRegister.functionSelect i).address) past).getD
      (start.pins.functionSelect.get i)
  levels : ∀ p, p < 32 → now.pins.levels.getLsbD p
    = (Access.last (Access.switched p) past).getD (start.pins.levels.getLsbD p)

theorem recalls_nil (start : Board) : Recalls start [] start where
  size := rfl
  words := fun _ _ _ _ => rfl
  selects := fun _ => rfl
  levels := fun _ _ => rfl

/-- **Kept by every access.** -/
theorem Recalls.concat {start now : Board} {past : List Access} (h : Recalls start past now)
    (a : Access) : Recalls start (past ++ [a]) (now.accessed a) where
  size := (now.size_accessed a).trans h.size
  words := by
    intro addr hpin haligned hfits
    rw [now.word_accessed a hpin haligned (h.size ▸ hfits), h.words addr hpin haligned hfits,
      Access.getD_last_concat]
  selects := by
    intro i
    rw [now.select_accessed a i, h.selects i, Access.getD_last_concat]
  levels := by
    intro p hp
    rw [now.level_accessed a hp, h.levels p hp, Access.getD_last_concat]

theorem Recalls.append {start now : Board} {past : List Access} (h : Recalls start past now)
    (more : List Access) : Recalls start (past ++ more) (now.afterAccesses more) := by
  -- what has been done to the board grows at its end, what is still to be done is used up
  induction more generalizing past now with
  | nil =>
    rw [List.append_nil]
    exact h
  | cons a more ih =>
    rw [List.append_cons]
    exact ih (h.concat a)

/-! ## The store -/

/-- The answers of a board that was `start` before the accesses `past`, and what they change. -/
structure AnswersAsStore (start : Board) (past : List Access) (now : Board) : Prop where
  /-- A function select returns the last word stored to it. -/
  select_read : ∀ i : Fin 4, now.read (PinRegister.functionSelect i).address
    = .ok ((Access.last (Access.storedAt (PinRegister.functionSelect i).address) past).getD
      (start.pins.functionSelect.get i))
  /-- Both switches return the pins, each of them as it was switched last. -/
  levels_read : ∃ w : Word, now.read PinRegister.set.address = .ok w
    ∧ now.read PinRegister.clear.address = .ok w
    ∧ ∀ p, p < 32 → w.getLsbD p
      = (Access.last (Access.switched p) past).getD (start.pins.levels.getLsbD p)
  /-- A store to a register is never refused. -/
  register_write : ∀ (r : PinRegister) (v : Word), (now.write r.address v).answer = .ok ()
  /-- Any other address returns the last word stored to it, if it is not refused. -/
  memory_read : ∀ addr : Word, (∀ r : PinRegister, r.address ≠ addr) → now.read addr
    = if addr.toNat % 4 ≠ 0 then .error (.unaligned addr)
      else if start.ram.size < addr.toNat + 4 then .error (.outOfRange addr)
      else .ok ((Access.last (Access.storedAt addr) past).getD
        (BitVec.ofNat 32 (start.ram.littleEndian addr.toNat)))
  /-- A store is refused where a read is. -/
  memory_write : ∀ addr v : Word, (∀ r : PinRegister, r.address ≠ addr) →
    (now.write addr v).answer
      = if addr.toNat % 4 ≠ 0 then .error (.unaligned addr)
        else if start.ram.size < addr.toNat + 4 then .error (.outOfRange addr)
        else .ok ()
  read_keeps : ∀ addr : Word, now.accessed (.read addr) = now
  refused_keeps : ∀ (addr v : Word) (t : Trap), (now.write addr v).answer = .error t →
    now.accessed (.write addr v) = now
  /-- A store to memory changes neither the pins nor any other word. -/
  memory_keeps : ∀ addr v : Word, (∀ r : PinRegister, r.address ≠ addr) →
    (now.accessed (.write addr v)).pins = now.pins
      ∧ ∀ k, 4 * k ≠ addr.toNat →
        (now.accessed (.write addr v)).ram.littleEndian (4 * k) = now.ram.littleEndian (4 * k)
  /-- A store to a register changes no byte of memory. -/
  register_keeps : ∀ (r : PinRegister) (v : Word),
    (now.accessed (.write r.address v)).ram = now.ram

theorem Recalls.memory_read {start now : Board} {past : List Access} (h : Recalls start past now)
    {addr : Word} (hpin : ∀ r : PinRegister, r.address ≠ addr) : now.read addr
    = if addr.toNat % 4 ≠ 0 then .error (.unaligned addr)
      else if start.ram.size < addr.toNat + 4 then .error (.outOfRange addr)
      else .ok ((Access.last (Access.storedAt addr) past).getD
        (BitVec.ofNat 32 (start.ram.littleEndian addr.toNat))) := by
  rw [now.read_of_memory (PinRegister.ofAddress?_eq_none_iff.mpr hpin), now.ram.read_eq, h.size]
  -- the answers differ only where there is a word to return
  refine ite_congr rfl (fun _ => rfl) fun haligned => ite_congr rfl (fun _ => rfl) fun hinside => ?_
  rw [h.words addr hpin (by omega) (by omega), start.ram.word_eq_ofNat]

/--
**A board is a word store.** After any accesses it answers the next one from what
has been stored to this address, or to this pin, by the last of the accesses that
did so. It does not matter how much memory there is.
-/
theorem answersAsStore_afterAccesses (start : Board) (past : List Access) :
    AnswersAsStore start past (start.afterAccesses past) := by
  have h : Recalls start past (start.afterAccesses past) := (recalls_nil start).append past
  generalize start.afterAccesses past = now at h
  exact {
    select_read := by
      intro i
      rw [read_address, ← h.selects i]
      rfl
    levels_read := ⟨now.pins.levels, now.read_address .set, now.read_address .clear, h.levels⟩
    register_write := by
      intro r v
      rw [now.write_of_register v (PinRegister.ofAddress?_address r)]
      exact now.pins.answer_write r v
    memory_read := fun addr hpin => h.memory_read hpin
    memory_write := by
      intro addr v hpin
      rw [now.write_of_memory v (PinRegister.ofAddress?_eq_none_iff.mpr hpin), now.ram.answer_write,
        h.size]
    read_keeps := fun addr => rfl
    refused_keeps := fun addr v t ht => now.state_of_write_error addr v t ht
    memory_keeps := by
      intro addr v hpin
      rw [now.accessed_write_memory hpin v]
      refine ⟨rfl, fun k hk => ?_⟩
      rw [← Ram.toNat_word, ← Ram.toNat_word, now.ram.word_write_of_ne v hk]
    register_keeps := by
      intro r v
      rw [accessed_write_address] }

end Board

end Armlet
