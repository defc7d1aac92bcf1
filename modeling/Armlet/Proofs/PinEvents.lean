import Mathlib.Logic.Function.Basic
import Armlet.Proofs.WordStore

/-!
# Pins and their events

A store to the set or the clear register does two things. It changes the word of levels,
all pins at once, and it lets an event be seen for every pin that it names. Neither is
made from the other, so it has to be shown that they agree: whoever knows the levels at
the start and follows the events knows the levels at any time.

What one access does to a pin, `Access.switched` says already. Here it is shown of the
events of one access, and so of the events of all accesses put together.
-/

namespace Armlet

/-! ## Following events -/

/-- The levels of the pins after an event. No other event than that of a pin changes them. -/
def Event.follow (levels : Nat → Bool) : Event → Nat → Bool
  | .pin number on => Function.update levels number on
  | .decoded .. | .conditionFailed .. | .halted .. => levels

namespace Board

/-- The events of an access. A read has none. -/
def accessEvents (board : Board) : Access → List Event
  | .read _ => []
  | .write addr v => (board.write addr v).events

/-- The events of a sequence of accesses, in the order they occurred. -/
def eventsOf (board : Board) : List Access → List Event
  | [] => []
  | a :: rest => board.accessEvents a ++ (board.accessed a).eventsOf rest

end Board

/-- The events of a store: one for each pin that it names, or none if it switches no pins. -/
structure Announces (addr value : Word) (events : List Event) : Prop where
  switching : addr = PinRegister.set.address ∨ addr = PinRegister.clear.address →
    ∃ named : List Nat, events = named.map (.pin · (decide (addr = PinRegister.set.address)))
      ∧ named.Pairwise (· < ·) ∧ ∀ p, p ∈ named ↔ value.getLsbD p = true
  silent : addr ≠ PinRegister.set.address → addr ≠ PinRegister.clear.address → events = []

/-! ## One store -/

namespace Pins

/-- The pins that a word names, from the lowest up. -/
def named (value : Word) : List Nat := (List.range 32).filter value.getLsbD

theorem switchEvents_eq (value : Word) (on : Bool) :
    switchEvents value on = (named value).map (.pin · on) := rfl

theorem mem_named {value : Word} {p : Nat} : p ∈ named value ↔ value.getLsbD p = true := by
  rw [named, List.mem_filter, List.mem_range]
  constructor
  · intro h
    exact h.2
  · intro h
    exact ⟨BitVec.lt_of_getLsbD h, h⟩

theorem named_ascending (value : Word) : (named value).Pairwise (· < ·) :=
  List.pairwise_lt_range.filter _

/-- After events that all switch to one level, the pins in them have it. -/
theorem foldl_follow_map_pin (pins : List Nat) (on : Bool) (levels : Nat → Bool) (p : Nat) :
    (pins.map (Event.pin · on)).foldl Event.follow levels p
      = if p ∈ pins then on else levels p := by
  induction pins generalizing levels with
  | nil => simp
  | cons q pins ih =>
    rw [List.map_cons, List.foldl_cons, ih]
    by_cases hmem : p ∈ pins
    · rw [if_pos hmem, if_pos (List.mem_cons_of_mem q hmem)]
    · rw [if_neg hmem, Event.follow]
      by_cases heq : p = q
      · rw [heq, Function.update_self, if_pos List.mem_cons_self]
      · rw [Function.update_of_ne heq, if_neg]
        simp [heq, hmem]

theorem foldl_follow_switchEvents (value : Word) (on : Bool) (levels : Nat → Bool) (p : Nat) :
    (switchEvents value on).foldl Event.follow levels p
      = if value.getLsbD p then on else levels p := by
  rw [switchEvents_eq, foldl_follow_map_pin]
  simp only [mem_named]

/-- There are 32 pins. -/
theorem level_of_ge (pins : Pins) {p : Nat} (hp : 32 ≤ p) : pins.level p = false :=
  BitVec.getLsbD_of_ge _ _ hp

end Pins

theorem Ram.events_write (ram : Ram) (addr v : Word) : (ram.write addr v).events = [] := by
  unfold write
  split
  · rfl
  · rfl

namespace Board

variable (board : Board)

theorem events_write_address (r : PinRegister) (v : Word) :
    (board.write r.address v).events = (board.pins.write r v).events := by
  rw [board.write_of_register v (PinRegister.ofAddress?_address r)]

theorem events_write_memory {addr : Word} (hpin : ∀ r : PinRegister, r.address ≠ addr) (v : Word) :
    (board.write addr v).events = [] := by
  rw [board.write_of_memory v (PinRegister.ofAddress?_eq_none_iff.mpr hpin)]
  exact board.ram.events_write addr v

theorem announces_write (addr v : Word) : Announces addr v (board.write addr v).events := by
  constructor
  case switching =>
    rintro (rfl | rfl)
    · refine ⟨Pins.named v, ?_, Pins.named_ascending v, fun p => Pins.mem_named⟩
      rw [events_write_address, decide_eq_true rfl]
      rfl
    · refine ⟨Pins.named v, ?_, Pins.named_ascending v, fun p => Pins.mem_named⟩
      rw [events_write_address, decide_eq_false (by decide)]
      rfl
  case silent =>
    intro hset hclear
    rcases PinRegister.address_cases addr with ⟨r, rfl⟩ | hpin
    · rw [events_write_address]
      cases r with
      | functionSelect i => rfl
      | set => exact absurd rfl hset
      | clear => exact absurd rfl hclear
    · exact board.events_write_memory hpin v

/-- The events of an access switch the pins that the access switches. -/
theorem foldl_follow_accessEvents (a : Access) (levels : Nat → Bool) (p : Nat) :
    (board.accessEvents a).foldl Event.follow levels p = (a.switched p).getD (levels p) := by
  cases a with
  | read _ => rfl
  | write addr v =>
    rw [accessEvents, Access.switched]
    rcases PinRegister.address_cases addr with ⟨r, rfl⟩ | hpin
    · rw [events_write_address]
      simp only [PinRegister.address_eq_iff]
      cases r with
      | functionSelect i => simp [Pins.write]
      | set =>
        rw [Pins.write, Pins.foldl_follow_switchEvents]
        split <;> simp
      | clear =>
        rw [Pins.write, Pins.foldl_follow_switchEvents]
        split <;> simp
    · rw [board.events_write_memory hpin, if_neg (hpin .set).symm, if_neg (hpin .clear).symm]
      split <;> rfl

/-- **One access.** The events lead from the levels before it to the levels after it. -/
theorem follow_access (a : Access) :
    (board.accessEvents a).foldl Event.follow board.pins.level
      = (board.accessed a).pins.level := by
  funext p
  by_cases hp : p < 32
  · rw [foldl_follow_accessEvents]
    exact (board.level_accessed a hp).symm
  · have hge : 32 ≤ p := Nat.le_of_not_lt hp
    rw [foldl_follow_accessEvents, Pins.level_of_ge _ hge, Pins.level_of_ge _ hge]
    -- no word names a pin that does not exist
    cases a with
    | read _ => rfl
    | write addr v =>
      rw [Access.switched, BitVec.getLsbD_of_ge v p hge]
      rfl

/-! ## Sequences of accesses -/

theorem eventsOf_append (past more : List Access) :
    board.eventsOf (past ++ more)
      = board.eventsOf past ++ (board.afterAccesses past).eventsOf more := by
  induction past generalizing board with
  | nil => rfl
  | cons a rest ih =>
    rw [List.cons_append, eventsOf, eventsOf, ih, List.append_assoc]
    rfl

/-- **All accesses.** The events lead from the levels at the start to the levels at the end. -/
theorem follow_eventsOf (past : List Access) :
    (board.eventsOf past).foldl Event.follow board.pins.level
      = (board.afterAccesses past).pins.level := by
  induction past generalizing board with
  | nil => rfl
  | cons a rest ih =>
    rw [eventsOf, List.foldl_append, follow_access]
    exact ih (board.accessed a)

/--
**The events tell the levels.** Whatever has been stored and read since, the events on the
way lead from the levels of the pins at the start to those that they have now. A store adds
its events to these: if it is one to the set or the clear register, one for each pin that it
names, in ascending order and with the level it is switched to; else none.
-/
theorem events_tell_levels (start : Board) (past : List Access) :
    (start.eventsOf past).foldl Event.follow start.pins.level
        = (start.afterAccesses past).pins.level
      ∧ ∀ addr v : Word, ∃ events, Announces addr v events
        ∧ start.eventsOf (past ++ [.write addr v]) = start.eventsOf past ++ events := by
  refine ⟨start.follow_eventsOf past, fun addr v => ?_⟩
  refine ⟨_, (start.afterAccesses past).announces_write addr v, ?_⟩
  rw [eventsOf_append, eventsOf, eventsOf, List.append_nil]
  rfl

-- a pin may be switched on that is on already, and off again by a store that names others too
example : (⟨⟨#[]⟩, .initial⟩ : Board).eventsOf
    [.write 0x2020001C 5, .write 0x2020001C 4, .write 0x20200028 6]
      = [.pin 0 true, .pin 2 true, .pin 2 true, .pin 1 false, .pin 2 false] := by
  decide

end Board

end Armlet
