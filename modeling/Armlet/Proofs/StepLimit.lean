import Armlet.Proofs.Lockstep
import Armlet.Proofs.Memory
import Armlet.Proofs.Run

/-!
# The limit of a run

A limit cuts a run off and does nothing else. Under the limit `n` a run is the
first `n` steps of the one future that the machine has, or fewer if one of them
halts or traps; a halt that comes with the last permitted step still counts, and
so does a trap.

The proof goes through `Ending`, of which a machine has exactly one for each
limit. A run is one of them, by `runFrom_ending`, so whoever constructs an ending
has found the run. That runs can be put together, and that a limit can be raised
once a run has ended by itself, are constructions of this kind.

One thing has to be known of the bus. The machine says that the limit is reached
by means of a trap, and no bus may use that trap for a refusal of its own.
-/

namespace Armlet

/-- A bus that refuses an access only for its address. -/
class AddressedBus (β : Type) [Bus β] : Prop where
  read_error : ∀ (bus : β) (addr : Word) (t : Trap),
    Bus.read bus addr = .error t → t = .unaligned addr ∨ t = .outOfRange addr
  write_error : ∀ (bus : β) (addr v : Word) (t : Trap),
    (Bus.write bus addr v).answer = .error t → t = .unaligned addr ∨ t = .outOfRange addr

theorem Ram.fault?_cases {ram : Ram} {addr : Word} {t : Trap} (h : ram.fault? addr = some t) :
    t = .unaligned addr ∨ t = .outOfRange addr := by
  unfold fault? at h
  split at h
  · exact .inl (Option.some.inj h).symm
  · split at h
    · exact .inr (Option.some.inj h).symm
    · cases h

theorem Ram.read_error (ram : Ram) (addr : Word) (t : Trap) (h : ram.read addr = .error t) :
    t = .unaligned addr ∨ t = .outOfRange addr := by
  unfold read at h
  cases hf : ram.fault? addr with
  | none => rw [hf] at h; cases h
  | some t' => rw [hf] at h; cases h; exact fault?_cases hf

theorem Ram.write_error (ram : Ram) (addr v : Word) (t : Trap)
    (h : (ram.write addr v).answer = .error t) : t = .unaligned addr ∨ t = .outOfRange addr := by
  cases hf : ram.fault? addr with
  | none => rw [ram.write_of_no_fault v hf] at h; cases h
  | some t' => rw [ram.write_of_fault v hf] at h; cases h; exact fault?_cases hf

instance : AddressedBus Ram where
  read_error := Ram.read_error
  write_error := Ram.write_error

instance : AddressedBus Board where
  read_error := by
    intro board addr t h
    change board.read addr = .error t at h
    cases hr : PinRegister.ofAddress? addr with
    | none =>
      rw [board.read_of_memory hr] at h
      exact board.ram.read_error addr t h
    | some r =>
      rw [Board.read, hr] at h
      cases h
  write_error := by
    intro board addr v t h
    change (board.write addr v).answer = .error t at h
    cases hr : PinRegister.ofAddress? addr with
    | none =>
      rw [board.write_of_memory v hr] at h
      exact board.ram.write_error addr v t h
    | some r =>
      rw [board.write_of_register v hr, board.pins.answer_write r v] at h
      cases h

variable {β : Type} [Bus β]

namespace Machine

/-! ## A step does not run into the limit -/

section

variable [AddressedBus β]

theorem execute_error {m : Machine β} {i : Instruction} {t : Trap}
    (h : (m.execute i).answer = .error t) : ∃ addr, t = .unaligned addr ∨ t = .outOfRange addr := by
  unfold execute at h
  split at h
  · cases i with
    | dataProcessing i => cases h
    | multiply i => cases h
    | branch i => cases h
    | halt => cases h
    | transfer i =>
      change (i.perform m).answer = .error t at h
      refine ⟨i.address m.cpu, ?_⟩
      rcases m.perform_transfer_cases i with ⟨_, v, _, hok⟩ | ⟨_, t', hread, hrefused⟩ |
        ⟨_, _, hok⟩ | ⟨_, t', hwrite, hrefused⟩
      · rw [hok] at h
        cases h
      · rw [hrefused] at h
        cases h
        exact AddressedBus.read_error m.bus _ t hread
      · rw [hok] at h
        cases h
      · rw [hrefused] at h
        cases h
        exact AddressedBus.write_error m.bus _ _ t hwrite
  · cases h

theorem step_error {m : Machine β} {t : Trap} (h : m.step.answer = .error t) :
    (∃ raw, t = .invalidInstruction m.cpu.pc raw)
      ∨ ∃ addr, t = .unaligned addr ∨ t = .outOfRange addr := by
  cases hread : Bus.read m.bus m.cpu.pc with
  | error t' =>
    simp only [step, hread] at h
    cases h
    exact .inr ⟨_, AddressedBus.read_error m.bus _ t hread⟩
  | ok raw =>
    cases hdecode : Instruction.decode? raw with
    | none =>
      simp only [step, hread, hdecode] at h
      cases h
      exact .inl ⟨raw, rfl⟩
    | some i =>
      have hanswer : m.step.answer = (m.execute i).answer :=
        congrArg Prod.fst (step_of_fetch hread hdecode)
      exact .inr (execute_error (hanswer ▸ h))

theorem step_ne_stepLimit (m : Machine β) (n : Nat) : m.step.answer ≠ .error (.stepLimit n) := by
  intro h
  rcases step_error h with ⟨raw, ht⟩ | ⟨addr, ht | ht⟩
  · cases ht
  · cases ht
  · cases ht

end

/-! ## A machine has one ending -/

theorem GoesOn.ne_halt {m : Machine β} (h : m.GoesOn) : m.step.answer ≠ .ok .halt := by
  rcases h with h | h
  · rw [h]; exact nofun
  · rw [h]; exact nofun

theorem GoesOn.ne_error {m : Machine β} (h : m.GoesOn) (t : Trap) : m.step.answer ≠ .error t := by
  rcases h with h | h
  · rw [h]; exact nofun
  · rw [h]; exact nofun

theorem after_add (m : Machine β) (a b : Nat) : m.after (a + b) = (m.after a).after b := by
  induction b with
  | zero => rfl
  | succ b ih => rw [← Nat.add_assoc, after_succ', after_succ', ih]

theorem first_stop_unique {m : Machine β} {k k' : Nat}
    (on : ∀ j, j < k → (m.after j).GoesOn) (stop : ¬ (m.after k).GoesOn)
    (on' : ∀ j, j < k' → (m.after j).GoesOn) (stop' : ¬ (m.after k').GoesOn) : k = k' := by
  rcases Nat.lt_trichotomy k k' with hlt | heq | hgt
  · exact absurd (on' k hlt) stop
  · exact heq
  · exact absurd (on k' hgt) stop'

theorem Ending.unique {m s s' : Machine β} {done left : Nat} {r r' : Except Trap Nat}
    (h : Ending m done left r s) (h' : Ending m done left r' s') : r = r' ∧ s = s' := by
  -- two endings that stop do so at the same step, and this step has one answer
  cases h with
  | halted k hk on answer =>
    have stop : ¬ (m.after k).GoesOn := fun hon => hon.ne_halt answer
    cases h' with
    | halted k' _ on' answer' =>
      obtain rfl := first_stop_unique on stop on' fun hon => hon.ne_halt answer'
      exact ⟨rfl, rfl⟩
    | trapped k' t' _ on' answer' =>
      obtain rfl := first_stop_unique on stop on' fun hon => hon.ne_error t' answer'
      cases answer.symm.trans answer'
    | exhausted on' => exact absurd (on' k hk) stop
  | trapped k t hk on answer =>
    have stop : ¬ (m.after k).GoesOn := fun hon => hon.ne_error t answer
    cases h' with
    | halted k' _ on' answer' =>
      obtain rfl := first_stop_unique on stop on' fun hon => hon.ne_halt answer'
      cases answer.symm.trans answer'
    | trapped k' t' _ on' answer' =>
      obtain rfl := first_stop_unique on stop on' fun hon => hon.ne_error t' answer'
      cases answer.symm.trans answer'
      exact ⟨rfl, rfl⟩
    | exhausted on' => exact absurd (on' k hk) stop
  | exhausted on =>
    cases h' with
    | halted k' hk' _ answer' => exact absurd answer' (on k' hk').ne_halt
    | trapped k' t' hk' _ answer' => exact absurd answer' ((on k' hk').ne_error t')
    | exhausted _ => exact ⟨rfl, rfl⟩

theorem runFrom_eq_iff {m s : Machine β} {done left : Nat} {r : Except Trap Nat} :
    runFrom done left m = (r, s) ↔ Ending m done left r s := by
  constructor
  · intro h
    have hend := runFrom_ending m done left
    rw [h] at hend
    exact hend
  · intro h
    obtain ⟨hr, hs⟩ := (runFrom_ending m done left).unique h
    exact Prod.ext hr hs

/-! ## What an ending says -/

theorem ending_ok_iff {m s : Machine β} {limit n : Nat} :
    Ending m 0 limit (.ok n) s ↔ 1 ≤ n ∧ n ≤ limit ∧ (∀ j, j < n - 1 → (m.after j).GoesOn)
      ∧ (m.after (n - 1)).step.answer = .ok .halt ∧ s = m.after n := by
  constructor
  · intro h
    generalize hr : (.ok n : Except Trap Nat) = r at h
    cases h with
    | halted k hk on answer =>
      cases hr
      rw [Nat.zero_add, Nat.add_sub_cancel]
      exact ⟨by omega, by omega, on, answer, rfl⟩
    | trapped k t hk on answer => cases hr
    | exhausted on => cases hr
  · rintro ⟨hpos, hle, on, answer, rfl⟩
    obtain ⟨k, rfl⟩ : ∃ k, n = k + 1 := ⟨n - 1, by omega⟩
    rw [Nat.add_sub_cancel] at on answer
    have hend : Ending m 0 limit (.ok (0 + k + 1)) (m.after (k + 1)) :=
      .halted k (by omega) on answer
    rw [Nat.zero_add] at hend
    exact hend

theorem ending_stepLimit_iff [AddressedBus β] {m s : Machine β} {limit : Nat} :
    Ending m 0 limit (.error (.stepLimit limit)) s
      ↔ (∀ j, j < limit → (m.after j).GoesOn) ∧ s = m.after limit := by
  constructor
  · intro h
    generalize hr : (.error (.stepLimit limit) : Except Trap Nat) = r at h
    cases h with
    | halted k hk on answer => cases hr
    | trapped k t hk on answer =>
      cases hr
      exact absurd answer (step_ne_stepLimit _ limit)
    | exhausted on => exact ⟨on, rfl⟩
  · rintro ⟨on, rfl⟩
    have hend : Ending m 0 limit (.error (.stepLimit (0 + limit))) (m.after limit) :=
      .exhausted on
    rw [Nat.zero_add] at hend
    exact hend

theorem ending_error_iff {m s : Machine β} {limit : Nat} {t : Trap} (ht : t ≠ .stepLimit limit) :
    Ending m 0 limit (.error t) s ↔ ∃ n, 1 ≤ n ∧ n ≤ limit
      ∧ (∀ j, j < n - 1 → (m.after j).GoesOn)
      ∧ (m.after (n - 1)).step.answer = .error t ∧ s = m.after n := by
  constructor
  · intro h
    generalize hr : (.error t : Except Trap Nat) = r at h
    cases h with
    | halted k hk on answer => cases hr
    | trapped k t' hk on answer =>
      cases hr
      refine ⟨k + 1, by omega, by omega, ?_⟩
      rw [Nat.add_sub_cancel]
      exact ⟨on, answer, rfl⟩
    | exhausted on =>
      rw [Nat.zero_add] at hr
      exact absurd (Except.error.inj hr) ht
  · rintro ⟨n, hpos, hle, on, answer, rfl⟩
    obtain ⟨k, rfl⟩ : ∃ k, n = k + 1 := ⟨n - 1, by omega⟩
    rw [Nat.add_sub_cancel] at on answer
    exact .trapped k t (by omega) on answer

/-! ## Endings put together -/

/-- What a run answers if `n` steps have gone before it. -/
def countFrom (n : Nat) : Except Trap Nat → Except Trap Nat
  | .ok k => .ok (n + k)
  | .error (.stepLimit k) => .error (.stepLimit (n + k))
  | .error t => .error t

theorem countFrom_error {n : Nat} {t : Trap} (h : ∀ k, t ≠ .stepLimit k) :
    countFrom n (.error t) = .error t := by
  cases t with
  | stepLimit k => exact absurd rfl (h k)
  | invalidInstruction pc raw => rfl
  | unaligned addr => rfl
  | outOfRange addr => rfl

/-- An ending of the machine that `n` steps have led to is an ending of the machine. -/
theorem Ending.append [AddressedBus β] {m s : Machine β} {n left : Nat} {r : Except Trap Nat}
    (on : ∀ j, j < n → (m.after j).GoesOn) (h : Ending (m.after n) 0 left r s) :
    Ending m 0 (n + left) (countFrom n r) s := by
  have onward : ∀ k, (∀ j, j < k → ((m.after n).after j).GoesOn) →
      ∀ j, j < n + k → (m.after j).GoesOn := by
    intro k hk j hj
    rcases Nat.lt_or_ge j n with hlt | hge
    · exact on j hlt
    · rw [← Nat.add_sub_cancel' hge, after_add]
      exact hk (j - n) (by omega)
  cases h with
  | halted k hk on' answer =>
    rw [← after_add] at answer ⊢
    rw [countFrom, show n + (0 + k + 1) = 0 + (n + k) + 1 by omega]
    exact .halted (n + k) (Nat.add_lt_add_left hk n) (onward k on') answer
  | trapped k t hk on' answer =>
    -- a trap that named the limit would be counted on like the limit itself
    have ht : ∀ i, t ≠ .stepLimit i := by
      rintro i rfl
      exact step_ne_stepLimit _ i answer
    rw [← after_add] at answer ⊢
    rw [countFrom_error ht]
    exact .trapped (n + k) t (Nat.add_lt_add_left hk n) (onward k on') answer
  | exhausted on' =>
    rw [← after_add, countFrom, show n + (0 + left) = 0 + (n + left) by omega]
    exact .exhausted (onward left on')

/-- A machine that comes to its end by itself does so under every higher limit. -/
theorem Ending.raise {m s : Machine β} {left left' : Nat} {r : Except Trap Nat}
    (h : Ending m 0 left r s) (hr : r ≠ .error (.stepLimit left)) (hle : left ≤ left') :
    Ending m 0 left' r s := by
  cases h with
  | halted k hk on answer => exact .halted k (Nat.lt_of_lt_of_le hk hle) on answer
  | trapped k t hk on answer => exact .trapped k t (Nat.lt_of_lt_of_le hk hle) on answer
  | exhausted on => exact absurd (by rw [Nat.zero_add]) hr

/-! ## Limits -/

/-- The same machine under another limit. -/
def withLimit (m : Machine β) (limit : Option Nat) : Machine β := ⟨m.cpu.withLimit limit, m.bus⟩

theorem run_eq_iff {m s : Machine β} {limit : Nat} {r : Except Trap Nat}
    (hm : m.cpu.maxSteps = some limit) : m.run = (r, s) ↔ Ending m 0 limit r s := by
  have hbound : m.stepBound = limit := by rw [stepBound, hm, Option.getD_some]
  rw [run, hbound]
  exact runFrom_eq_iff

/-- No instruction reads the limit, so it only matters how many steps it permits. -/
theorem run_withLimit (m : Machine β) (limit : Option Nat) :
    (m.withLimit limit).run
      = ((runFrom 0 (m.withLimit limit).stepBound m).1,
        (runFrom 0 (m.withLimit limit).stepBound m).2.withLimit limit) := by
  rcases runFrom_mirror Bus.Mirrors.refl limit m 0 (m.withLimit limit).stepBound trivial
    with hrun | ⟨t, ht, _⟩
  · exact hrun
  · exact absurd ht id

theorem run_withLimit_eq_iff {m s : Machine β} {limit : Option Nat} {r : Except Trap Nat} :
    (m.withLimit limit).run = (r, s)
      ↔ ∃ s', Ending m 0 (m.withLimit limit).stepBound r s' ∧ s = s'.withLimit limit := by
  rw [run_withLimit]
  constructor
  · intro h
    obtain ⟨rfl, rfl⟩ := Prod.mk.inj h
    exact ⟨_, runFrom_ending m 0 _, rfl⟩
  · rintro ⟨s', hend, rfl⟩
    rw [runFrom_eq_iff.mpr hend]

/-- A run that has come to its limit, and the run that goes on from there. -/
theorem run_withLimit_add [AddressedBus β] {m s : Machine β} {a : Nat} (b : Nat)
    (h : (m.withLimit (some a)).run = (.error (.stepLimit a), s)) :
    (m.withLimit (some (a + b))).run
      = (countFrom a (s.withLimit (some b)).run.1,
        (s.withLimit (some b)).run.2.withLimit (some (a + b))) := by
  obtain ⟨s', hfirst, rfl⟩ := run_withLimit_eq_iff.mp h
  have hbound : (m.withLimit (some a)).stepBound = a := rfl
  rw [hbound] at hfirst
  obtain ⟨on, rfl⟩ := ending_stepLimit_iff.mp hfirst
  -- the second run starts where the first one stopped, under a limit of its own
  have hagain : ((m.after a).withLimit (some a)).withLimit (some b)
      = (m.after a).withLimit (some b) := rfl
  rw [hagain]
  rcases hrun : ((m.after a).withLimit (some b)).run with ⟨r, s₂⟩
  obtain ⟨s', hrest, rfl⟩ := run_withLimit_eq_iff.mp hrun
  exact run_withLimit_eq_iff.mpr ⟨s', hrest.append on, rfl⟩

/-- A run that ends by itself is the same under every limit that is not lower. -/
theorem run_withLimit_raise {m s : Machine β} {a : Nat} {limit : Option Nat} {r : Except Trap Nat}
    (h : (m.withLimit (some a)).run = (r, s)) (hr : r ≠ .error (.stepLimit a))
    (hle : a ≤ (m.withLimit limit).stepBound) :
    (m.withLimit limit).run = (r, s.withLimit limit) := by
  obtain ⟨s', hend, rfl⟩ := run_withLimit_eq_iff.mp h
  exact run_withLimit_eq_iff.mpr ⟨s', hend.raise hr hle, rfl⟩

end Machine

/-! ## On every bus -/

/-- What a limit does to the runs of the machines on a bus. -/
structure LimitCutsRuns (β : Type) [Bus β] : Prop where
  /-- A run answers `n` if it has halted with its step number `n`, at the limit at the latest. -/
  halted : ∀ (m s : Machine β) (limit n : Nat), m.cpu.maxSteps = some limit →
    (m.run = (.ok n, s) ↔ 1 ≤ n ∧ n ≤ limit ∧ (∀ j, j < n - 1 → (m.after j).GoesOn)
      ∧ (m.after (n - 1)).step.answer = .ok .halt ∧ s = m.after n)
  /-- A run is cut off if all the steps that its limit permits went on. -/
  exhausted : ∀ (m s : Machine β) (limit : Nat), m.cpu.maxSteps = some limit →
    (m.run = (.error (.stepLimit limit), s)
      ↔ (∀ j, j < limit → (m.after j).GoesOn) ∧ s = m.after limit)
  /-- A run passes on the trap of the step that trapped. -/
  trapped : ∀ (m s : Machine β) (limit : Nat) (t : Trap), m.cpu.maxSteps = some limit →
    t ≠ .stepLimit limit →
    (m.run = (.error t, s) ↔ ∃ n, 1 ≤ n ∧ n ≤ limit ∧ (∀ j, j < n - 1 → (m.after j).GoesOn)
      ∧ (m.after (n - 1)).step.answer = .error t ∧ s = m.after n)
  /-- Two runs, the first of them cut off, are one run under the sum of their limits. -/
  composed : ∀ (m s : Machine β) (a b : Nat),
    (m.withLimit (some a)).run = (.error (.stepLimit a), s) →
    (m.withLimit (some (a + b))).run
      = (Machine.countFrom a (s.withLimit (some b)).run.1,
        (s.withLimit (some b)).run.2.withLimit (some (a + b)))
  /-- A run that was not cut off is the same under a higher limit. -/
  raised : ∀ (m s : Machine β) (a b : Nat) (r : Except Trap Nat),
    (m.withLimit (some a)).run = (r, s) → (∀ n, r ≠ .error (.stepLimit n)) → a ≤ b →
    (m.withLimit (some b)).run = (r, s.withLimit (some b))
  /-- It is the same without a limit. -/
  removed : ∀ (m s : Machine β) (a : Nat) (r : Except Trap Nat),
    (m.withLimit (some a)).run = (r, s) → (∀ n, r ≠ .error (.stepLimit n)) →
    a < 0x10000000000000000 → (m.withLimit none).run = (r, s.withLimit none)

theorem limitCutsRuns_of_addressed [AddressedBus β] : LimitCutsRuns β where
  halted := by
    intro m s limit n hm
    rw [Machine.run_eq_iff hm]
    exact Machine.ending_ok_iff
  exhausted := by
    intro m s limit hm
    rw [Machine.run_eq_iff hm]
    exact Machine.ending_stepLimit_iff
  trapped := by
    intro m s limit t hm ht
    rw [Machine.run_eq_iff hm]
    exact Machine.ending_error_iff ht
  composed := fun m s a b h => Machine.run_withLimit_add b h
  raised := fun m s a b r h hr hle => Machine.run_withLimit_raise h (hr a) hle
  removed := fun m s a r h hr ha => Machine.run_withLimit_raise h (hr a) (Nat.le_of_lt ha)

/-- **A limit cuts runs off and does nothing else**, in plain memory and on a board with pins. -/
theorem limitCutsRuns_ram_board : LimitCutsRuns Ram ∧ LimitCutsRuns Board :=
  ⟨limitCutsRuns_of_addressed, limitCutsRuns_of_addressed⟩

end Armlet
