import Armlet.Machine.Run

/-!
# How a run unfolds

A step is a function of the machine, so a machine has one future: `m.after n` is
the machine after `n` steps. A run follows this future for as long as the steps
answer that the machine goes on, and there are three ways for it to end.

* A step halts, and the run answers how many steps that took.
* A step traps, and the run passes the trap on.
* Every step the limit allows has been made, and all of them went on.

`runFrom_ending` says that one of the three applies, and what the run has made of
the machine by then. Everything else about runs follows from it.
-/

namespace Armlet

namespace Machine

variable {β : Type} [Bus β]

/-- The machine after a number of steps, whatever they answer. -/
def after (m : Machine β) : Nat → Machine β
  | 0 => m
  | n + 1 => m.step.state.after n

/-- The next step neither halts nor traps. -/
def GoesOn (m : Machine β) : Prop := m.step.answer = .ok .next ∨ m.step.answer = .ok .jump

theorem after_succ (m : Machine β) (n : Nat) : m.after (n + 1) = m.step.state.after n := rfl

/-- The last of the steps, set apart. -/
theorem after_succ' (m : Machine β) (n : Nat) : m.after (n + 1) = (m.after n).step.state := by
  induction n generalizing m with
  | zero => rfl
  | succ n ih => rw [after_succ, ih, after_succ]

/-- What holds at the start and after the first steps of the rest holds on the way. -/
theorem goesOn_succ {m : Machine β} {n : Nat} (h0 : m.GoesOn)
    (h : ∀ j, j < n → (m.step.state.after j).GoesOn) : ∀ j, j < n + 1 → (m.after j).GoesOn := by
  intro j hj
  cases j with
  | zero => exact h0
  | succ j => exact h j (Nat.lt_of_succ_lt_succ hj)

/-- How a run of at most `left` steps ends, with the answer `r` and the machine `m'`. -/
inductive Ending (m : Machine β) (done left : Nat) : Except Trap Nat → Machine β → Prop where
  | halted (k : Nat) (hk : k < left) (on : ∀ j, j < k → (m.after j).GoesOn)
      (answer : (m.after k).step.answer = .ok .halt) :
      Ending m done left (.ok (done + k + 1)) (m.after (k + 1))
  | trapped (k : Nat) (t : Trap) (hk : k < left) (on : ∀ j, j < k → (m.after j).GoesOn)
      (answer : (m.after k).step.answer = .error t) :
      Ending m done left (.error t) (m.after (k + 1))
  | exhausted (on : ∀ j, j < left → (m.after j).GoesOn) :
      Ending m done left (.error (.stepLimit (done + left))) (m.after left)

/-- A run of what is left after a first step that went on. -/
theorem Ending.step {m m' : Machine β} {done left : Nat} {r : Except Trap Nat} (h0 : m.GoesOn)
    (h : Ending m.step.state (done + 1) left r m') : Ending m done (left + 1) r m' := by
  cases h with
  | halted k hk on answer =>
    rw [show done + 1 + k + 1 = done + (k + 1) + 1 by omega]
    exact .halted (k + 1) (Nat.succ_lt_succ hk) (goesOn_succ h0 on) answer
  | trapped k t hk on answer =>
    exact .trapped (k + 1) t (Nat.succ_lt_succ hk) (goesOn_succ h0 on) answer
  | exhausted on =>
    rw [show done + 1 + left = done + (left + 1) by omega]
    exact .exhausted (goesOn_succ h0 on)

/-- **A run ends in one of the three ways.** -/
theorem runFrom_ending (m : Machine β) (done left : Nat) :
    Ending m done left (runFrom done left m).1 (runFrom done left m).2 := by
  induction left generalizing m done with
  | zero => exact .exhausted (fun j hj => absurd hj (Nat.not_lt_zero j))
  | succ left ih =>
    rw [runFrom]
    split
    · -- the first step is the last one in two cases
      rename_i t ht
      exact .trapped 0 t (Nat.succ_pos left) (fun j hj => absurd hj (Nat.not_lt_zero j)) ht
    · rename_i ht
      exact .halted 0 (Nat.succ_pos left) (fun j hj => absurd hj (Nat.not_lt_zero j)) ht
    · rename_i flow hne hflow
      have h0 : m.GoesOn := by
        cases flow with
        | next => exact .inl hflow
        | jump => exact .inr hflow
        | halt => exact absurd rfl hne
      exact (ih m.step.state (done + 1)).step h0

/-- How a run from its start ends. -/
theorem run_ending (m : Machine β) : Ending m 0 m.stepBound m.run.1 m.run.2 :=
  runFrom_ending m 0 m.stepBound

end Machine

end Armlet
