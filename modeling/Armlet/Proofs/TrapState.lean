import Armlet.Proofs.Execution
import Armlet.Proofs.Run

/-!
# A trap leaves no trace

Whatever traps has not begun to change anything: an access to memory is checked
before its first byte is moved, and an instruction performs its access before it
writes its first register. So the state an operation leaves behind together with
a trap is the state it was given.

Of the bus this asks one thing only, that a refused store leaves it as it was.
Plain memory and a board with pins both keep to that.
-/

namespace Armlet

/-- A bus on which a refused store changes nothing. -/
class LawfulBus (β : Type) [Bus β] : Prop where
  state_of_write_error : ∀ (bus : β) (addr value : Word) (t : Trap),
    (Bus.write bus addr value).answer = .error t → (Bus.write bus addr value).state = bus

theorem Ram.state_of_write_error (ram : Ram) (addr v : Word) (t : Trap)
    (h : (ram.write addr v).answer = .error t) : (ram.write addr v).state = ram := by
  cases hf : ram.fault? addr with
  | none =>
    rw [ram.write_of_no_fault v hf] at h
    cases h
  | some t' => rw [ram.write_of_fault v hf]

theorem Board.state_of_write_error (board : Board) (addr v : Word) (t : Trap)
    (h : (board.write addr v).answer = .error t) : (board.write addr v).state = board := by
  cases hr : PinRegister.ofAddress? addr with
  | none =>
    rw [board.write_of_memory v hr] at h ⊢
    rw [board.ram.state_of_write_error addr v t h]
  | some r =>
    rw [board.write_of_register v hr, board.pins.answer_write r v] at h
    cases h

instance : LawfulBus Ram where
  state_of_write_error := Ram.state_of_write_error

instance : LawfulBus Board where
  state_of_write_error := Board.state_of_write_error

variable {β : Type} [Bus β] [LawfulBus β]

theorem Transfer.state_of_perform_error (i : Transfer) (m : Machine β) (t : Trap)
    (h : (i.perform m).answer = .error t) : (i.perform m).state = m := by
  rcases m.perform_transfer_cases i with ⟨_, v, _, hok⟩ | ⟨_, t', _, hrefused⟩ | ⟨_, _, hok⟩ |
    ⟨_, t', hwrite, hrefused⟩
  · rw [hok] at h
    cases h
  · rw [hrefused]
  · rw [hok] at h
    cases h
  · rw [hrefused, LawfulBus.state_of_write_error m.bus _ _ t' hwrite]

namespace Machine

theorem state_of_perform_error (m : Machine β) (i : Instruction) (t : Trap)
    (h : (m.perform i).answer = .error t) : (m.perform i).state = m := by
  cases i with
  | dataProcessing i => cases h
  | multiply i => cases h
  | transfer i => exact i.state_of_perform_error m t h
  | branch i => cases h
  | halt => cases h

theorem state_of_execute_error (m : Machine β) (i : Instruction) (t : Trap)
    (h : (m.execute i).answer = .error t) : (m.execute i).state = m := by
  unfold execute at h ⊢
  split
  · rename_i hcond
    rw [if_pos hcond] at h
    exact m.state_of_perform_error i t h
  · rfl

theorem state_of_step_error (m : Machine β) (t : Trap) (h : m.step.answer = .error t) :
    m.step.state = m := by
  unfold step at h ⊢
  dsimp only at h ⊢
  split
  · -- the fetch traps
    rfl
  · rename_i raw hread
    rw [hread] at h
    dsimp only at h
    split
    · -- the word is no instruction
      rfl
    · -- the instruction traps, so the program counter stays
      rename_i i hdecode
      rw [hdecode] at h
      dsimp only at h ⊢
      rw [h]
      exact m.state_of_execute_error i t h

/--
A run that a trap of the machine ends has made some steps that went on, and the
machine is left as these steps have left it: one more step traps in the same way.
-/
theorem run_error (m : Machine β) (t : Trap) (h : m.run.1 = .error t)
    (ht : ∀ n, t ≠ .stepLimit n) :
    ∃ k, (∀ j, j < k → (m.after j).GoesOn) ∧ m.run.2 = m.after k
      ∧ (m.after k).step.answer = .error t := by
  have hend := m.run_ending
  rw [h] at hend
  generalize m.run.2 = m' at hend
  cases hend with
  | trapped k _ hk on answer =>
    refine ⟨k, on, ?_, answer⟩
    rw [after_succ', state_of_step_error _ t answer]
  | exhausted on => exact absurd rfl (ht _)

end Machine

/-! ## On every bus -/

/-- What a trap leaves of a machine: all of it. -/
structure TrapsKeepState (β : Type) [Bus β] : Prop where
  /-- An instruction that traps. -/
  execute : ∀ (m : Machine β) (i : Instruction) (t : Trap),
    (m.execute i).answer = .error t → (m.execute i).state = m
  /-- A step that traps, in its fetch, its decoding or its execution. -/
  step : ∀ (m : Machine β) (t : Trap), m.step.answer = .error t → m.step.state = m
  /-- A run that traps is left where the steps before the trapping one have led. -/
  run : ∀ (m : Machine β) (t : Trap), m.run.1 = .error t → (∀ n, t ≠ .stepLimit n) →
    ∃ k, (∀ j, j < k → (m.after j).GoesOn) ∧ m.run.2 = m.after k
      ∧ m.run.2.step.answer = .error t

theorem trapsKeepState_of_lawful : TrapsKeepState β where
  execute := Machine.state_of_execute_error
  step := Machine.state_of_step_error
  run := by
    intro m t h ht
    obtain ⟨k, on, hstate, answer⟩ := m.run_error t h ht
    exact ⟨k, on, hstate, hstate ▸ answer⟩

/-- **A trap leaves no trace**, neither in plain memory of any size nor on a board with pins. -/
theorem trapsKeepState_ram_board : TrapsKeepState Ram ∧ TrapsKeepState Board :=
  ⟨trapsKeepState_of_lawful, trapsKeepState_of_lawful⟩

end Armlet
