import Armlet.Proofs.Execution

/-!
# Machines in lockstep

What a machine does depends on its processor and on what its bus answers. It does
not depend on the limit of its runs, which no instruction reads, and it does not
depend on what the bus is made of. So a machine can be given another limit and
another bus, and it goes on as before, if only the new bus mirrors the old one:
it answers every access alike and remains its mirror image.

A bus may also be mirrored up to some traps that are excused. The old machine
stops at such a trap, and there ends what can be said about the new one.
-/

namespace Armlet

variable {σ τ α β γ : Type}

namespace Outcome

/-- An outcome with its state replaced by another view of it. -/
def map (f : σ → τ) (out : Outcome σ α) : Outcome τ α := ⟨out.answer, f out.state, out.events⟩

/-- `out'` is `out` with its state under `f`, unless `out` is an excused trap. -/
def Follows (excused : Trap → Prop) (f : σ → τ) (out : Outcome σ α) (out' : Outcome τ α) : Prop :=
  out' = out.map f ∨ ∃ t, excused t ∧ out.answer = .error t

end Outcome

/-- The same processor under another limit. -/
def Processor.withLimit (cpu : Processor) (limit : Option Nat) : Processor :=
  { cpu with maxSteps := limit }

/-- As long as a bus satisfies `kept`, the bus under `f` answers for it, excused traps apart. -/
structure Bus.Mirrors [Bus β] [Bus γ] (f : β → γ) (kept : β → Prop) (excused : Trap → Prop) :
    Prop where
  read : ∀ (bus : β) (addr : Word), kept bus →
    Bus.read (f bus) addr = Bus.read bus addr ∨ ∃ t, excused t ∧ Bus.read bus addr = .error t
  write : ∀ (bus : β) (addr v : Word), kept bus →
    (Bus.write bus addr v).Follows excused f (Bus.write (f bus) addr v)
  kept_write : ∀ (bus : β) (addr v : Word), kept bus → kept (Bus.write bus addr v).state

/-- Every bus mirrors itself. -/
theorem Bus.Mirrors.refl [Bus β] : Bus.Mirrors (id : β → β) (fun _ => True) (fun _ => False) where
  read := fun _ _ _ => .inl rfl
  write := fun _ _ _ _ => .inl rfl
  kept_write := fun _ _ _ _ => trivial

namespace Machine

/-- A machine with another limit, and with its bus under `f`. -/
def mirror (f : β → γ) (limit : Option Nat) (m : Machine β) : Machine γ :=
  ⟨m.cpu.withLimit limit, f m.bus⟩

end Machine

/-! ## Instructions do not read the limit -/

section

variable (cpu : Processor) (limit : Option Nat)

theorem Transfer.finish_withLimit (i : Transfer) (loaded : Option Word) :
    i.finish (cpu.withLimit limit) loaded = (i.finish cpu loaded).withLimit limit := by
  unfold Transfer.finish
  cases loaded with
  | none => cases i.preIndex <;> rfl
  | some v => cases i.preIndex <;> rfl

theorem DataProcessing.apply_withLimit (i : DataProcessing) :
    i.apply (cpu.withLimit limit) = (i.apply cpu).withLimit limit := by
  have hresult : i.result (cpu.withLimit limit) = i.result cpu := rfl
  unfold DataProcessing.apply
  rw [hresult]
  cases i.setFlags <;> cases i.opcode.keepsResult <;> rfl

theorem Multiply.apply_withLimit (i : Multiply) :
    i.apply (cpu.withLimit limit) = (i.apply cpu).withLimit limit := by
  have hresult : i.result (cpu.withLimit limit) = i.result cpu := rfl
  unfold Multiply.apply
  rw [hresult]
  cases i.setFlags <;> rfl

end

/-! ## Steps and runs -/

namespace Machine

/-- An instruction leaves the bus alone, or stores one word. -/
theorem bus_execute [Bus β] (m : Machine β) (i : Instruction) :
    (m.execute i).state.bus = m.bus
      ∨ ∃ addr v, (m.execute i).state.bus = (Bus.write m.bus addr v).state := by
  unfold execute
  split
  · cases i with
    | dataProcessing i => exact .inl rfl
    | multiply i => exact .inl rfl
    | transfer i =>
      rw [perform, bus_perform_transfer]
      split
      · exact .inl rfl
      · exact .inr ⟨_, _, rfl⟩
    | branch i => exact .inl rfl
    | halt => exact .inl rfl
  · exact .inl rfl

theorem bus_step [Bus β] (m : Machine β) :
    m.step.state.bus = m.bus ∨ ∃ addr v, m.step.state.bus = (Bus.write m.bus addr v).state := by
  cases hread : Bus.read m.bus m.cpu.pc with
  | error t =>
    left
    simp only [step, hread]
  | ok raw =>
    cases hdecode : Instruction.decode? raw with
    | none =>
      left
      simp only [step, hread, hdecode]
    | some i =>
      have hstep : m.step.state = (resume m.cpu.pc (m.execute i)).2 :=
        congrArg Prod.snd (step_of_fetch hread hdecode)
      rw [hstep, bus_resume]
      exact m.bus_execute i

end Machine

section

variable [Bus β] [Bus γ] {f : β → γ} {kept : β → Prop} {excused : Trap → Prop}
variable (h : Bus.Mirrors f kept excused) (limit : Option Nat) (m : Machine β)

include h

theorem Transfer.perform_mirror (i : Transfer) (hm : kept m.bus) :
    (i.perform m).Follows excused (.mirror f limit) (i.perform (m.mirror f limit)) := by
  obtain ⟨cpu, bus⟩ := m
  have haddr : i.address (cpu.withLimit limit) = i.address cpu := rfl
  have hvalue : (cpu.withLimit limit).get i.rd = cpu.get i.rd := rfl
  unfold Transfer.perform Machine.mirror
  dsimp only
  rw [haddr, hvalue]
  split
  · rcases h.read bus (i.address cpu) hm with hread | ⟨t, ht, hread⟩
    · left
      rw [hread]
      cases Bus.read bus (i.address cpu) with
      | error t => rfl
      | ok v =>
        dsimp only
        rw [i.finish_withLimit]
        rfl
    · right
      exact ⟨t, ht, by rw [hread]⟩
  · rcases h.write bus (i.address cpu) (cpu.get i.rd) hm with hwrite | ⟨t, ht, hwrite⟩
    · left
      rw [hwrite]
      dsimp only [Outcome.map]
      cases (Bus.write bus (i.address cpu) (cpu.get i.rd)).answer with
      | error t => rfl
      | ok u =>
        cases u
        dsimp only
        rw [i.finish_withLimit]
    · right
      exact ⟨t, ht, by rw [hwrite]⟩

namespace Machine

theorem perform_mirror (i : Instruction) (hm : kept m.bus) :
    (m.perform i).Follows excused (.mirror f limit) ((m.mirror f limit).perform i) := by
  cases i with
  | dataProcessing i =>
    left
    change (⟨_, ⟨i.apply (m.cpu.withLimit limit), f m.bus⟩, []⟩ : Outcome (Machine γ) Flow) = _
    rw [i.apply_withLimit]
    rfl
  | multiply i =>
    left
    change (⟨_, ⟨i.apply (m.cpu.withLimit limit), f m.bus⟩, []⟩ : Outcome (Machine γ) Flow) = _
    rw [i.apply_withLimit]
    rfl
  | transfer i => exact i.perform_mirror h limit m hm
  | branch i => exact .inl rfl
  | halt => exact .inl rfl

theorem execute_mirror (i : Instruction) (hm : kept m.bus) :
    (m.execute i).Follows excused (.mirror f limit) ((m.mirror f limit).execute i) := by
  have hflags : (m.mirror f limit).cpu.flags = m.cpu.flags := rfl
  unfold execute
  rw [hflags]
  split
  · exact m.perform_mirror h limit i hm
  · exact .inl rfl

/-- **One step in lockstep.** -/
theorem step_mirror (hm : kept m.bus) :
    m.step.Follows excused (.mirror f limit) (m.mirror f limit).step := by
  have hpc : (m.mirror f limit).cpu.pc = m.cpu.pc := rfl
  have hbus : (m.mirror f limit).bus = f m.bus := rfl
  unfold step
  dsimp only
  rw [hpc, hbus]
  rcases h.read m.bus m.cpu.pc hm with hread | ⟨t, ht, hread⟩
  · rw [hread]
    cases Bus.read m.bus m.cpu.pc with
    | error t => exact .inl rfl
    | ok raw =>
      dsimp only
      cases Instruction.decode? raw with
      | none => exact .inl rfl
      | some i =>
        dsimp only
        rcases m.execute_mirror h limit i hm with hout | ⟨t, ht, hout⟩
        · left
          rw [hout]
          dsimp only [Outcome.map]
          -- the answer decides whether the program counter goes on, in both machines alike
          rcases (m.execute i).answer with t | flow
          · rfl
          · cases flow <;> rfl
        · right
          exact ⟨t, ht, hout⟩
  · right
    exact ⟨t, ht, by rw [hread]⟩

theorem kept_step (hm : kept m.bus) : kept m.step.state.bus := by
  rcases m.bus_step with hbus | ⟨addr, v, hbus⟩
  · rw [hbus]
    exact hm
  · rw [hbus]
    exact h.kept_write m.bus addr v hm

/-- **Runs in lockstep**, unless the run that is mirrored ends in an excused trap. -/
theorem runFrom_mirror (done left : Nat) (hm : kept m.bus) :
    runFrom done left (m.mirror f limit)
        = ((runFrom done left m).1, (runFrom done left m).2.mirror f limit)
      ∨ ∃ t, excused t ∧ (runFrom done left m).1 = .error t := by
  -- `kept` is what carries the induction, and a step hands it on
  induction left generalizing m done with
  | zero => exact .inl rfl
  | succ left ih =>
    rw [runFrom, runFrom]
    rcases m.step_mirror h limit hm with hstep | ⟨t, ht, hstep⟩
    · rw [hstep]
      dsimp only [Outcome.map]
      cases m.step.answer with
      | error t => exact .inl rfl
      | ok flow =>
        have hrest := ih m.step.state (done + 1) (m.kept_step h hm)
        cases flow with
        | next => exact hrest
        | jump => exact hrest
        | halt => exact .inl rfl
    · right
      exact ⟨t, ht, by rw [hstep]⟩

end Machine

end

namespace Machine

/-- No step touches the limit, for a machine mirrored under its own limit is the machine. -/
theorem maxSteps_runFrom [Bus β] (m : Machine β) (done left : Nat) :
    (runFrom done left m).2.cpu.maxSteps = m.cpu.maxSteps := by
  rcases runFrom_mirror Bus.Mirrors.refl m.cpu.maxSteps m done left trivial with hrun | ⟨t, ht, _⟩
  · have hself : m.mirror id m.cpu.maxSteps = m := rfl
    rw [hself] at hrun
    rw [hrun]
    rfl
  · exact absurd ht id

end Machine

end Armlet
