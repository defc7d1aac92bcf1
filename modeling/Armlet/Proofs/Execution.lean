import Armlet.Machine.Run
import Armlet.Proofs.Image

/-!
# The step rule

A step is a fetch, a decoding and then `Machine.resume`: the program counter goes
on to the next word unless the instruction has moved it or has halted. With that
a step is known from the instruction alone, once it is known which one stands at
the program counter.

A transfer comes to one of four things, which `perform_transfer_cases` lists: it is a
load or a store, and its access is granted or refused.

An instruction touches the bus in one case only, when it is a store whose
condition holds and whose access is not refused. `Machine.Stores` is that case,
so a memory holds its image after every instruction that does not store in it.
-/

namespace Armlet

/-- Giving a register the value it has changes nothing. -/
@[simp]
theorem Processor.set_get (cpu : Processor) (r : Register) : cpu.set r (cpu.get r) = cpu := by
  simp [set, get]

namespace Machine

variable {β : Type}

/-- What a step makes of its instruction: on to the word behind `pc`, if it is to go on there. -/
def resume (pc : Word) (out : Outcome (Machine β) Flow) : Except Trap Flow × Machine β :=
  (out.answer, match out.answer with
    | .ok .next => out.state.advance pc
    | _ => out.state)

theorem bus_resume (pc : Word) (out : Outcome (Machine β) Flow) :
    (resume pc out).2.bus = out.state.bus := by
  unfold resume
  dsimp only
  split
  · rfl
  · rfl

variable [Bus β]

/-- **A step, from the instruction at the program counter.** -/
theorem step_of_fetch {m : Machine β} {raw : Word} {i : Instruction}
    (hread : Bus.read m.bus m.cpu.pc = .ok raw) (hdecode : Instruction.decode? raw = some i) :
    (m.step.answer, m.step.state) = resume m.cpu.pc (m.execute i) := by
  unfold step resume
  -- the answer decides whether the program counter goes on, on both sides alike
  rcases hanswer : (m.execute i).answer with t | flow
  · simp only [hread, hdecode, hanswer]
  · cases flow <;> simp only [hread, hdecode, hanswer]

theorem execute_of_holds {m : Machine β} {i : Instruction}
    (h : i.condition.holds m.cpu.flags = true) : m.execute i = m.perform i := by
  rw [execute, if_pos h]

theorem execute_of_not_holds {m : Machine β} {i : Instruction}
    (h : i.condition.holds m.cpu.flags = false) :
    m.execute i = ⟨.ok .next, m, [.conditionFailed i.condition m.cpu.pc]⟩ := by
  rw [execute, if_neg (by rw [h]; exact Bool.false_ne_true)]

/-- A transfer that stores a word: its condition holds and its access is not refused. -/
def Stores (m : Machine β) (t : Transfer) : Prop :=
  t.load = false ∧ t.cond.holds m.cpu.flags = true
    ∧ (Bus.write m.bus (t.address m.cpu) (m.cpu.get t.rd)).answer = .ok ()

/-- A load that is not refused. -/
theorem perform_load {m : Machine β} {t : Transfer} {v : Word} (ht : t.load = true)
    (hread : Bus.read m.bus (t.address m.cpu) = .ok v) :
    t.perform m = ⟨.ok t.flow, ⟨t.finish m.cpu (some v), m.bus⟩, []⟩ := by
  obtain ⟨cpu, bus⟩ := m
  unfold Transfer.perform
  simp only [ht, reduceIte, hread]

/-- A store that is not refused. -/
theorem perform_store {m : Machine β} {t : Transfer} (ht : t.load = false)
    (hwrite : (Bus.write m.bus (t.address m.cpu) (m.cpu.get t.rd)).answer = .ok ()) :
    t.perform m = ⟨.ok t.flow,
      ⟨t.finish m.cpu none, (Bus.write m.bus (t.address m.cpu) (m.cpu.get t.rd)).state⟩,
      (Bus.write m.bus (t.address m.cpu) (m.cpu.get t.rd)).events⟩ := by
  obtain ⟨cpu, bus⟩ := m
  unfold Transfer.perform
  simp only [ht, Bool.false_eq_true, reduceIte, hwrite]

/-- A load that is refused. -/
theorem perform_load_refused {m : Machine β} {t : Transfer} {trap : Trap} (ht : t.load = true)
    (hread : Bus.read m.bus (t.address m.cpu) = .error trap) :
    t.perform m = ⟨.error trap, m, []⟩ := by
  obtain ⟨cpu, bus⟩ := m
  unfold Transfer.perform
  simp only [ht, reduceIte, hread]

/-- A store that is refused. -/
theorem perform_store_refused {m : Machine β} {t : Transfer} {trap : Trap} (ht : t.load = false)
    (hwrite : (Bus.write m.bus (t.address m.cpu) (m.cpu.get t.rd)).answer = .error trap) :
    t.perform m = ⟨.error trap,
      ⟨m.cpu, (Bus.write m.bus (t.address m.cpu) (m.cpu.get t.rd)).state⟩,
      (Bus.write m.bus (t.address m.cpu) (m.cpu.get t.rd)).events⟩ := by
  obtain ⟨cpu, bus⟩ := m
  unfold Transfer.perform
  simp only [ht, Bool.false_eq_true, reduceIte, hwrite]

/-- **All that a transfer can come to.** -/
theorem perform_transfer_cases (m : Machine β) (t : Transfer) :
    (t.load = true ∧ ∃ v, Bus.read m.bus (t.address m.cpu) = .ok v
        ∧ t.perform m = ⟨.ok t.flow, ⟨t.finish m.cpu (some v), m.bus⟩, []⟩)
      ∨ (t.load = true ∧ ∃ trap, Bus.read m.bus (t.address m.cpu) = .error trap
        ∧ t.perform m = ⟨.error trap, m, []⟩)
      ∨ (t.load = false ∧ (Bus.write m.bus (t.address m.cpu) (m.cpu.get t.rd)).answer = .ok ()
        ∧ t.perform m = ⟨.ok t.flow,
          ⟨t.finish m.cpu none, (Bus.write m.bus (t.address m.cpu) (m.cpu.get t.rd)).state⟩,
          (Bus.write m.bus (t.address m.cpu) (m.cpu.get t.rd)).events⟩)
      ∨ (t.load = false ∧ ∃ trap,
        (Bus.write m.bus (t.address m.cpu) (m.cpu.get t.rd)).answer = .error trap
        ∧ t.perform m = ⟨.error trap,
          ⟨m.cpu, (Bus.write m.bus (t.address m.cpu) (m.cpu.get t.rd)).state⟩,
          (Bus.write m.bus (t.address m.cpu) (m.cpu.get t.rd)).events⟩) := by
  cases ht : t.load with
  | true =>
    cases hread : Bus.read m.bus (t.address m.cpu) with
    | ok v => exact .inl ⟨rfl, v, rfl, perform_load ht hread⟩
    | error trap => exact .inr (.inl ⟨rfl, trap, rfl, perform_load_refused ht hread⟩)
  | false =>
    cases hwrite : (Bus.write m.bus (t.address m.cpu) (m.cpu.get t.rd)).answer with
    | ok => exact .inr (.inr (.inl ⟨rfl, rfl, perform_store ht hwrite⟩))
    | error trap => exact .inr (.inr (.inr ⟨rfl, trap, rfl, perform_store_refused ht hwrite⟩))

/-- No load writes to the bus, and a store writes one word, refused or not. -/
theorem bus_perform_transfer (m : Machine β) (t : Transfer) :
    (t.perform m).state.bus = if t.load then m.bus
      else (Bus.write m.bus (t.address m.cpu) (m.cpu.get t.rd)).state := by
  rcases m.perform_transfer_cases t with ⟨hload, v, _, h⟩ | ⟨hload, trap, _, h⟩ |
    ⟨hstore, _, h⟩ | ⟨hstore, trap, _, h⟩
  · rw [h, if_pos hload]
  · rw [h, if_pos hload]
  · rw [h, if_neg (Bool.eq_false_iff.mp hstore)]
  · rw [h, if_neg (Bool.eq_false_iff.mp hstore)]

/-- **An instruction that stores nothing in the image leaves the image alone.** -/
theorem holds_execute {m : Machine Board} {image : List Byte} (h : m.bus.Holds image)
    (i : Instruction)
    (hsafe : ∀ t, i = .transfer t → m.Stores t → image.length ≤ (t.address m.cpu).toNat) :
    (m.execute i).state.bus.Holds image := by
  unfold execute
  split
  · rename_i hcond
    cases i with
    | dataProcessing i => exact h
    | multiply i => exact h
    | branch i => exact h
    | halt => exact h
    | transfer t =>
      rw [perform, bus_perform_transfer]
      split
      · exact h
      · -- a store that the bus has not refused is one that `hsafe` is about
        rename_i hload
        exact h.write _ _ fun hok => hsafe t rfl ⟨Bool.not_eq_true _ ▸ hload, hcond, hok⟩
  · exact h

end Machine

end Armlet
