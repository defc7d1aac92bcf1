import Armlet.Proofs.Lockstep
import Armlet.Proofs.Memory

/-!
# Plain memory in place of a board

A program that keeps to its memory cannot tell a board from plain memory. The
registers of the pins lie where plain memory of the usual size ends long before,
so an access to one of them is the only one that a board answers in a way of its
own, and in plain memory it is out of range. A run that does not end with this
trap has made no such access: not to fetch, not to load and not to store.

So the board mirrors the memory, with these traps excused.
-/

namespace Armlet

/-- Plain memory of the usual size has nothing at the address of a register. -/
theorem Ram.fault?_address {ram : Ram} (hsize : ram.size = Board.ramSize) (r : PinRegister) :
    ram.fault? r.address = some (.outOfRange r.address) := by
  obtain ⟨hle, haligned⟩ := r.address_bounds
  unfold fault?
  rw [if_neg (by omega), if_pos]
  rw [hsize]
  unfold Board.ramSize
  omega

theorem Pins.ownsAddress_address (r : PinRegister) : ownsAddress r.address = true := by
  rw [ownsAddress, PinRegister.ofAddress?_address]
  rfl

/-- A board mirrors its memory, unless it is asked for its pins. -/
theorem Board.mirrors_ram (pins : Pins) :
    Bus.Mirrors (fun ram => Board.mk ram pins) (fun ram => ram.size = Board.ramSize)
      (fun t => ∃ addr, Pins.ownsAddress addr = true ∧ t = .outOfRange addr) where
  read := by
    intro ram addr hsize
    rcases PinRegister.address_cases addr with ⟨r, rfl⟩ | hpin
    · right
      refine ⟨_, ⟨_, Pins.ownsAddress_address r, rfl⟩, ?_⟩
      change ram.read r.address = _
      rw [Ram.read, Ram.fault?_address hsize]
    · left
      exact Board.read_of_memory ⟨ram, pins⟩ (PinRegister.ofAddress?_eq_none_iff.mpr hpin)
  write := by
    intro ram addr v hsize
    rcases PinRegister.address_cases addr with ⟨r, rfl⟩ | hpin
    · right
      refine ⟨_, ⟨_, Pins.ownsAddress_address r, rfl⟩, ?_⟩
      change (ram.write r.address v).answer = _
      rw [ram.write_of_fault v (Ram.fault?_address hsize r)]
    · left
      exact Board.write_of_memory ⟨ram, pins⟩ v (PinRegister.ofAddress?_eq_none_iff.mpr hpin)
  kept_write := fun ram addr v hsize => (ram.size_write addr v).trans hsize

namespace Machine

/--
**A board is as good as plain memory.** Let a run in plain memory of the usual size
not end out of range at a register of the pins. On a board with this memory, and
with its pins in any state, the run gives the same answer and leaves the same
processor and the same memory, and the pins are as they were.
-/
theorem run_board (cpu : Processor) (ram : Ram) (pins : Pins) (hsize : ram.size = Board.ramSize)
    (hpins : ∀ addr : Word, Pins.ownsAddress addr = true →
      (Machine.mk cpu ram).run.1 ≠ .error (.outOfRange addr)) :
    (Machine.mk cpu (Board.mk ram pins)).run
      = ((Machine.mk cpu ram).run.1,
        ⟨(Machine.mk cpu ram).run.2.cpu, ⟨(Machine.mk cpu ram).run.2.bus, pins⟩⟩) := by
  rcases runFrom_mirror (Board.mirrors_ram pins) cpu.maxSteps (Machine.mk cpu ram) 0
      (Machine.mk cpu ram).stepBound hsize with hrun | ⟨t, ⟨addr, howns, rfl⟩, ht⟩
  · have hmirror : (Machine.mk cpu (Board.mk ram pins)).run = ((Machine.mk cpu ram).run.1,
        (Machine.mk cpu ram).run.2.mirror (fun ram => Board.mk ram pins) cpu.maxSteps) := hrun
    -- the mirrored machine is under the limit from the start, and so is the other one
    have hlimit : (Machine.mk cpu ram).run.2.cpu.maxSteps = cpu.maxSteps :=
      maxSteps_runFrom (Machine.mk cpu ram) 0 _
    rw [hmirror, ← hlimit]
    rfl
  · exact absurd ht (hpins addr howns)

/-- A processor about to execute address 0, with `r1` between two registers of the pins. -/
def straying : Processor := (Processor.initial (some 2)).set .r1 0x20200010

/-- `str r0, [r1]`. -/
def strayStore : Transfer := ⟨.al, false, true, true, .r1, .r0, .immediate 0⟩

/-- The store is refused, not at a register of the pins but beside one. -/
theorem run_straying {ram : Ram} (hsize : ram.size = Board.ramSize)
    (hword : ram.word 0 = 0xE5810000) :
    (Machine.mk straying ram).run.1 = .error (.outOfRange 0x20200010) := by
  have hread : Bus.read ram straying.pc = .ok 0xE5810000 := by
    have hpc : straying.pc = 0 := by decide
    rw [hpc]
    refine ram.read_eq_ok_iff.mpr ⟨ram.fault?_eq_none_iff.mpr ⟨rfl, ?_⟩, hword⟩
    rw [hsize]
    decide
  have hdecode : Instruction.decode? 0xE5810000 = some (.transfer strayStore) := by decide
  have haddr : strayStore.address straying = 0x20200010 := by decide
  have hrefused : (strayStore.perform (Machine.mk straying ram)).answer
      = .error (.outOfRange 0x20200010) := by
    refine congrArg Outcome.answer (perform_store_refused rfl ?_)
    change (ram.write (strayStore.address straying) _).answer = _
    rw [haddr, ram.answer_write, hsize, if_neg (by decide), if_pos (by decide)]
  have hexecute : (Machine.mk straying ram).execute (.transfer strayStore)
      = strayStore.perform (Machine.mk straying ram) := execute_of_holds rfl
  have hanswer := congrArg Prod.fst (step_of_fetch (m := Machine.mk straying ram) hread hdecode)
  rw [hexecute] at hanswer
  have hrun : (Machine.mk straying ram).run = runFrom 0 2 (Machine.mk straying ram) := rfl
  rw [hrun, runFrom, show (Machine.mk straying ram).step.answer = _ from hanswer.trans hrefused]

/-- A board refuses this store too, and its pins stay on. -/
theorem run_board_straying : ∃ ram : Ram, ram.size = Board.ramSize
    ∧ (∀ addr : Word, Pins.ownsAddress addr = true →
      (Machine.mk straying ram).run.1 ≠ .error (.outOfRange addr))
    ∧ (Machine.mk straying (Board.mk ram ⟨Vector.replicate 4 7, 0xF0⟩)).run
      = (.error (.outOfRange 0x20200010), ⟨(Machine.mk straying ram).run.2.cpu,
        ⟨(Machine.mk straying ram).run.2.bus, ⟨Vector.replicate 4 7, 0xF0⟩⟩⟩) := by
  obtain ⟨ram, hsize, hword⟩ : ∃ ram : Ram, ram.size = Board.ramSize ∧ ram.word 0 = 0xE5810000 := by
    refine ⟨(Ram.zeroed Board.ramSize).putWord 0 0xE5810000,
      (Ram.size_putWord _ _ _).trans (Ram.size_zeroed _), Ram.word_putWord_self _ _ ?_⟩
    rw [Ram.size_zeroed]
    decide
  have hrun := run_straying hsize hword
  have hpins : ∀ addr : Word, Pins.ownsAddress addr = true →
      (Machine.mk straying ram).run.1 ≠ .error (.outOfRange addr) := by
    intro addr howns heq
    rw [hrun] at heq
    cases heq
    revert howns
    decide
  refine ⟨ram, hsize, hpins, ?_⟩
  rw [← hrun]
  exact run_board straying ram ⟨Vector.replicate 4 7, 0xF0⟩ hsize hpins

end Machine

end Armlet
