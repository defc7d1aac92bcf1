import Armlet.Proofs.Execution
import Armlet.Proofs.RoundTrip
import Armlet.Proofs.TrapState

/-!
# The program counter

An instruction says how the machine goes on, and a step believes it: after `next`
the step itself moves the program counter to the next word, so a value that the
instruction had put there would be lost without a trace. None is. There are four
ways to write the program counter as a register, one transfer can take two of
them at once, and each of them makes the instruction a jump. `Machine.Moved` says
all that can happen, and the rest of this file reads it off.

Addresses stay multiples of four on the way. The next word of an aligned one is
aligned, the offset of a branch is a count of words, and a word that has been
fetched was aligned. So if a fetch is refused for its alignment, the step just
before it has written the program counter as a register.
-/

namespace Armlet

/-! ## Instructions that write the program counter -/

/-- The result goes to the program counter. -/
def DataProcessing.WritesPc (i : DataProcessing) : Prop := i.opcode.keepsResult ∧ i.rd = .pc

/-- The product goes to the program counter. -/
def Multiply.WritesPc (i : Multiply) : Prop := i.rd = .pc

/-- The loaded word goes to the program counter. -/
def Transfer.LoadsPc (i : Transfer) : Prop := i.load ∧ i.rd = .pc

/-- The program counter is the base, and gets the displaced base afterwards. -/
def Transfer.RebasesPc (i : Transfer) : Prop := ¬ i.preIndex ∧ i.rn = .pc

instance : DecidablePred DataProcessing.WritesPc := fun _ => inferInstanceAs (Decidable (_ ∧ _))

instance : DecidablePred Multiply.WritesPc := fun i => inferInstanceAs (Decidable (i.rd = .pc))

instance : DecidablePred Transfer.LoadsPc := fun _ => inferInstanceAs (Decidable (_ ∧ _))

instance : DecidablePred Transfer.RebasesPc := fun _ => inferInstanceAs (Decidable (_ ∧ _))

namespace Instruction

/-- The program counter is written as a register. Branches are not among these instructions. -/
def WritesPc : Instruction → Prop
  | .dataProcessing i => i.WritesPc
  | .multiply i => i.WritesPc
  | .transfer i => i.LoadsPc ∨ i.RebasesPc
  | .branch _ => False
  | .halt => False

/-- A branch, or a write to the program counter. -/
def Jumps (i : Instruction) : Prop := (∃ b, i = .branch b) ∨ i.WritesPc

theorem not_jumps_halt : ¬ Jumps .halt := by
  rintro (⟨b, hb⟩ | h)
  · cases hb
  · exact h

end Instruction

theorem Processor.pc_set (cpu : Processor) (r : Register) (v : Word) :
    (cpu.set r v).pc = if r = .pc then v else cpu.pc := by
  split
  · rename_i hr
    subst hr
    exact cpu.get_set_self .pc v
  · rename_i hr
    exact cpu.get_set_of_ne v (Ne.symm hr)

/-- Setting the flags is of no concern to the program counter. -/
theorem Processor.pc_ite_updateFlags (cpu : Processor) (setFlags : Bool) (v : Word)
    (c o : Option Bool) : (if setFlags then cpu.updateFlags v c o else cpu).pc = cpu.pc := by
  cases setFlags <;> rfl

theorem DataProcessing.pc_apply (i : DataProcessing) (cpu : Processor) :
    (i.apply cpu).pc = if i.WritesPc then (i.result cpu).value else cpu.pc := by
  unfold apply
  dsimp only
  by_cases hkeeps : i.opcode.keepsResult = true
  · have hwrites : i.WritesPc ↔ i.rd = .pc := by simp [WritesPc, hkeeps]
    simp only [hkeeps, if_true, Processor.pc_set, Processor.pc_ite_updateFlags, hwrites]
  · have hwrites : ¬ i.WritesPc := fun h => hkeeps h.1
    rw [if_neg hkeeps, if_neg hwrites, Processor.pc_ite_updateFlags]

theorem Multiply.pc_apply (i : Multiply) (cpu : Processor) :
    (i.apply cpu).pc = if i.WritesPc then i.result cpu else cpu.pc := by
  have hwrites : i.WritesPc ↔ i.rd = .pc := Iff.rfl
  unfold apply
  simp only [Processor.pc_set, Processor.pc_ite_updateFlags, hwrites]

theorem Transfer.flow_eq (i : Transfer) :
    i.flow = if i.LoadsPc ∨ i.RebasesPc then .jump else .next := rfl

/-- What giving the base its new value does to the program counter. -/
theorem Transfer.pc_rebase (i : Transfer) (cpu : Processor) (v : Word) :
    (if i.preIndex then cpu else cpu.set i.rn v).pc = if i.RebasesPc then v else cpu.pc := by
  by_cases hpre : i.preIndex = true
  · have hrebases : ¬ i.RebasesPc := fun h => h.1 hpre
    rw [if_pos hpre, if_neg hrebases]
  · have hrebases : i.RebasesPc ↔ i.rn = .pc := by simp [RebasesPc, hpre]
    simp only [if_neg hpre, Processor.pc_set, hrebases]

/-- A new base wins over a loaded word. -/
theorem Transfer.pc_finish (i : Transfer) (cpu : Processor) (loaded : Option Word) :
    (i.finish cpu loaded).pc = if i.RebasesPc then i.displaced cpu
      else if i.rd = .pc then loaded.getD cpu.pc else cpu.pc := by
  cases loaded with
  | none =>
    have hfinish : (i.finish cpu none).pc = if i.RebasesPc then i.displaced cpu else cpu.pc :=
      i.pc_rebase cpu (i.displaced cpu)
    rw [hfinish, Option.getD_none, ite_self]
  | some v =>
    have hfinish : (i.finish cpu (some v)).pc
        = if i.RebasesPc then i.displaced cpu else (cpu.set i.rd v).pc :=
      i.pc_rebase (cpu.set i.rd v) (i.displaced cpu)
    rw [hfinish, Processor.pc_set, Option.getD_some]

/-! ## One instruction -/

namespace Machine

variable {β : Type} [Bus β]

/-- The word that an instruction puts into the program counter, if it does. A transfer puts a
loaded word there before a new base. -/
def written? (m : Machine β) : Instruction → Option Word
  | .dataProcessing i => if i.WritesPc then some (i.result m.cpu).value else none
  | .multiply i => if i.WritesPc then some (i.result m.cpu) else none
  | .transfer i =>
    if i.RebasesPc then some (i.displaced m.cpu)
    else if i.LoadsPc then (Bus.read m.bus (i.address m.cpu)).toOption
    else none
  | .branch i => some (m.cpu.pc - i.offset)
  | .halt => none

/-- What an instruction that has not trapped did to the program counter, by its answer. -/
inductive Moved (m : Machine β) (i : Instruction) (m' : Machine β) : Flow → Prop where
  | next (stays : ¬ (i.condition.holds m.cpu.flags = true ∧ i.Jumps))
      (pc : m'.cpu.pc = m.cpu.pc) : Moved m i m' .next
  | jump (cond : i.condition.holds m.cpu.flags = true) (jumps : i.Jumps)
      (pc : m.written? i = some m'.cpu.pc) : Moved m i m' .jump
  | halt (halts : i = .halt) (same : m' = m) : Moved m i m' .halt

/-- The two ways in which a transfer that is not refused ends. -/
theorem perform_transfer_ok {m : Machine β} {t : Transfer} {flow : Flow}
    (h : (t.perform m).answer = .ok flow) : flow = t.flow
      ∧ ((t.load = true ∧ ∃ v, Bus.read m.bus (t.address m.cpu) = .ok v
          ∧ (t.perform m).state.cpu = t.finish m.cpu (some v))
        ∨ (t.load = false ∧ (t.perform m).state.cpu = t.finish m.cpu none)) := by
  rcases m.perform_transfer_cases t with ⟨hload, v, hread, hok⟩ | ⟨_, trap, _, hrefused⟩ |
    ⟨hstore, _, hok⟩ | ⟨_, trap, _, hrefused⟩
  · rw [hok] at h ⊢
    cases h
    exact ⟨rfl, .inl ⟨hload, v, hread, rfl⟩⟩
  · rw [hrefused] at h
    cases h
  · rw [hok] at h ⊢
    cases h
    exact ⟨rfl, .inr ⟨hstore, rfl⟩⟩
  · rw [hrefused] at h
    cases h

/-- A write of `v`, or none, as one of the two ways to go on. -/
theorem Moved.of_ite {m m' : Machine β} {i : Instruction} {writes : Prop} [Decidable writes]
    {v : Word} (cond : i.condition.holds m.cpu.flags = true) (hjumps : i.Jumps ↔ writes)
    (hwritten : writes → m.written? i = some v)
    (hpc : m'.cpu.pc = if writes then v else m.cpu.pc) :
    m.Moved i m' (if writes then .jump else .next) := by
  by_cases hw : writes
  · rw [if_pos hw] at hpc ⊢
    exact .jump cond (hjumps.mpr hw) (by rw [hwritten hw, hpc])
  · rw [if_neg hw] at hpc ⊢
    exact .next (fun h => hw (hjumps.mp h.2)) hpc

theorem jumps_iff_writesPc {i : Instruction} (h : ∀ b, i ≠ .branch b) :
    i.Jumps ↔ i.WritesPc := by
  constructor
  · rintro (⟨b, hb⟩ | hw)
    · exact absurd hb (h b)
    · exact hw
  · exact .inr

theorem moved_transfer {m : Machine β} {t : Transfer} {flow : Flow}
    (cond : t.cond.holds m.cpu.flags = true) (h : (t.perform m).answer = .ok flow) :
    m.Moved (.transfer t) (t.perform m).state flow := by
  have hjumps : (Instruction.transfer t).Jumps ↔ t.LoadsPc ∨ t.RebasesPc :=
    jumps_iff_writesPc (by simp)
  obtain ⟨hflow, hends⟩ := perform_transfer_ok h
  rw [hflow, t.flow_eq]
  rcases hends with ⟨hload, v, hread, hcpu⟩ | ⟨hload, hcpu⟩
  · -- both writes are possible, and the base comes last
    refine Moved.of_ite cond hjumps (v := if t.RebasesPc then t.displaced m.cpu else v) ?_ ?_
    · intro hw
      rw [written?]
      by_cases hr : t.RebasesPc
      · rw [if_pos hr, if_pos hr]
      · rw [if_neg hr, if_neg hr, if_pos (hw.resolve_right hr), hread]
        rfl
    · have hl : t.LoadsPc ↔ t.rd = .pc := by simp [Transfer.LoadsPc, hload]
      rw [hcpu, Transfer.pc_finish, Option.getD_some]
      by_cases hr : t.RebasesPc
      · simp only [hr, if_true, or_true]
      · simp only [hr, if_false, or_false, hl]
  · have hl : ¬ t.LoadsPc := by simp [Transfer.LoadsPc, hload]
    refine Moved.of_ite cond hjumps (v := t.displaced m.cpu) ?_ ?_
    · intro hw
      rw [written?, if_pos (hw.resolve_left hl)]
    · rw [hcpu, Transfer.pc_finish, Option.getD_none, ite_self]
      simp only [hl, false_or]

/-- **What an instruction does to the program counter**, if it does not trap. -/
theorem moved_execute {m : Machine β} {i : Instruction} {flow : Flow}
    (h : (m.execute i).answer = .ok flow) : m.Moved i (m.execute i).state flow := by
  cases hcond : i.condition.holds m.cpu.flags with
  | false =>
    rw [execute_of_not_holds hcond] at h ⊢
    cases h
    exact .next (fun hj => absurd (hcond.symm.trans hj.1) Bool.false_ne_true) rfl
  | true =>
    rw [execute_of_holds hcond] at h ⊢
    cases i with
    | dataProcessing i =>
      cases h
      exact .of_ite hcond (jumps_iff_writesPc (by simp)) (fun hw => if_pos hw) (i.pc_apply m.cpu)
    | multiply i =>
      cases h
      exact .of_ite hcond (jumps_iff_writesPc (by simp)) (fun hw => if_pos hw) (i.pc_apply m.cpu)
    | transfer t => exact moved_transfer hcond h
    | branch b =>
      cases h
      refine .jump hcond (.inl ⟨b, rfl⟩) ?_
      rw [written?, perform, Branch.apply, Processor.pc_set, if_pos rfl]
    | halt =>
      cases h
      exact .halt rfl rfl

/-! ## One step -/

/-- A step that has not trapped has fetched, decoded and executed an instruction. -/
theorem step_ok {m : Machine β} {flow : Flow} (h : m.step.answer = .ok flow) :
    ∃ raw i, Bus.read m.bus m.cpu.pc = .ok raw ∧ Instruction.decode? raw = some i
      ∧ (m.execute i).answer = .ok flow
      ∧ m.step.state = (resume m.cpu.pc (m.execute i)).2 := by
  cases hread : Bus.read m.bus m.cpu.pc with
  | error t =>
    simp only [step, hread] at h
    cases h
  | ok raw =>
    cases hdecode : Instruction.decode? raw with
    | none =>
      simp only [step, hread, hdecode] at h
      cases h
    | some i =>
      have hstep := step_of_fetch hread hdecode
      have hanswer : m.step.answer = (m.execute i).answer := congrArg Prod.fst hstep
      exact ⟨raw, i, rfl, hdecode, hanswer.symm.trans h, congrArg Prod.snd hstep⟩

/-- What a step does to the program counter, by its answer. -/
theorem pc_step {m : Machine β} {flow : Flow} (h : m.step.answer = .ok flow) :
    ∃ raw i, Bus.read m.bus m.cpu.pc = .ok raw ∧ Instruction.decode? raw = some i
      ∧ (m.execute i).answer = .ok flow
      ∧ (flow = .next → m.step.state.cpu.pc = m.cpu.pc + 4)
      ∧ (flow = .halt → m.step.state.cpu.pc = m.cpu.pc)
      ∧ (flow = .jump → m.written? i = some m.step.state.cpu.pc) := by
  obtain ⟨raw, i, hread, hdecode, hanswer, hstate⟩ := step_ok h
  have hmoved := moved_execute hanswer
  refine ⟨raw, i, hread, hdecode, hanswer, ?_, ?_, ?_⟩
  · rintro rfl
    rw [hstate, resume, hanswer]
    exact Processor.get_set_self _ .pc (m.cpu.pc + 4)
  · rintro rfl
    rw [hstate, resume, hanswer]
    cases hmoved with
    | halt _ same => rw [same]
  · rintro rfl
    rw [hstate, resume, hanswer]
    cases hmoved with
    | jump _ _ pc => exact pc

/-! ## Alignment -/

/-- The next instruction is executed and writes the program counter as a register. -/
def WritesPc (m : Machine β) : Prop :=
  ∃ raw i, Bus.read m.bus m.cpu.pc = .ok raw ∧ Instruction.decode? raw = some i
    ∧ i.condition.holds m.cpu.flags = true ∧ i.WritesPc

/-- A branch from an aligned address leads to an aligned one, if a word stands for it. -/
theorem aligned_sub_offset {pc : Word} {b : Branch} (h : b.Fits) (hpc : pc.toNat % 4 = 0) :
    (pc - b.offset).toNat % 4 = 0 := by
  obtain ⟨hdvd, _, _⟩ := h
  rw [BitVec.toInt_eq_toNat_cond] at hdvd
  have hlt := b.offset.isLt
  rw [BitVec.toNat_sub]
  split at hdvd <;> omega

/-- A step from an aligned address leads to an aligned one, unless it writes the program counter. -/
theorem aligned_step {m : Machine β} (hon : m.GoesOn) (hpc : m.cpu.pc.toNat % 4 = 0)
    (hwrites : ¬ m.WritesPc) : m.step.state.cpu.pc.toNat % 4 = 0 := by
  obtain ⟨flow, hflow⟩ : ∃ flow, m.step.answer = .ok flow := by
    rcases hon with h | h
    · exact ⟨_, h⟩
    · exact ⟨_, h⟩
  obtain ⟨raw, i, hread, hdecode, hanswer, hnext, hhalt, hjump⟩ := pc_step hflow
  cases moved_execute hanswer with
  | next stays pc =>
    rw [hnext rfl, BitVec.toNat_add]
    have : (4 : Word).toNat = 4 := rfl
    omega
  | jump cond jumps pc =>
    rcases jumps with ⟨b, rfl⟩ | hw
    · have hfits : b.Fits := Instruction.encodable_of_decode? hdecode
      have hpc' : m.step.state.cpu.pc = m.cpu.pc - b.offset := (Option.some.inj (hjump rfl)).symm
      rw [hpc']
      exact aligned_sub_offset hfits hpc
    · exact absurd ⟨raw, i, hread, hdecode, cond, hw⟩ hwrites
  | halt halts same =>
    rw [hhalt rfl]
    exact hpc

/-- **Nothing but a write to the program counter misaligns it**, over any number of steps. -/
theorem aligned_after {m : Machine β} {n : Nat} (hpc : m.cpu.pc.toNat % 4 = 0)
    (on : ∀ j, j < n → (m.after j).GoesOn) (hwrites : ∀ j, j < n → ¬ (m.after j).WritesPc) :
    (m.after n).cpu.pc.toNat % 4 = 0 := by
  induction n with
  | zero => exact hpc
  | succ n ih =>
    rw [after_succ']
    exact aligned_step (on n (Nat.lt_succ_self n))
      (ih (fun j hj => on j (Nat.lt_succ_of_lt hj)) fun j hj => hwrites j (Nat.lt_succ_of_lt hj))
      (hwrites n (Nat.lt_succ_self n))

theorem aligned_branch {m : Machine β} {raw : Word} {b : Branch} (hpc : m.cpu.pc.toNat % 4 = 0)
    (h : Instruction.decode? raw = some (.branch b)) :
    (m.execute (.branch b)).state.cpu.pc.toNat % 4 = 0 := by
  cases hcond : b.cond.holds m.cpu.flags with
  | false =>
    rw [execute_of_not_holds hcond]
    exact hpc
  | true =>
    have hfits : b.Fits := Instruction.encodable_of_decode? h
    rw [execute_of_holds hcond, perform, Branch.apply, Processor.pc_set, if_pos rfl]
    exact aligned_sub_offset hfits hpc

end Machine

/-- A bus that serves multiples of four, and is never unaligned at one. -/
class AlignedBus (β : Type) [Bus β] : Prop where
  aligned_of_read : ∀ (bus : β) (addr v : Word), Bus.read bus addr = .ok v → addr.toNat % 4 = 0
  misaligned_of_read : ∀ (bus : β) (addr a : Word), Bus.read bus addr = .error (.unaligned a) →
    addr.toNat % 4 ≠ 0

theorem Ram.aligned_of_read (ram : Ram) (addr v : Word) (h : ram.read addr = .ok v) :
    addr.toNat % 4 = 0 := (ram.fault?_eq_none_iff.mp (ram.read_eq_ok_iff.mp h).1).1

theorem Ram.misaligned_of_read (ram : Ram) (addr a : Word)
    (h : ram.read addr = .error (.unaligned a)) : addr.toNat % 4 ≠ 0 := by
  intro haligned
  rw [ram.read_eq, if_neg (not_not_intro haligned)] at h
  split at h <;> cases h

instance : AlignedBus Ram where
  aligned_of_read := Ram.aligned_of_read
  misaligned_of_read := Ram.misaligned_of_read

instance : AlignedBus Board where
  aligned_of_read := by
    intro board addr v h
    rcases PinRegister.address_cases addr with ⟨r, rfl⟩ | hpin
    · exact r.address_bounds.2
    · have hread := board.read_of_memory (PinRegister.ofAddress?_eq_none_iff.mpr hpin)
      exact board.ram.aligned_of_read addr v (hread.symm.trans h)
  misaligned_of_read := by
    intro board addr a h
    rcases PinRegister.address_cases addr with ⟨r, rfl⟩ | hpin
    · have hread : board.read r.address = .ok (board.pins.read r) := by
        rw [Board.read, PinRegister.ofAddress?_address]
      cases hread.symm.trans h
    · have hread := board.read_of_memory (PinRegister.ofAddress?_eq_none_iff.mpr hpin)
      exact board.ram.misaligned_of_read addr a (hread.symm.trans h)

namespace Machine

variable {β : Type} [Bus β] [AlignedBus β]

/-- A fetch that is refused for its alignment follows a write to the program counter at once. -/
theorem writesPc_of_misaligned_fetch {m : Machine β} {n : Nat} {a : Word}
    (hpc : m.cpu.pc.toNat % 4 = 0) (on : ∀ j, j < n → (m.after j).GoesOn)
    (hfetch : Bus.read (m.after n).bus (m.after n).cpu.pc = .error (.unaligned a)) :
    ∃ k, n = k + 1 ∧ (m.after k).WritesPc := by
  have hmisaligned := AlignedBus.misaligned_of_read _ _ _ hfetch
  cases n with
  | zero => exact absurd hpc hmisaligned
  | succ k =>
    refine ⟨k, rfl, ?_⟩
    refine Classical.byContradiction fun hwrites => ?_
    -- the step before has fetched its own word, so it was at an aligned address
    have hon := on k (Nat.lt_succ_self k)
    have haligned : (m.after k).cpu.pc.toNat % 4 = 0 := by
      rcases hon with h | h
      · obtain ⟨raw, i, hread, _⟩ := step_ok h
        exact AlignedBus.aligned_of_read _ _ _ hread
      · obtain ⟨raw, i, hread, _⟩ := step_ok h
        exact AlignedBus.aligned_of_read _ _ _ hread
    rw [after_succ'] at hmisaligned
    exact hmisaligned (aligned_step hon haligned hwrites)

end Machine

/-! ## On every bus -/

/-- What instructions, steps and runs do to the program counter. -/
structure PcDiscipline (β : Type) [Bus β] : Prop where
  /-- Nothing that a step would overwrite. -/
  next : ∀ (m : Machine β) (i : Instruction), (m.execute i).answer = .ok .next →
    (m.execute i).state.cpu.pc = m.cpu.pc
  halt : ∀ (m : Machine β) (i : Instruction), (m.execute i).answer = .ok .halt →
    (m.execute i).state = m
  jump_iff : ∀ (m : Machine β) (i : Instruction) (flow : Flow), (m.execute i).answer = .ok flow →
    (flow = .jump ↔ i.condition.holds m.cpu.flags = true ∧ i.Jumps)
  skipped : ∀ (m : Machine β) (i : Instruction), i.condition.holds m.cpu.flags = false →
    (m.execute i).answer = .ok .next ∧ (m.execute i).state = m
  /-- A step moves on by a word, stays where it is, or goes where its instruction says. -/
  step : ∀ (m : Machine β) (flow : Flow), m.step.answer = .ok flow →
    ∃ raw i, Bus.read m.bus m.cpu.pc = .ok raw ∧ Instruction.decode? raw = some i
      ∧ (m.execute i).answer = .ok flow
      ∧ (flow = .next → m.step.state.cpu.pc = m.cpu.pc + 4)
      ∧ (flow = .halt → m.step.state.cpu.pc = m.cpu.pc)
      ∧ (flow = .jump → m.written? i = some m.step.state.cpu.pc)
  branch : ∀ (m : Machine β) (raw : Word) (b : Branch), m.cpu.pc.toNat % 4 = 0 →
    Instruction.decode? raw = some (.branch b) →
    (m.execute (.branch b)).state.cpu.pc.toNat % 4 = 0
  /-- As long as no step writes it as a register, the program counter stays aligned. -/
  aligned : ∀ (m : Machine β) (n : Nat), m.cpu.pc.toNat % 4 = 0 →
    (∀ j, j < n → (m.after j).GoesOn) → (∀ j, j < n → ¬ (m.after j).WritesPc) →
    (m.after n).cpu.pc.toNat % 4 = 0
  /-- After any number of steps, a misaligned fetch is the doing of the last of them. -/
  fetch : ∀ (m : Machine β) (n : Nat) (a : Word), m.cpu.pc.toNat % 4 = 0 →
    (∀ j, j < n → (m.after j).GoesOn) →
    Bus.read (m.after n).bus (m.after n).cpu.pc = .error (.unaligned a) →
    ∃ k, n = k + 1 ∧ (m.after k).WritesPc
  /-- So it is in a run that ends in this way. -/
  run : ∀ (m : Machine β) (a : Word), m.cpu.pc.toNat % 4 = 0 →
    m.run.1 = .error (.unaligned a) →
    Bus.read m.run.2.bus m.run.2.cpu.pc = .error (.unaligned a) →
    ∃ k, (∀ j, j < k + 1 → (m.after j).GoesOn) ∧ m.run.2 = m.after (k + 1)
      ∧ (m.after k).WritesPc

theorem pcDiscipline_of_aligned {β : Type} [Bus β] [LawfulBus β] [AlignedBus β] :
    PcDiscipline β where
  next := by
    intro m i h
    cases Machine.moved_execute h with
    | next _ pc => exact pc
  halt := by
    intro m i h
    cases Machine.moved_execute h with
    | halt _ same => exact same
  jump_iff := by
    intro m i flow h
    cases Machine.moved_execute h with
    | next stays _ => exact iff_of_false nofun stays
    | jump cond jumps _ => exact iff_of_true rfl ⟨cond, jumps⟩
    | halt halts _ =>
      refine iff_of_false nofun ?_
      rintro ⟨_, hjumps⟩
      exact Instruction.not_jumps_halt (halts ▸ hjumps)
  skipped := by
    intro m i h
    rw [Machine.execute_of_not_holds h]
    exact ⟨rfl, rfl⟩
  step := fun _ _ h => Machine.pc_step h
  branch := fun _ _ _ hpc h => Machine.aligned_branch hpc h
  aligned := fun _ _ hpc on hwrites => Machine.aligned_after hpc on hwrites
  fetch := fun _ _ _ hpc on hfetch => Machine.writesPc_of_misaligned_fetch hpc on hfetch
  run := by
    intro m a hpc hrun hfetch
    obtain ⟨n, on, hstate, _⟩ := m.run_error _ hrun nofun
    rw [hstate] at hfetch
    obtain ⟨k, rfl, hwrites⟩ := Machine.writesPc_of_misaligned_fetch hpc on hfetch
    exact ⟨k, on, hstate, hwrites⟩

/-- **The program counter is never moved in silence**, neither with plain memory of any size nor on
a board with pins: an instruction that writes it is a jump, and of all jumps only those that write
it as a register can misalign it. -/
theorem pcDiscipline_ram_board : PcDiscipline Ram ∧ PcDiscipline Board :=
  ⟨pcDiscipline_of_aligned, pcDiscipline_of_aligned⟩

end Armlet
