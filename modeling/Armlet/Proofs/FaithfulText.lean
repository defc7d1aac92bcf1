import Armlet.Proofs.Lockstep
import Armlet.Proofs.SharedText

/-!
# What instructions with the same text do

What a disassembly leaves out makes a difference to the flags at most, with two
exceptions. The halt shares its text with an instruction that goes on. And a
transfer by zero bytes is shown alike whether it adds them to the address or to
its base afterwards; yet the second way writes the base, which is a jump if the
base is the program counter, and undoes the load if the base is what was loaded.

`Instruction.Clash` is the two exceptions, and they are real: whenever two
instructions clash, some machine tells them apart.
-/

namespace Armlet

/-! ## Up to flags -/

/-- The processor with all flags down. -/
def Processor.flagless (cpu : Processor) : Processor := { cpu with flags := .clear }

/-- The machine with all flags down. -/
def Machine.flagless {β : Type} (m : Machine β) : Machine β := { m with cpu := m.cpu.flagless }

/-- On every machine the two answer alike and show the same events, and they leave the same
machine, flags apart. -/
def Instruction.AlikeUpToFlags (i j : Instruction) : Prop :=
  ∀ (β : Type) [Bus β] (m : Machine β),
    (m.execute i).map Machine.flagless = (m.execute j).map Machine.flagless

namespace Instruction

theorem AlikeUpToFlags.symm {i j : Instruction} (h : i.AlikeUpToFlags j) : j.AlikeUpToFlags i :=
  fun β _ m => (h β m).symm

theorem AlikeUpToFlags.trans {i j k : Instruction} (h : i.AlikeUpToFlags j)
    (h' : j.AlikeUpToFlags k) : i.AlikeUpToFlags k :=
  fun β _ m => (h β m).trans (h' β m)

/-- Under the same condition it is enough to look at the machines where it holds. -/
theorem alikeUpToFlags_of_perform {i j : Instruction} (hcond : i.condition = j.condition)
    (h : ∀ (β : Type) [Bus β] (m : Machine β),
      (m.perform i).map Machine.flagless = (m.perform j).map Machine.flagless) :
    i.AlikeUpToFlags j := by
  intro β _ m
  unfold Machine.execute
  rw [hcond]
  split
  · exact h β m
  · rfl

end Instruction

/-! ## What is left out of an operand -/

namespace Processor

variable (cpu : Processor)

theorem shifted_canonical (operand : RegisterOperand) :
    cpu.shifted operand.canonical = cpu.shifted operand := by
  obtain ⟨rm, shift⟩ := operand
  cases shift with
  | amount kind n =>
    by_cases hn : n = 0
    · subst hn
      rfl
    · rw [RegisterOperand.canonical, Shift.canonical_amount hn]
  | register kind rs => rfl

theorem secondOperand_canonical (operand : SecondOperand) :
    cpu.secondOperand operand.canonical = cpu.secondOperand operand := by
  cases operand with
  | immediate imm rotate =>
    rw [SecondOperand.canonical, SecondOperand.leastImmediate, secondOperand, secondOperand,
      SecondOperand.immediateValue_leastImmediate]
  | register operand => exact cpu.shifted_canonical operand

theorem displacement_canonical (d : Displacement) :
    cpu.displacement d.canonical = cpu.displacement d := by
  cases d with
  | immediate bytes => rfl
  | register operand => exact congrArg ShifterOutput.value (cpu.shifted_canonical operand)

end Processor

/-! ## Data processing and multiplication -/

namespace DataProcessing

theorem result_canonical (i : DataProcessing) (cpu : Processor) :
    i.canonical.result cpu = i.result cpu := by
  obtain ⟨cond, opcode, setFlags, rn, rd, operand⟩ := i
  unfold result canonical
  dsimp only
  rw [cpu.secondOperand_canonical]
  split
  · -- a move does not look at its first operand
    rename_i hmov
    rw [hmov]
    rfl
  · rfl

/-- Flags apart, the processor changes in the destination only, if there is one. -/
theorem flagless_apply (i : DataProcessing) (cpu : Processor) : (i.apply cpu).flagless
    = if i.opcode.keepsResult then cpu.flagless.set i.rd (i.result cpu).value
      else cpu.flagless := by
  unfold apply
  dsimp only
  cases i.opcode.keepsResult <;> cases i.setFlags <;> rfl

theorem alike_canonical (i : DataProcessing) :
    (Instruction.dataProcessing i).AlikeUpToFlags (.dataProcessing i.canonical) := by
  refine Instruction.alikeUpToFlags_of_perform rfl fun β _ m => ?_
  have hflow : i.canonical.flow = i.flow := by
    obtain ⟨cond, opcode, setFlags, rn, rd, operand⟩ := i
    cases opcode <;> rfl
  have hcpu : (i.canonical.apply m.cpu).flagless = (i.apply m.cpu).flagless := by
    rw [flagless_apply, flagless_apply, result_canonical]
    cases hkeeps : i.opcode.keepsResult <;> simp [canonical, hkeeps]
  simp only [Machine.perform, Outcome.map, Machine.flagless, hflow, hcpu]

end DataProcessing

theorem Multiply.alike_canonical (i : Multiply) :
    (Instruction.multiply i).AlikeUpToFlags (.multiply i.canonical) := by
  refine Instruction.alikeUpToFlags_of_perform rfl fun β _ m => ?_
  obtain ⟨cond, accumulate, setFlags, rd, rn, rs, rm⟩ := i
  cases accumulate <;> cases setFlags <;> rfl

/-! ## Transfers -/

namespace Transfer

/-- A transfer is known by what it accesses and by what it leaves in the processor. -/
theorem perform_congr {β : Type} [Bus β] {i j : Transfer} (hload : j.load = i.load)
    (hrd : j.rd = i.rd) (haddress : ∀ cpu, j.address cpu = i.address cpu) (hflow : j.flow = i.flow)
    (hfinish : ∀ (cpu : Processor) (loaded : Option Word), (loaded.isSome = true → i.load = true) →
      j.finish cpu loaded = i.finish cpu loaded) (m : Machine β) : j.perform m = i.perform m := by
  unfold perform
  rw [hload, hrd, hflow]
  dsimp only
  split
  · rename_i hl
    simp only [haddress, hfinish _ (some _) fun _ => hl]
  · simp only [haddress, hfinish _ none nofun]

/-- The canonical form with the index mode of the instruction. -/
def reduced (i : Transfer) : Transfer := { i.canonical with preIndex := i.preIndex }

theorem displaced_reduced (i : Transfer) (cpu : Processor) :
    i.reduced.displaced cpu = i.displaced cpu := by
  unfold displaced reduced canonical
  dsimp only
  rw [cpu.displacement_canonical]
  by_cases hzero : i.displacement = .immediate 0
  · -- adding nothing is taking nothing off
    rw [hzero]
    simp [Processor.displacement]
  · rw [decide_eq_false hzero, Bool.or_false]

theorem perform_reduced {β : Type} [Bus β] (i : Transfer) (m : Machine β) :
    i.reduced.perform m = i.perform m := by
  refine perform_congr (i := i) (j := i.reduced) rfl rfl ?_ rfl ?_ m
  · intro cpu
    rw [address, address, displaced_reduced]
    rfl
  · intro cpu loaded _
    unfold finish
    rw [displaced_reduced]
    rfl

/-! ### By zero bytes -/

section Zero

variable {i : Transfer} (hzero : i.displacement = .immediate 0)
include hzero

theorem displaced_zero (cpu : Processor) : i.displaced cpu = cpu.get i.rn := by
  rw [displaced, hzero]
  simp [Processor.displacement]

theorem address_zero (cpu : Processor) : i.address cpu = cpu.get i.rn := by
  rw [address, displaced_zero hzero]
  simp

/-- A base that is not what was loaded is written with the value that it has. -/
theorem finish_zero (cpu : Processor) {loaded : Option Word}
    (hload : loaded.isSome = true → i.rd ≠ i.rn) :
    i.finish cpu loaded = loaded.elim cpu (cpu.set i.rd) := by
  unfold finish
  rw [displaced_zero hzero]
  cases loaded with
  | none =>
    dsimp only
    rw [Processor.set_get]
    split <;> rfl
  | some v =>
    -- the load has not touched the base, so the base is given the value it has
    have hget : (cpu.set i.rd v).get i.rn = cpu.get i.rn :=
      Processor.get_set_of_ne cpu v (hload rfl).symm
    dsimp only
    rw [← hget, Processor.set_get]
    split <;> rfl

/-- A base that is neither the program counter nor loaded is written without consequences. -/
theorem perform_indexed {β : Type} [Bus β] (hpc : i.rn ≠ .pc) (hload : i.load = true → i.rd ≠ i.rn)
    (preIndex : Bool) (m : Machine β) :
    Transfer.perform { i with preIndex := preIndex } m = i.perform m := by
  refine perform_congr (i := i) (j := { i with preIndex := preIndex }) rfl rfl ?_ ?_ ?_ m
  · intro cpu
    rw [address_zero hzero]
    exact @address_zero { i with preIndex := preIndex } hzero cpu
  · simp [flow, hpc]
  · intro cpu loaded h
    rw [finish_zero hzero cpu fun hsome => hload (h hsome)]
    exact @finish_zero { i with preIndex := preIndex } hzero cpu loaded fun hsome =>
      hload (h hsome)

end Zero

/-- A transfer by zero bytes, with its base written afterwards and without that, where this makes
a difference. -/
def Clash (i j : Transfer) : Prop :=
  i.displacement = .immediate 0 ∧ i.preIndex = true ∧ j.preIndex = false ∧ i.cond ≠ .nv
    ∧ (i.rn = .pc ∨ (i.load = true ∧ i.rd = i.rn))

end Transfer

/-! ## The exceptions -/

/-- A condition that can hold does so under some flags. -/
theorem Condition.exists_holds {c : Condition} (h : c ≠ .nv) : ∃ f, c.holds f = true := by
  cases c with
  | nv => exact absurd rfl h
  | eq => exact ⟨⟨false, true, false, false⟩, rfl⟩
  | cs => exact ⟨⟨false, false, true, false⟩, rfl⟩
  | mi => exact ⟨⟨true, false, false, false⟩, rfl⟩
  | vs => exact ⟨⟨false, false, false, true⟩, rfl⟩
  | hi => exact ⟨⟨false, false, true, false⟩, rfl⟩
  | lt => exact ⟨⟨true, false, false, false⟩, rfl⟩
  | le => exact ⟨⟨true, false, false, false⟩, rfl⟩
  | _ => exact ⟨.clear, rfl⟩

namespace Instruction

/-- Two instructions with the same text that do not do the same. -/
def Clash : Instruction → Instruction → Prop
  | halt, dataProcessing _ => True
  | transfer i, transfer j => i.Clash j
  | _, _ => False

/-- The machine that tells clashing transfers apart: all registers zero, and a one in memory. -/
def probe (f : Flags) : Machine Ram :=
  ⟨⟨Vector.replicate 16 0, f, none⟩, (Ram.zeroed 4).putWord 0 1⟩

theorem get_probe (f : Flags) (r : Register) : (probe f).cpu.get r = 0 := by
  cases r <;> rfl

theorem read_probe (f : Flags) : Bus.read (probe f).bus 0 = .ok 1 := by
  change Ram.read ((Ram.zeroed 4).putWord 0 1) 0 = .ok 1
  decide +kernel

theorem write_probe (f : Flags) : (Bus.write (probe f).bus 0 0).answer = .ok () := by rfl

end Instruction

namespace Transfer

variable {i j : Transfer}

/-- What the text of a transfer settles in any case. -/
theorem fields_of_shown_eq (h : i.shown = j.shown) : j.cond = i.cond ∧ j.load = i.load
    ∧ j.rn = i.rn ∧ j.rd = i.rd ∧ j.displacement.canonical = i.displacement.canonical := by
  rw [shown, shown, mk.injEq] at h
  obtain ⟨hcond, hload, _, _, hrn, hrd, hdisplacement⟩ := h
  exact ⟨hcond.symm, hload.symm, hrn.symm, hrd.symm, hdisplacement.symm⟩

/-- A transfer by zero bytes accesses the one word there is. -/
theorem perform_probe (hzero : i.displacement = .immediate 0) (f : Flags) :
    (i.perform (Instruction.probe f)).answer = .ok i.flow
      ∧ (i.load = true → (i.perform (Instruction.probe f)).state.cpu
        = i.finish (Instruction.probe f).cpu (some 1)) := by
  have haddress : i.address (Instruction.probe f).cpu = 0 := by
    rw [address_zero hzero, Instruction.get_probe]
  cases hload : i.load with
  | true =>
    have hread : Bus.read (Instruction.probe f).bus (i.address (Instruction.probe f).cpu)
        = .ok 1 := by
      rw [haddress]
      exact Instruction.read_probe f
    rw [Machine.perform_load hload hread]
    exact ⟨rfl, fun _ => rfl⟩
  | false =>
    refine ⟨?_, nofun⟩
    have hwrite : (Bus.write (Instruction.probe f).bus (i.address (Instruction.probe f).cpu)
        ((Instruction.probe f).cpu.get i.rd)).answer = .ok () := by
      rw [haddress, Instruction.get_probe]
      exact Instruction.write_probe f
    unfold perform
    simp only [hload, Bool.false_eq_true, if_false, hwrite]

/-- The two leave different bases, or only one of them jumps. -/
theorem not_alike_of_clash (hshown : i.shown = j.shown) (h : i.Clash j) :
    ¬ (Instruction.transfer i).AlikeUpToFlags (.transfer j) := by
  obtain ⟨hzero, hpre, hpost, hcond, hbase⟩ := h
  obtain ⟨hjcond, hjload, hjrn, hjrd, hjzero⟩ := fields_of_shown_eq hshown
  rw [hzero] at hjzero
  have hjzero := Displacement.canonical_eq_zero_iff.mp hjzero
  obtain ⟨f, hf⟩ := Condition.exists_holds hcond
  intro halike
  have hsame := halike Ram (Instruction.probe f)
  have hi : (Instruction.transfer i).condition.holds (Instruction.probe f).cpu.flags = true := hf
  have hj : (Instruction.transfer j).condition.holds (Instruction.probe f).cpu.flags = true := by
    rw [Instruction.condition, hjcond]
    exact hf
  rw [Machine.execute_of_holds hi, Machine.execute_of_holds hj] at hsame
  obtain ⟨hianswer, histate⟩ := perform_probe hzero f
  obtain ⟨hjanswer, hjstate⟩ := perform_probe hjzero f
  by_cases hload : i.load = true ∧ i.rd = i.rn
  · -- one keeps what it loaded, the other has the old base again
    have hget : (i.perform (Instruction.probe f)).state.cpu.get i.rd
        = (j.perform (Instruction.probe f)).state.cpu.get i.rd :=
      congrArg (fun out => out.state.cpu.get i.rd) hsame
    -- the memory holds a one, and every register began as zero
    have hone : (i.finish (Instruction.probe f).cpu (some 1)).get i.rd = 1 := by
      simp [finish, hpre]
    have hnought : (j.finish (Instruction.probe f).cpu (some 1)).get i.rd = 0 := by
      simp [finish, hpost, hjrn, hload.2, displaced_zero hjzero, Instruction.get_probe]
    rw [histate hload.1, hjstate (hjload.trans hload.1), hone, hnought] at hget
    exact absurd hget (by decide)
  · have hrn : i.rn = .pc := hbase.resolve_right hload
    have hnext : i.flow = .next := by
      rw [flow, if_neg]
      rintro (hloads | ⟨hnot, _⟩)
      · exact hload (hrn ▸ hloads)
      · exact hnot hpre
    have hjump : j.flow = .jump := by
      rw [flow, if_pos]
      exact .inr ⟨by simp [hpost], hjrn.trans hrn⟩
    have hanswer := congrArg Outcome.answer hsame
    simp only [Machine.perform, Outcome.map] at hanswer
    rw [hianswer, hjanswer, hnext, hjump] at hanswer
    cases hanswer

/-- The two have all of their canonical form in common but the index mode. -/
theorem reduced_eq (h : i.shown = j.shown) :
    i.reduced = { j.reduced with preIndex := i.preIndex } := by
  change { i.shown with preIndex := i.preIndex } = { j.shown with preIndex := i.preIndex }
  rw [h]

theorem alike_of_preIndex_eq (hshown : i.shown = j.shown) (hpre : i.preIndex = j.preIndex) :
    (Instruction.transfer i).AlikeUpToFlags (.transfer j) := by
  have hreduced : i.reduced = j.reduced := by
    rw [reduced_eq hshown, hpre]
    rfl
  refine Instruction.alikeUpToFlags_of_perform (fields_of_shown_eq hshown).1.symm fun β _ m => ?_
  rw [Machine.perform, Machine.perform, ← i.perform_reduced, hreduced, j.perform_reduced]

/-- Transfers of different index mode by zero bytes, where the mode makes no difference. -/
theorem alike_of_not_clash (hshown : i.shown = j.shown) (hi : i.preIndex = true)
    (hj : j.preIndex = false) (h : ¬ i.Clash j) :
    (Instruction.transfer i).AlikeUpToFlags (.transfer j) := by
  obtain ⟨hjcond, hjload, hjrn, hjrd, hjzero⟩ := fields_of_shown_eq hshown
  have hzero : j.displacement = .immediate 0 := by
    have hindex : (i.preIndex || decide (i.displacement = .immediate 0))
        = (j.preIndex || decide (j.displacement = .immediate 0)) := congrArg preIndex hshown
    rw [hi, hj, Bool.true_or, Bool.false_or] at hindex
    exact of_decide_eq_true hindex.symm
  by_cases hnever : i.cond = .nv
  · -- neither of them is ever executed
    intro β _ m
    have hskips : ∀ t : Transfer, t.cond = .nv →
        m.execute (.transfer t) = ⟨.ok .next, m, [.conditionFailed .nv m.cpu.pc]⟩ := by
      intro t ht
      rw [Machine.execute_of_not_holds (by rw [Instruction.condition, ht]; rfl),
        Instruction.condition, ht]
    rw [hskips i hnever, hskips j (hjcond.trans hnever)]
  · have hizero : i.displacement = .immediate 0 := by
      rw [hzero] at hjzero
      exact Displacement.canonical_eq_zero_iff.mp hjzero.symm
    have hbase : ¬ (i.rn = .pc ∨ (i.load = true ∧ i.rd = i.rn)) := fun hbase =>
      h ⟨hizero, hi, hj, hnever, hbase⟩
    -- so the index mode can be changed on the way from one to the other
    rw [not_or, not_and, ← hjrn, ← hjload, ← hjrd] at hbase
    have hjzero' : j.reduced.displacement = .immediate 0 :=
      Displacement.canonical_eq_zero_iff.mpr hzero
    refine Instruction.alikeUpToFlags_of_perform hjcond.symm fun β _ m => ?_
    rw [Machine.perform, Machine.perform, ← i.perform_reduced, reduced_eq hshown,
      perform_indexed hjzero' hbase.1 hbase.2, j.perform_reduced]

end Transfer

namespace Instruction

variable {i j : Instruction}

/-- The halt ends a run, and the instruction with its text does not. -/
theorem halt_not_alike (p : DataProcessing) : ¬ halt.AlikeUpToFlags (.dataProcessing p) := by
  intro halike
  have hhalt : ((probe .clear).execute (.dataProcessing p)).answer = .ok .halt :=
    (congrArg Outcome.answer (halike Ram (probe .clear))).symm
  unfold Machine.execute Machine.perform DataProcessing.flow at hhalt
  split at hhalt
  · dsimp only at hhalt
    split at hhalt <;> cases hhalt
  · cases hhalt

theorem not_alike_of_clash (hshown : i.shown = j.shown) (h : Clash i j) :
    ¬ i.AlikeUpToFlags j := by
  cases i with
  | halt =>
    cases j with
    | dataProcessing p => exact halt_not_alike p
    | _ => cases h
  | transfer i =>
    cases j with
    | transfer j => exact Transfer.not_alike_of_clash (transfer.inj hshown) h
    | _ => cases h
  | _ => cases h

/-- Instructions that are shown alike do the same, flags apart, unless they clash. -/
theorem alike_of_not_clash (hshown : i.shown = j.shown) (h : ¬ Clash i j) (h' : ¬ Clash j i) :
    i.AlikeUpToFlags j := by
  cases i with
  | dataProcessing i =>
    cases j with
    | dataProcessing j =>
      have hj := j.alike_canonical.symm
      rw [← dataProcessing.inj hshown] at hj
      exact i.alike_canonical.trans hj
    | halt => exact absurd trivial h'
    | _ => cases hshown
  | multiply i =>
    cases j with
    | multiply j =>
      have hj := j.alike_canonical.symm
      rw [← multiply.inj hshown] at hj
      exact i.alike_canonical.trans hj
    | _ => cases hshown
  | transfer i =>
    cases j with
    | transfer j =>
      have hshown := transfer.inj hshown
      cases hi : i.preIndex with
      | true =>
        cases hj : j.preIndex with
        | true => exact Transfer.alike_of_preIndex_eq hshown (hi.trans hj.symm)
        | false => exact Transfer.alike_of_not_clash hshown hi hj h
      | false =>
        cases hj : j.preIndex with
        | true => exact (Transfer.alike_of_not_clash hshown.symm hj hi h').symm
        | false => exact Transfer.alike_of_preIndex_eq hshown (hi.trans hj.symm)
    | _ => cases hshown
  | branch i =>
    cases j with
    | branch j =>
      cases hshown
      exact fun β _ m => rfl
    | _ => cases hshown
  | halt =>
    cases j with
    | halt => exact fun β _ m => rfl
    | dataProcessing j => exact absurd trivial h
    | _ => cases hshown

/-- **A disassembly is faithful up to flags, unless two instructions clash.** Two instructions
that have the same text do the same on every machine, flags apart, iff they are not one of the
exceptions: a halt and an instruction that is not one, or two transfers by zero bytes of which one
writes its base to some effect. -/
theorem text_faithful_iff {w w' : Word} (hi : decode? w = some i) (hj : decode? w' = some j)
    (htext : i.text = j.text) : i.AlikeUpToFlags j ↔ ¬ (Clash i j ∨ Clash j i) := by
  have hshown := (text_eq_iff (encodable_of_decode? hi) (encodable_of_decode? hj)).mp htext
  constructor
  · rintro halike (hclash | hclash)
    · exact not_alike_of_clash hshown hclash halike
    · exact not_alike_of_clash hshown.symm hclash halike.symm
  · intro h
    rw [not_or] at h
    exact alike_of_not_clash hshown h.1 h.2

/-- A transfer by zero bytes upwards in front, and one by zero bytes downwards behind. -/
theorem text_faithful_iff_indexed :
    decode? 0xE5921000 = some (.transfer ⟨.al, true, true, true, .r2, .r1, .immediate 0⟩)
      ∧ decode? 0xE4121000 = some (.transfer ⟨.al, true, false, false, .r2, .r1, .immediate 0⟩)
      ∧ (transfer ⟨.al, true, true, true, .r2, .r1, .immediate 0⟩).text
        = (transfer ⟨.al, true, false, false, .r2, .r1, .immediate 0⟩).text
      ∧ (transfer ⟨.al, true, true, true, .r2, .r1, .immediate 0⟩).AlikeUpToFlags
        (.transfer ⟨.al, true, false, false, .r2, .r1, .immediate 0⟩) := by
  have hi : decode? 0xE5921000
      = some (.transfer ⟨.al, true, true, true, .r2, .r1, .immediate 0⟩) := by decide +kernel
  have hj : decode? 0xE4121000
      = some (.transfer ⟨.al, true, false, false, .r2, .r1, .immediate 0⟩) := by decide +kernel
  have htext : (transfer ⟨.al, true, true, true, .r2, .r1, .immediate 0⟩).text
      = (transfer ⟨.al, true, false, false, .r2, .r1, .immediate 0⟩).text := by decide +kernel
  refine ⟨hi, hj, htext, (text_faithful_iff hi hj htext).mpr ?_⟩
  simp [Clash, Transfer.Clash]

/-- The load of a register from where it points to, and the same with the base written behind it:
the second leaves the register as it was. And the halt, and a bitwise and that sets the flags. -/
theorem text_shared_by_clash :
    decode? 0xE5911000 = some (.transfer ⟨.al, true, true, true, .r1, .r1, .immediate 0⟩)
      ∧ decode? 0xE4911000 = some (.transfer ⟨.al, true, false, true, .r1, .r1, .immediate 0⟩)
      ∧ (transfer ⟨.al, true, true, true, .r1, .r1, .immediate 0⟩).text
        = (transfer ⟨.al, true, false, true, .r1, .r1, .immediate 0⟩).text
      ∧ ((probe .clear).execute
          (.transfer ⟨.al, true, true, true, .r1, .r1, .immediate 0⟩)).state.cpu.get .r1 = 1
      ∧ ((probe .clear).execute
          (.transfer ⟨.al, true, false, true, .r1, .r1, .immediate 0⟩)).state.cpu.get .r1 = 0
      ∧ decode? 0 = some halt
      ∧ decode? 0x00100000 = some (.dataProcessing { DataProcessing.zeroWord with setFlags := true })
      ∧ halt.text = (dataProcessing { DataProcessing.zeroWord with setFlags := true }).text
      ∧ ((probe .clear).execute halt).answer = .ok .halt
      ∧ ((probe .clear).execute
          (.dataProcessing { DataProcessing.zeroWord with setFlags := true })).answer
        = .ok .next := by
  have hpre := (Transfer.perform_probe (i := ⟨.al, true, true, true, .r1, .r1, .immediate 0⟩)
    rfl .clear).2 rfl
  have hpost := (Transfer.perform_probe (i := ⟨.al, true, false, true, .r1, .r1, .immediate 0⟩)
    rfl .clear).2 rfl
  refine ⟨by decide +kernel, by decide +kernel, by decide +kernel, ?_, ?_, by decide +kernel,
    by decide +kernel, rfl, rfl, rfl⟩
  · rw [Machine.execute_of_holds rfl, Machine.perform, hpre]
    rfl
  · rw [Machine.execute_of_holds rfl, Machine.perform, hpost]
    rfl

end Instruction

end Armlet
