import Armlet.Proofs.Computation
import Armlet.Proofs.ProgramCounter

/-!
# What a transfer does

A transfer reads its base, its displacement and the word to be stored before it writes
anything, so it makes no difference which registers are named twice. The access goes
to the displaced base, or to the base itself if the displacement comes afterwards.
Then there are at most two registers to be written: a load gives its destination the
loaded word, and a post-indexed transfer gives its base the displaced one. Where the
two are one register, the base wins.

`Transfer.valueAfter` says this for each register. Flags do not come into it,
whatever carry the shifter reports for a displacement. On the bus a load leaves no
trace, and a store changes what lies behind its address: a word of memory, or a
register of the pins. Of these the set and the clear register are two addresses of
one, the levels.
-/

namespace Armlet

/-! ## The reference -/

/-- The number of bytes that a displacement stands for, by the values of the registers. -/
def Displacement.delivers (values : Register → Word) : Displacement → Nat
  | immediate bytes => bytes.toNat
  | register operand => (operand.delivers values).value.toNat

namespace Transfer

variable (i : Transfer) (values : Register → Word)

/-- The base plus or minus the displacement, modulo 2^32. -/
def displacedBase : Word :=
  let base : Int := (values i.rn).toNat
  let bytes : Int := i.displacement.delivers values
  BitVec.ofInt 32 (if i.up then base + bytes else base - bytes)

/-- The address of the access. -/
def target : Word := if i.preIndex then i.displacedBase values else values i.rn

/-- The value of a register after an access that may have loaded a word. -/
def valueAfter (loaded : Option Word) (r : Register) : Word :=
  if i.preIndex = false ∧ r = i.rn then i.displacedBase values
  else if r = i.rd then loaded.getD (values r)
  else values r

end Transfer

/-- A word has been stored in memory, and no other byte has changed. -/
structure Ram.Stored (addr v : Word) (old new : Ram) : Prop where
  word : new.word addr.toNat = v
  elsewhere : ∀ j, j < addr.toNat ∨ addr.toNat + 4 ≤ j → new.byte j = old.byte j
  size : new.size = old.size

/-- A word has been stored to a register of the pins, and no other register has changed. -/
def PinRegister.Stored (v : Word) (old new : Pins) : PinRegister → Prop
  | functionSelect k => new.levels = old.levels
    ∧ ∀ j, new.functionSelect.get j = if j = k then v else old.functionSelect.get j
  | set => new.levels = old.levels ||| v ∧ new.functionSelect = old.functionSelect
  | clear => new.levels = old.levels &&& ~~~v ∧ new.functionSelect = old.functionSelect

/-- A word has been stored on a board: to the register that has this address, or else to memory. -/
structure Board.Stored (addr v : Word) (old new : Board) : Prop where
  register : ∀ r : PinRegister, r.address = addr → r.Stored v old.pins new.pins ∧ new.ram = old.ram
  memory : (∀ r : PinRegister, r.address ≠ addr) →
    Ram.Stored addr v old.ram new.ram ∧ new.pins = old.pins

/-- The outcome of a transfer on `m`, whatever the bus is. -/
structure Machine.Transfers {β : Type} [Bus β] (m : Machine β) (i : Transfer)
    (out : Outcome (Machine β) Flow) : Prop where
  load : ∀ v, i.load = true → Bus.read m.bus (i.target m.cpu.get) = .ok v →
    out.answer = .ok (if i.LoadsPc ∨ i.RebasesPc then .jump else .next)
      ∧ ∀ r, out.state.cpu.get r = i.valueAfter m.cpu.get (some v) r
  store : i.load = false →
    (Bus.write m.bus (i.target m.cpu.get) (m.cpu.get i.rd)).answer = .ok () →
    out.answer = .ok (if i.LoadsPc ∨ i.RebasesPc then .jump else .next)
      ∧ ∀ r, out.state.cpu.get r = i.valueAfter m.cpu.get none r
  load_refused : ∀ t, i.load = true → Bus.read m.bus (i.target m.cpu.get) = .error t →
    out.answer = .error t ∧ out.state.cpu = m.cpu
  store_refused : ∀ t, i.load = false →
    (Bus.write m.bus (i.target m.cpu.get) (m.cpu.get i.rd)).answer = .error t →
    out.answer = .error t ∧ out.state.cpu = m.cpu
  flags : out.state.cpu.flags = m.cpu.flags
  maxSteps : out.state.cpu.maxSteps = m.cpu.maxSteps
  /-- What is stored is the destination as it was, even if it is the base. -/
  bus : out.state.bus = if i.load then m.bus
    else (Bus.write m.bus (i.target m.cpu.get) (m.cpu.get i.rd)).state

/-- A transfer changes the bus only if it stores a word, and then as `Stored` says. -/
structure Machine.Confines {β : Type} [Bus β] (Stored : Word → Word → β → β → Prop)
    (m : Machine β) (i : Transfer) (out : Outcome (Machine β) Flow) : Prop where
  stored : i.load = false →
    (Bus.write m.bus (i.target m.cpu.get) (m.cpu.get i.rd)).answer = .ok () →
    Stored (i.target m.cpu.get) (m.cpu.get i.rd) m.bus out.state.bus
  loaded : i.load = true → out.state.bus = m.bus
  refused : ∀ t, out.answer = .error t → out.state.bus = m.bus

/-! ## The processor -/

namespace Transfer

variable (i : Transfer) (cpu : Processor)

theorem toNat_displacement (d : Displacement) :
    (cpu.displacement d).toNat = d.delivers cpu.get := by
  cases d with
  | immediate bytes =>
    have := bytes.isLt
    rw [Processor.displacement, BitVec.toNat_setWidth]
    exact Nat.mod_eq_of_lt (by omega)
  | register operand => rw [Processor.displacement, cpu.shifted_eq]; rfl

theorem displaced_eq : i.displaced cpu = i.displacedBase cpu.get := by
  have hword : ∀ w : Word, BitVec.ofInt 32 w.toNat = w := by
    intro w
    rw [BitVec.ofInt_natCast, BitVec.ofNat_toNat, BitVec.setWidth_eq]
  rw [displaced, displacedBase, ← toNat_displacement]
  split
  · rw [BitVec.ofInt_add, hword, hword]
  · rw [Int.sub_eq_add_neg, BitVec.ofInt_add, BitVec.ofInt_neg, hword, hword,
      BitVec.sub_eq_add_neg]

theorem address_eq : i.address cpu = i.target cpu.get := by
  rw [address, target, displaced_eq]

theorem get_finish (loaded : Option Word) (r : Register) :
    (i.finish cpu loaded).get r = i.valueAfter cpu.get loaded r := by
  have hloaded : (loaded.elim cpu (cpu.set i.rd)).get r
      = if r = i.rd then loaded.getD (cpu.get r) else cpu.get r := by
    cases loaded with
    | none => exact (ite_self _).symm
    | some v => exact cpu.get_set i.rd r v
  have hfinish : i.finish cpu loaded = if i.preIndex then loaded.elim cpu (cpu.set i.rd)
      else (loaded.elim cpu (cpu.set i.rd)).set i.rn (i.displacedBase cpu.get) := by
    simp only [finish, displaced_eq]
    cases loaded <;> rfl
  rw [hfinish, valueAfter, ← hloaded]
  cases i.preIndex with
  | true => rfl
  | false =>
    rw [if_neg Bool.false_ne_true, Processor.get_set]
    simp only [true_and]

theorem flags_finish (loaded : Option Word) : (i.finish cpu loaded).flags = cpu.flags := by
  unfold finish
  cases loaded <;> cases i.preIndex <;> rfl

theorem maxSteps_finish (loaded : Option Word) :
    (i.finish cpu loaded).maxSteps = cpu.maxSteps := by
  unfold finish
  cases loaded <;> cases i.preIndex <;> rfl

end Transfer

/-! ## The bus -/

theorem Ram.stored_write (ram : Ram) {addr : Word} (v : Word)
    (h : (ram.write addr v).answer = .ok ()) : Stored addr v ram (ram.write addr v).state := by
  cases hf : ram.fault? addr with
  | some t =>
    rw [ram.write_of_fault v hf] at h
    cases h
  | none =>
    rw [ram.write_of_no_fault v hf]
    exact {
      word := ram.word_putWord_self v (ram.fault?_eq_none_iff.mp hf).2
      elsewhere := fun _ hj => ram.byte_putWord_of_outside v hj
      size := ram.size_putWord _ v }

theorem PinRegister.stored_write (pins : Pins) (r : PinRegister) (v : Word) :
    r.Stored v pins (pins.write r v).state := by
  cases r with
  | functionSelect k =>
    refine ⟨rfl, fun j => ?_⟩
    change (pins.functionSelect.set k v)[j] = _
    split
    · rename_i heq
      rw [heq]
      exact Vector.getElem_set_self _
    · rename_i hne
      exact Vector.getElem_set_ne k.isLt j.isLt fun heq => hne (Fin.ext heq.symm)
  | set => exact ⟨rfl, rfl⟩
  | clear => exact ⟨rfl, rfl⟩

theorem Board.stored_write (board : Board) {addr : Word} (v : Word)
    (h : (board.write addr v).answer = .ok ()) :
    Stored addr v board (board.write addr v).state := by
  rcases PinRegister.address_cases addr with ⟨r, rfl⟩ | hpin
  · rw [board.write_of_register v (PinRegister.ofAddress?_address r)]
    refine ⟨fun r' hr' => ?_, fun hpin => absurd rfl (hpin r)⟩
    rw [PinRegister.address_eq_iff.mp hr']
    exact ⟨r.stored_write board.pins v, rfl⟩
  · have hwrite := board.write_of_memory v (PinRegister.ofAddress?_eq_none_iff.mpr hpin)
    rw [hwrite] at h ⊢
    exact ⟨fun r hr => absurd hr (hpin r), fun _ => ⟨board.ram.stored_write v h, rfl⟩⟩

/-! ## The transfer -/

namespace Machine

section

variable {β : Type} [Bus β] {m : Machine β} {i : Transfer}

theorem execute_transfer (hcond : i.cond.holds m.cpu.flags = true) :
    m.execute (.transfer i) = i.perform m := execute_of_holds hcond

variable (m i)

/-- The processor has been left alone, or the transfer has been finished. -/
theorem cpu_perform_cases : (i.perform m).state.cpu = m.cpu
    ∨ ∃ loaded, (i.perform m).state.cpu = i.finish m.cpu loaded := by
  rcases m.perform_transfer_cases i with ⟨_, v, _, h⟩ | ⟨_, t, _, h⟩ | ⟨_, _, h⟩ | ⟨_, t, _, h⟩
  · exact .inr ⟨some v, by rw [h]⟩
  · exact .inl (by rw [h])
  · exact .inr ⟨none, by rw [h]⟩
  · exact .inl (by rw [h])

theorem transfers_perform : m.Transfers i (i.perform m) where
  load := by
    intro v hload hread
    rw [← i.address_eq] at hread
    rw [perform_load hload hread]
    exact ⟨congrArg Except.ok i.flow_eq, i.get_finish m.cpu (some v)⟩
  store := by
    intro hstore hwrite
    rw [← i.address_eq] at hwrite
    rw [perform_store hstore hwrite]
    exact ⟨congrArg Except.ok i.flow_eq, i.get_finish m.cpu none⟩
  load_refused := by
    intro t hload hread
    rw [← i.address_eq] at hread
    rw [perform_load_refused hload hread]
    exact ⟨rfl, rfl⟩
  store_refused := by
    intro t hstore hwrite
    rw [← i.address_eq] at hwrite
    rw [perform_store_refused hstore hwrite]
    exact ⟨rfl, rfl⟩
  flags := by
    rcases m.cpu_perform_cases i with hcpu | ⟨loaded, hcpu⟩
    · rw [hcpu]
    · rw [hcpu, i.flags_finish]
  maxSteps := by
    rcases m.cpu_perform_cases i with hcpu | ⟨loaded, hcpu⟩
    · rw [hcpu]
    · rw [hcpu, i.maxSteps_finish]
  bus := by
    rw [← i.address_eq]
    exact m.bus_perform_transfer i

variable {m i}

/-- `Stored` is what a store does to the bus, so it is all that a transfer does to it. -/
theorem confines_perform [LawfulBus β] {Stored : Word → Word → β → β → Prop}
    (hstored : ∀ (bus : β) (addr v : Word), (Bus.write bus addr v).answer = .ok () →
      Stored addr v bus (Bus.write bus addr v).state) : m.Confines Stored i (i.perform m) where
  stored := by
    intro hstore hwrite
    rw [(m.transfers_perform i).bus, if_neg (Bool.eq_false_iff.mp hstore)]
    exact hstored _ _ _ hwrite
  loaded := by
    intro hload
    rw [(m.transfers_perform i).bus, if_pos hload]
  refused := by
    intro t ht
    rw [i.state_of_perform_error m t ht]

end

/--
**What a transfer does**, if its condition holds.

Which registers it names twice does not matter. Memory or the pins change only in what
is stored to, and nothing changes at all if the access is refused.
-/
theorem transfers_execute :
    (∀ (β : Type) [Bus β] (m : Machine β) (i : Transfer), i.cond.holds m.cpu.flags = true →
      m.Transfers i (m.execute (.transfer i)))
    ∧ (∀ (m : Machine Ram) (i : Transfer), i.cond.holds m.cpu.flags = true →
      m.Confines Ram.Stored i (m.execute (.transfer i)))
    ∧ (∀ (m : Machine Board) (i : Transfer), i.cond.holds m.cpu.flags = true →
      m.Confines Board.Stored i (m.execute (.transfer i))) := by
  refine ⟨fun β _ m i hcond => ?_, fun m i hcond => ?_, fun m i hcond => ?_⟩
  · rw [execute_transfer hcond]
    exact m.transfers_perform i
  · rw [execute_transfer hcond]
    exact confines_perform fun ram _ v => ram.stored_write v
  · rw [execute_transfer hcond]
    exact confines_perform fun board _ v => board.stored_write v

/-- `r1` is the address of the set register. -/
def switching : Machine Board := ⟨(Processor.initial none).set .r1 0x2020001C, .zeroed 4, .initial⟩

/-- `str r1, [r1], -r1, lsl #1`. -/
def switchingStore : Transfer :=
  ⟨.al, false, false, false, .r1, .r1, .register ⟨.r1, .amount .lsl 1⟩⟩

/-- The address itself names the pins that go on, and it is gone from `r1` afterwards. -/
theorem transfers_execute_switching : switchingStore.cond.holds switching.cpu.flags = true
    ∧ (switching.execute (.transfer switchingStore)).state.cpu.get .r1 = 0xDFDFFFE4
    ∧ (switching.execute (.transfer switchingStore)).state.bus.pins.levels = 0x2020001C :=
  ⟨rfl, ((transfers_execute.1 Board switching switchingStore rfl).store rfl rfl).2 .r1,
    (((transfers_execute.2.2 switching switchingStore rfl).stored rfl rfl).register .set rfl).1.1⟩

end Machine

end Armlet
