import Armlet.Proofs.Execution
import Armlet.Proofs.LineTexts
import Armlet.Proofs.Listing

/-!
# The source machine

What a source text means, said without words, displacements and literal pools. The
source machine has the state of the real one. It looks up the line at its program
counter and does what the texts of the line say: a branch goes to the address of
its label, the loading of a constant puts the value in the register, and a line
without a mnemonic does nothing. Only for a line of any other kind does it ask
which instruction the line was encoded to, and executes that.

The second half of this file is about one line. The instruction a statement is
encoded to, executed at the address of its line, does what the statement says,
provided the bus holds the constants of the literal pool. Two computations go
into that, one for each kind of statement whose instruction depends on where it
stands: a branch takes back the distance that it is encoded with, and a constant
is either put back together from its byte or read from its slot.
-/

namespace Armlet

/-- Does what a line says, at the program counter. -/
def Statement.perform {β : Type} [Bus β] (m : Machine β) :
    Statement → Except Trap Flow × Machine β
  | .blank => (.ok .next, m.advance m.cpu.pc)
  | .instruction i => Machine.resume m.cpu.pc (m.execute i)
  | .branchTo cond target =>
    if cond.holds m.cpu.flags then (.ok .jump, { m with cpu := m.cpu.set .pc target })
    else (.ok .next, m.advance m.cpu.pc)
  | .loadConstant rd value =>
    let loaded := { m with cpu := m.cpu.set rd value }
    if rd = .pc then (.ok .jump, loaded) else (.ok .next, loaded.advance m.cpu.pc)

/-- A source text: what its labels stand for, its lines, and the instructions that the lines are
encoded to. -/
structure Source where
  labels : SymbolTable
  lines : List (List Token)
  instruction? : Nat → Option Instruction

namespace Source

/-- The source that a token stream holds. -/
def ofTokens (tokens : List Token) : Source where
  labels := (Layout.ofTokens tokens).labels
  lines := Token.lines tokens
  instruction? k := (Program.encodeLine tokens k).toOption

/-- The source that a text is. -/
def ofText (text : String) : Source := ofTokens (tokenize text)

/-- What the line at an address says. Between the lines and behind them there is nothing. -/
def statementAt? (src : Source) (pc : Word) : Option Statement :=
  if pc.toNat % 4 = 0 then
    src.lines[pc.toNat / 4]?.bind fun line =>
      Statement.said? src.labels (src.instruction? (pc.toNat / 4)) (Token.withoutLabels line)
  else none

variable {β : Type} [Bus β]

/-- A step of the source machine, which gets stuck where there is no line. -/
def step (src : Source) (m : Machine β) : Except Trap Flow × Machine β :=
  match src.statementAt? m.cpu.pc with
  | some s => s.perform m
  | none => (.error (.invalidInstruction m.cpu.pc 0), m)

/-- The source machine after a number of steps, whatever they answer. -/
def after (src : Source) (m : Machine β) : Nat → Machine β
  | 0 => m
  | n + 1 => src.after (src.step m).2 n

/-- The machine is at a line, and the line stores nothing in the image. -/
structure Undisturbed (src : Source) (image : List Byte) (m : Machine β) : Prop where
  at_line : ∃ k, k < src.lines.length ∧ m.cpu.pc = Listing.lineAddress k
  stores_behind : ∀ t, src.statementAt? m.cpu.pc = some (.instruction (.transfer t)) →
    m.Stores t → image.length ≤ (t.address m.cpu).toNat

theorem step_of_statement {src : Source} {m : Machine β} {s : Statement}
    (h : src.statementAt? m.cpu.pc = some s) : src.step m = s.perform m := by
  rw [step, h]

/-- An undisturbed step leaves the image where it is. -/
theorem holds_step {src : Source} {image : List Byte} {m : Machine Board}
    (h : m.bus.Holds image) (hm : src.Undisturbed image m) :
    (src.step m).2.bus.Holds image := by
  unfold step
  split
  · rename_i s hs
    cases s with
    | blank => exact h
    | instruction i =>
      rw [Statement.perform, Machine.bus_resume]
      refine Machine.holds_execute h i ?_
      rintro t rfl
      exact hm.stores_behind t hs
    | branchTo cond target =>
      rw [Statement.perform]
      split <;> exact h
    | loadConstant rd value =>
      rw [Statement.perform]
      split <;> exact h
  · exact h

end Source

/-! ## One line -/

/-- A byte that is not turned is its own value. -/
theorem SecondOperand.immediateValue_of_le {v : Word} (hv : v ≤ 0xFF) :
    immediateValue (v.setWidth 8) 0 = v := by
  have hrot : ∀ w : Word, w.rotateRight (2 * (0 : BitVec 8).toNat) = w := by
    intro w
    ext i hi
    simp [BitVec.getElem_rotateRight, hi]
  rw [immediateValue, hrot]
  apply BitVec.eq_of_toNat_eq
  have : v.toNat ≤ 255 := hv
  rw [BitVec.toNat_setWidth, BitVec.toNat_setWidth]
  omega

/-- Going back by the distance from an address to another leads there. -/
theorem Branch.sub_offset {pc offset target : Word}
    (h : offset.toInt = (pc.toNat : Int) - target.toNat) : pc - offset = target := by
  apply BitVec.eq_of_toNat_eq
  rw [BitVec.toNat_sub]
  rw [BitVec.toInt_eq_toNat_cond] at h
  split at h <;> omega

namespace Machine

variable {β : Type} [Bus β]

theorem resume_execute_nop (m : Machine β) (pc : Word) :
    resume pc (m.execute .nop) = (.ok .next, m.advance pc) := by
  have happly : (m.execute .nop).state = { m with cpu := m.cpu.set .r0 (m.cpu.get .r0) } := rfl
  have hanswer : (m.execute .nop).answer = .ok .next := rfl
  rw [resume, hanswer, happly, Processor.set_get]

/-- A branch takes back the distance it was encoded with. -/
theorem resume_execute_branch (m : Machine β) {cond : Condition} {offset target : Word}
    (h : offset.toInt = (m.cpu.pc.toNat : Int) - target.toNat) :
    resume m.cpu.pc (m.execute (.branch ⟨cond, offset⟩))
      = (Statement.branchTo cond target).perform m := by
  have hoffset : m.cpu.pc - offset = target := Branch.sub_offset h
  cases hcond : cond.holds m.cpu.flags with
  | true =>
    rw [execute_of_holds hcond, perform, Branch.apply, hoffset, Statement.perform, if_pos hcond]
    rfl
  | false =>
    rw [execute_of_not_holds hcond, Statement.perform, if_neg (by simp [hcond])]
    rfl

/-- An instruction that gives one register a value, and jumps if that is the program counter. -/
theorem resume_set (m : Machine β) (rd : Register) (v : Word) (events : List Event) :
    resume m.cpu.pc
        ⟨.ok (if rd = .pc then .jump else .next), { m with cpu := m.cpu.set rd v }, events⟩
      = (Statement.loadConstant rd v).perform m := by
  rw [resume, Statement.perform]
  split
  · rfl
  · rfl

/-- The move of a byte sets the register to it and leaves the flags alone. -/
theorem resume_execute_moveByte (m : Machine β) {rd : Register} {v : Word} (hv : v ≤ 0xFF) :
    resume m.cpu.pc (m.execute (Statement.moveByte rd v))
      = (Statement.loadConstant rd v).perform m := by
  have happly : m.execute (Statement.moveByte rd v)
      = ⟨.ok (if rd = .pc then .jump else .next),
        { m with cpu := m.cpu.set rd (SecondOperand.immediateValue (v.setWidth 8) 0) }, []⟩ := by
    rw [execute_of_holds rfl, Statement.moveByte, perform, DataProcessing.flow]
    simp only [Opcode.keepsResult, true_and]
    rfl
  rw [happly, SecondOperand.immediateValue_of_le hv, resume_set]

/-- A load from a slot of the pool sets the register to what the slot holds. -/
theorem resume_execute_loadSlot (m : Machine β) {rd : Register} {v : Word} {bytes : BitVec 16}
    (hread : Bus.read m.bus (m.cpu.pc + bytes.setWidth 32) = .ok v) :
    resume m.cpu.pc (m.execute
        (.transfer ⟨.al, true, true, true, .pc, rd, .immediate bytes⟩))
      = (Statement.loadConstant rd v).perform m := by
  have hperform : m.execute (.transfer ⟨.al, true, true, true, .pc, rd, .immediate bytes⟩)
      = ⟨.ok (if rd = .pc then .jump else .next), { m with cpu := m.cpu.set rd v }, []⟩ := by
    rw [execute_of_holds rfl, perform, perform_load rfl hread]
    simp [Transfer.flow, Transfer.finish]
  rw [hperform, resume_set]

end Machine

/--
**An encoded statement does what it says**, on a bus that holds the constants of
the pool behind the lines.
-/
theorem Statement.resume_execute_of_encode {β : Type} [Bus β] {m : Machine β} {s : Statement}
    {i : Instruction} {pool : LiteralPool} (haddr : m.cpu.pc.toNat ≤ pool.base.toNat)
    (hsize : pool.base.toNat + 4 * pool.words.length < 0x100000000)
    (h : (s.encode pool m.cpu.pc).1 = .ok i)
    (hslots : ∀ (j : Nat) (v addr : Word), (s.encode pool m.cpu.pc).2.words[j]? = some v →
      addr.toNat = pool.base.toNat + 4 * j → Bus.read m.bus addr = .ok v) :
    Machine.resume m.cpu.pc (m.execute i) = s.perform m := by
  cases s with
  | blank =>
    cases h
    exact m.resume_execute_nop m.cpu.pc
  | instruction i' =>
    cases h
    rfl
  | branchTo cond target =>
    obtain ⟨offset, rfl, hoffset, _, _⟩ := encodeBranch_eq_ok h
    exact m.resume_execute_branch hoffset
  | loadConstant rd v =>
    rcases encode_loadConstant_eq_ok haddr hsize h with
      ⟨hv, rfl⟩ | ⟨j, bytes, rfl, hj, hget, hslot, _⟩
    · exact m.resume_execute_moveByte hv
    · refine m.resume_execute_loadSlot (hslots j v _ hget ?_)
      -- the sum does not wrap round, because the slot lies within the address space
      rw [BitVec.toNat_add, BitVec.toNat_setWidth]
      omega

end Armlet
