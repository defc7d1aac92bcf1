import Armlet.Proofs.ShiftArithmetic

/-!
# Computing in integers

What data processing and multiplication leave behind, said without words that wrap
around. The operands are the values that the registers have before the instruction,
the program counter among them, so it does not matter which registers are named
twice; an operand that is shifted is shifted as a number. The result is a number, and
its remainder modulo 2^32 goes to the destination. If the instruction sets the flags,
then N and Z describe this remainder. C and V are a matter of the operation:

* a sum carries if it has no room in a word, a difference if it is not negative, and
  both overflow if they leave the signed range when the operands are read as signed;
* a logical operation takes its carry from the shifter, if that reports one, and keeps
  the overflow flag;
* a multiplication keeps both.

`Computation` is such an outcome. It is made from register values and flags alone,
and `Machine.Computes` says that an instruction did this and nothing besides.
-/

namespace Armlet

/-! ## The reference -/

/-- What an instruction computes. -/
structure Computation where
  /-- The result, before it is cut down to a word. -/
  result : Int
  /-- The register that gets the result, if there is one. -/
  destination : Option Register
  flags : Flags

/-- What a shift delivers: a number, cut down to a word, and the last digit that it pushes out. -/
def ShiftType.delivers (kind : ShiftType) (x : Word) (n : Nat) : ShifterOutput :=
  if n = 0 then ⟨x, none⟩
  else ⟨BitVec.ofInt 32 (kind.number x n), some (decide (kind.pushedOut x n % 2 = 1))⟩

/-- What the shifter delivers as a register operand, by the values of the registers. -/
def RegisterOperand.delivers (values : Register → Word) (operand : RegisterOperand) :
    ShifterOutput :=
  match operand.shift with
  | .amount kind amount => kind.delivers (values operand.rm) amount.toNat
  | .register kind rs => kind.delivers (values operand.rm) ((values rs).toNat % 0x100)

/-- What is delivered as a second operand. An immediate is turned, but comes without a carry. -/
def SecondOperand.delivers (values : Register → Word) : SecondOperand → ShifterOutput
  | immediate imm rotate =>
    ⟨BitVec.ofInt 32 (ShiftType.ror.number (imm.setWidth 32) (2 * rotate.toNat)), none⟩
  | register operand => operand.delivers values

/-- The flags N and Z of a number that is cut down to a word. -/
def Flags.describe (f : Flags) (result : Int) : Flags :=
  { f with
    negative := decide (0x80000000 ≤ result % 0x100000000)
    zero := decide (result % 0x100000000 = 0) }

instance : DecidablePred LeavesRange := fun _ => inferInstanceAs (Decidable (_ ∨ _))

namespace Opcode

/-- What an operation makes of two numbers. -/
def compute (op : Opcode) (a b : Nat) : Int :=
  match op with
  | and | tst => (a &&& b : Nat)
  | eor | teq => (a ^^^ b : Nat)
  | orr => (a ||| b : Nat)
  | mov => b
  | add => a + b
  | sub | cmp => a - b
  | rsb => b - a

/-- The flag C after an operation. -/
def carryAfter (op : Opcode) (f : Flags) (a : Word) (b : ShifterOutput) : Bool :=
  match op with
  | add => decide (0x100000000 ≤ a.toNat + b.value.toNat)
  | sub | cmp => decide (b.value.toNat ≤ a.toNat)
  | rsb => decide (a.toNat ≤ b.value.toNat)
  | and | tst | eor | teq | orr | mov => b.carry.getD f.carry

/-- The flag V after an operation. -/
def overflowAfter (op : Opcode) (f : Flags) (a : Word) (b : ShifterOutput) : Bool :=
  match op with
  | add => decide (LeavesRange (a.toInt + b.value.toInt))
  | sub | cmp => decide (LeavesRange (a.toInt - b.value.toInt))
  | rsb => decide (LeavesRange (b.value.toInt - a.toInt))
  | and | tst | eor | teq | orr | mov => f.overflow

end Opcode

namespace DataProcessing

/-- Comparisons and tests keep no result. -/
def destination? (i : DataProcessing) : Option Register :=
  match i.opcode with
  | .tst | .teq | .cmp => none
  | .and | .eor | .sub | .rsb | .add | .orr | .mov => some i.rd

/-- Data processing, from register values and flags. -/
def computation (i : DataProcessing) (values : Register → Word) (f : Flags) : Computation :=
  let a := values i.rn
  let b := i.operand.delivers values
  let result := i.opcode.compute a.toNat b.value.toNat
  let flags : Flags :=
    { f with carry := i.opcode.carryAfter f a b, overflow := i.opcode.overflowAfter f a b }
  { result
    destination := i.destination?
    flags := if i.setFlags then flags.describe result else f }

end DataProcessing

/-- Multiplication, from register values and flags. -/
def Multiply.computation (i : Multiply) (values : Register → Word) (f : Flags) : Computation :=
  let product : Int := (values i.rm).toNat * (values i.rs).toNat
  let result := if i.accumulate then product + (values i.rn).toNat else product
  { result
    destination := some i.rd
    flags := if i.setFlags then f.describe result else f }

/-- The outcome of an instruction on `m` is the computation `c`, and nothing else has happened. -/
structure Machine.Computes {β : Type} (m : Machine β) (c : Computation)
    (out : Outcome (Machine β) Flow) : Prop where
  /-- There is no trap, and a jump iff the program counter has been written. -/
  answer : out.answer = .ok (if c.destination = some .pc then .jump else .next)
  written : ∀ r, c.destination = some r →
    ((out.state.cpu.get r).toNat : Int) = c.result % 0x100000000
  kept : ∀ r, c.destination ≠ some r → out.state.cpu.get r = m.cpu.get r
  flags : out.state.cpu.flags = c.flags
  maxSteps : out.state.cpu.maxSteps = m.cpu.maxSteps
  bus : out.state.bus = m.bus
  events : out.events = []

/-! ## Operands -/

namespace ShiftType

variable (kind : ShiftType) (x : Word) (n : Nat)

theorem shiftValue_eq_ofInt : kind.shiftValue x n = BitVec.ofInt 32 (kind.number x n) := by
  have hnumber := kind.toNat_shiftValue x n
  apply BitVec.eq_of_toNat_eq
  rw [BitVec.toNat_ofInt]
  omega

theorem shift_eq_delivers : kind.shift x n = kind.delivers x n := by
  unfold shift delivers
  split
  · rfl
  · rename_i hn
    have hcarry : kind.shiftCarry x n = decide (kind.pushedOut x n % 2 = 1) := by
      rw [Bool.eq_iff_iff, decide_eq_true_eq]
      exact kind.shiftCarry_iff x (Nat.pos_of_ne_zero hn)
    rw [kind.shiftValue_eq_ofInt, hcarry]

end ShiftType

namespace Processor

variable (cpu : Processor)

theorem shifted_eq (operand : RegisterOperand) :
    cpu.shifted operand = operand.delivers cpu.get := by
  obtain ⟨rm, shift⟩ := operand
  cases shift with
  | amount kind amount => exact kind.shift_eq_delivers (cpu.get rm) amount.toNat
  | register kind rs =>
    have hlow : ((cpu.get rs).setWidth 8).toNat = (cpu.get rs).toNat % 0x100 :=
      BitVec.toNat_setWidth _ _
    rw [shifted, RegisterOperand.delivers]
    dsimp only
    rw [hlow, kind.shift_eq_delivers]

theorem secondOperand_eq (operand : SecondOperand) :
    cpu.secondOperand operand = operand.delivers cpu.get := by
  cases operand with
  | immediate imm rotate =>
    have hturned := ShiftType.ror.shiftValue_eq_ofInt (imm.setWidth 32) (2 * rotate.toNat)
    exact congrArg (ShifterOutput.mk · none) hturned
  | register operand => exact cpu.shifted_eq operand

theorem get_set (r s : Register) (v : Word) :
    (cpu.set r v).get s = if s = r then v else cpu.get s := by
  split
  · rename_i h
    rw [h, get_set_self]
  · rename_i h
    exact cpu.get_set_of_ne v h

end Processor

/-! ## The arithmetic unit -/

/-- The result of an operation is the number modulo 2^32. -/
theorem Opcode.toNat_apply (op : Opcode) (a : Word) (b : ShifterOutput) :
    ((op.apply a b).value.toNat : Int) = op.compute a.toNat b.value.toNat % 0x100000000 := by
  -- a result that is a word already is not changed by the remainder
  have hword : ∀ w : Word, (w.toNat : Int) = (w.toNat : Int) % 0x100000000 := by
    intro w
    have := w.isLt
    omega
  cases op with
  | and | tst => exact (hword _).trans (by rw [apply, compute, BitVec.toNat_and])
  | eor | teq => exact (hword _).trans (by rw [apply, compute, BitVec.toNat_xor])
  | orr => exact (hword _).trans (by rw [apply, compute, BitVec.toNat_or])
  | mov => exact hword _
  | add =>
    rw [apply, AluResult.sum, compute, BitVec.toNat_add]
    omega
  | sub | cmp => exact Word.toNat_sub_eq_emod a b.value
  | rsb => exact Word.toNat_sub_eq_emod b.value a

/-! ## The flags -/

/-- Flags that come from a word, by the number that it is the remainder of. -/
theorem Flags.update_eq_describe (f : Flags) {v : Word} {result : Int}
    (hv : (v.toNat : Int) = result % 0x100000000) (carry overflow : Option Bool) :
    f.update v carry overflow
      = ({ f with carry := carry.getD f.carry, overflow := overflow.getD f.overflow } :
        Flags).describe result := by
  have hnegative : v.msb = decide (0x80000000 ≤ result % 0x100000000) := by
    rw [Bool.eq_iff_iff, Word.msb_iff, decide_eq_true_eq]
    omega
  have hzero : (v == 0) = decide (result % 0x100000000 = 0) := by
    rw [Bool.eq_iff_iff, beq_iff_eq, decide_eq_true_eq, BitVec.toNat_eq,
      show (0 : Word).toNat = 0 from rfl]
    omega
  rw [update, describe, hnegative, hzero]

namespace Opcode

variable (op : Opcode) (f : Flags) (a : Word) (b : ShifterOutput)

theorem getD_carry_apply : (op.apply a b).carry.getD f.carry = op.carryAfter f a b := by
  cases op with
  | add =>
    rw [Bool.eq_iff_iff, carryAfter, decide_eq_true_eq]
    exact (f.ofSum_update a b.value).carry
  | sub | cmp =>
    rw [Bool.eq_iff_iff, carryAfter, decide_eq_true_eq]
    exact (f.ofDifference_update a b.value).carry
  | rsb =>
    rw [Bool.eq_iff_iff, carryAfter, decide_eq_true_eq]
    exact (f.ofDifference_update b.value a).carry
  | and | tst | eor | teq | orr | mov => rfl

theorem getD_overflow_apply : (op.apply a b).overflow.getD f.overflow = op.overflowAfter f a b := by
  cases op with
  | add =>
    rw [Bool.eq_iff_iff, overflowAfter, decide_eq_true_eq]
    exact (f.ofSum_update a b.value).overflow
  | sub | cmp =>
    rw [Bool.eq_iff_iff, overflowAfter, decide_eq_true_eq]
    exact (f.ofDifference_update a b.value).overflow
  | rsb =>
    rw [Bool.eq_iff_iff, overflowAfter, decide_eq_true_eq]
    exact (f.ofDifference_update b.value a).overflow
  | and | tst | eor | teq | orr | mov => rfl

end Opcode

/-! ## The processor afterwards -/

/-- The processor with new flags, and with a new value in a register if one is named. -/
def Processor.conclude (cpu : Processor) (f : Flags) (destination : Option Register) (v : Word) :
    Processor :=
  destination.elim { cpu with flags := f } fun r => ({ cpu with flags := f } : Processor).set r v

theorem DataProcessing.apply_eq (i : DataProcessing) (cpu : Processor) :
    i.apply cpu = cpu.conclude (i.computation cpu.get cpu.flags).flags i.destination?
      (i.result cpu).value := by
  have hflags : (i.computation cpu.get cpu.flags).flags = if i.setFlags then
      cpu.flags.update (i.result cpu).value (i.result cpu).carry (i.result cpu).overflow
      else cpu.flags := by
    have hresult : i.result cpu
        = i.opcode.apply (cpu.get i.rn) (i.operand.delivers cpu.get) := by
      rw [result, cpu.secondOperand_eq]
    rw [computation, hresult, Flags.update_eq_describe cpu.flags (i.opcode.toNat_apply _ _),
      Opcode.getD_carry_apply, Opcode.getD_overflow_apply]
  rw [hflags, apply, destination?]
  obtain ⟨cond, opcode, setFlags, rn, rd, operand⟩ := i
  cases setFlags <;> cases opcode <;> rfl

theorem Multiply.toNat_result (i : Multiply) (cpu : Processor) :
    ((i.result cpu).toNat : Int) = (i.computation cpu.get cpu.flags).result % 0x100000000 := by
  have hproduct : ((cpu.get i.rm * cpu.get i.rs).toNat : Int)
      = ((cpu.get i.rm).toNat * (cpu.get i.rs).toNat : Int) % 0x100000000 := by
    rw [BitVec.toNat_mul, ← Int.natCast_mul]
    omega
  rw [result, computation]
  dsimp only
  split
  · -- the product may be cut down before the summand is added, or afterwards
    rw [BitVec.toNat_add]
    omega
  · exact hproduct

theorem Multiply.apply_eq (i : Multiply) (cpu : Processor) :
    i.apply cpu = cpu.conclude (i.computation cpu.get cpu.flags).flags (some i.rd)
      (i.result cpu) := by
  have hflags : (i.computation cpu.get cpu.flags).flags
      = if i.setFlags then cpu.flags.update (i.result cpu) none none else cpu.flags := by
    rw [Flags.update_eq_describe cpu.flags (i.toNat_result cpu)]
    rfl
  rw [hflags, apply]
  cases i.setFlags <;> rfl

theorem DataProcessing.flow_eq (i : DataProcessing) :
    i.flow = if i.destination? = some .pc then .jump else .next := by
  obtain ⟨cond, opcode, setFlags, rn, rd, operand⟩ := i
  cases opcode <;> simp [flow, destination?, Opcode.keepsResult]

theorem Multiply.flow_eq (i : Multiply) :
    i.flow = if some i.rd = some .pc then .jump else .next := by
  simp [flow]

namespace Machine

variable {β : Type}

/-- Nothing but the flags and the destination changes. -/
theorem computes_conclude (m : Machine β) (c : Computation) {v : Word}
    (hv : (v.toNat : Int) = c.result % 0x100000000) :
    m.Computes c ⟨.ok (if c.destination = some .pc then .jump else .next),
      { m with cpu := m.cpu.conclude c.flags c.destination v }, []⟩ := by
  obtain ⟨result, destination, flags⟩ := c
  cases destination with
  | none => exact ⟨rfl, nofun, fun r _ => rfl, rfl, rfl, rfl, rfl⟩
  | some rd =>
    refine ⟨rfl, ?_, ?_, rfl, rfl, rfl, rfl⟩
    · rintro r ⟨⟩
      rw [← hv]
      exact congrArg (fun w : Word => (w.toNat : Int)) (Processor.get_set_self _ rd v)
    · intro r hr
      exact Processor.get_set_of_ne _ v fun h => hr (congrArg some h.symm)

variable [Bus β]

/--
**Data processing and multiplication compute what integers compute.**

An instruction whose condition holds does not trap. Its result and its flags are those
of the integer reference on the register values and flags before it; the result is
in the destination, if there is one, and no other register has changed, nor has
anything on the bus. It is a jump iff the destination is the program counter.
-/
theorem computes_execute (m : Machine β) :
    (∀ i : DataProcessing, i.cond.holds m.cpu.flags = true →
      m.Computes (i.computation m.cpu.get m.cpu.flags) (m.execute (.dataProcessing i)))
    ∧ (∀ i : Multiply, i.cond.holds m.cpu.flags = true →
      m.Computes (i.computation m.cpu.get m.cpu.flags) (m.execute (.multiply i))) := by
  constructor
  · intro i hcond
    have hexecute : m.execute (.dataProcessing i) = m.perform (.dataProcessing i) :=
      execute_of_holds hcond
    have hresult : ((i.result m.cpu).value.toNat : Int)
        = (i.computation m.cpu.get m.cpu.flags).result % 0x100000000 := by
      rw [DataProcessing.result, m.cpu.secondOperand_eq]
      exact i.opcode.toNat_apply _ _
    rw [hexecute, perform, i.flow_eq, i.apply_eq]
    exact m.computes_conclude _ hresult
  · intro i hcond
    have hexecute : m.execute (.multiply i) = m.perform (.multiply i) := execute_of_holds hcond
    rw [hexecute, perform, i.flow_eq, i.apply_eq]
    exact m.computes_conclude _ (i.toNat_result m.cpu)

/-- `r1` is the value, the amount and the destination at once, and the overflow flag is up. -/
def entangled : Machine Ram :=
  ⟨{ Processor.initial none with flags := ⟨false, false, false, true⟩ }.set .r1 0x80000021,
    .zeroed 0⟩

/-- `adds r1, r1, r1, ror r1`, or another operation in place of the sum. -/
def entangling (opcode : Opcode) : DataProcessing :=
  ⟨.al, opcode, true, .r1, .r1, .register ⟨.r1, .register .ror .r1⟩⟩

/-- `muls r1, r1, r1`. -/
def entangledSquare : Multiply := ⟨.al, false, true, .r1, .r0, .r1, .r1⟩

/-- The bottom byte is 33, so the operand is turned by one place and pushes a digit out. The sum
carries and overflows by itself, the exclusive or takes that digit for its carry, and the square
keeps both flags. -/
theorem computes_execute_entangled :
    (∀ opcode, (entangling opcode).cond.holds entangled.cpu.flags = true)
      ∧ entangledSquare.cond.holds entangled.cpu.flags = true
      ∧ (RegisterOperand.mk .r1 (.register .ror .r1)).delivers entangled.cpu.get
        = ⟨0xC0000010, some true⟩
      ∧ entangled.Computes ⟨0x140000031, some .r1, ⟨false, false, true, true⟩⟩
        (entangled.execute (.dataProcessing (entangling .add)))
      ∧ entangled.Computes ⟨0x40000031, some .r1, ⟨false, false, true, true⟩⟩
        (entangled.execute (.dataProcessing (entangling .eor)))
      ∧ entangled.Computes ⟨0x4000002100000441, some .r1, ⟨false, false, false, true⟩⟩
        (entangled.execute (.multiply entangledSquare)) :=
  ⟨fun _ => rfl, rfl, by decide, entangled.computes_execute.1 (entangling .add) rfl,
    entangled.computes_execute.1 (entangling .eor) rfl,
    entangled.computes_execute.2 entangledSquare rfl⟩

end Machine

end Armlet
