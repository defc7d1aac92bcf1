import Armlet.Arithmetic
import Armlet.Machine.Bus
import Armlet.Machine.Processor

/-!
# Executing one instruction

Every instruction reads its operands from the state before it, so it makes no
difference which registers it names twice. If its condition does not hold it does
nothing at all.

An instruction that writes the program counter has jumped; after any other one
the machine goes on to the next word.
-/

namespace Armlet

/-- What comes after an instruction. -/
inductive Flow where
  /-- The word that follows in memory. -/
  | next
  /-- The program counter has been moved already. -/
  | jump
  | halt
  deriving DecidableEq, Repr

/-- A processor on a bus. -/
structure Machine (β : Type) where
  cpu : Processor
  bus : β

/-! ## Operands -/

namespace Processor

/-- A register operand after the shifter. -/
def shifted (cpu : Processor) (operand : RegisterOperand) : ShifterOutput :=
  match operand.shift with
  | .amount kind amount => kind.shift (cpu.get operand.rm) amount.toNat
  | .register kind rs => kind.shift (cpu.get operand.rm) ((cpu.get rs).setWidth 8).toNat

/-- A second operand. An immediate reports no carry. -/
def secondOperand (cpu : Processor) : SecondOperand → ShifterOutput
  | .immediate imm rotate => ⟨SecondOperand.immediateValue imm rotate, none⟩
  | .register operand => cpu.shifted operand

/-- The number of bytes a transfer is displaced by. -/
def displacement (cpu : Processor) : Displacement → Word
  | .immediate bytes => bytes.setWidth 32
  | .register operand => (cpu.shifted operand).value

end Processor

/-! ## Instructions that stay in the processor -/

namespace DataProcessing

/-- What the arithmetic unit makes of the operands. -/
def result (i : DataProcessing) (cpu : Processor) : AluResult :=
  i.opcode.apply (cpu.get i.rn) (cpu.secondOperand i.operand)

/-- The processor after the instruction: the flags if asked for, then the destination. -/
def apply (i : DataProcessing) (cpu : Processor) : Processor :=
  let result := i.result cpu
  let cpu := if i.setFlags then cpu.updateFlags result.value result.carry result.overflow else cpu
  if i.opcode.keepsResult then cpu.set i.rd result.value else cpu

/-- The instruction jumps if it writes its result to the program counter. -/
def flow (i : DataProcessing) : Flow :=
  if i.opcode.keepsResult ∧ i.rd = .pc then .jump else .next

end DataProcessing

namespace Multiply

/-- The product, with `rn` added to it if the instruction accumulates. -/
def result (i : Multiply) (cpu : Processor) : Word :=
  let product := cpu.get i.rm * cpu.get i.rs
  if i.accumulate then product + cpu.get i.rn else product

/-- The processor after the instruction. Carry and overflow keep their values. -/
def apply (i : Multiply) (cpu : Processor) : Processor :=
  let result := i.result cpu
  let cpu := if i.setFlags then cpu.updateFlags result none none else cpu
  cpu.set i.rd result

/-- A multiplication jumps if its destination is the program counter. -/
def flow (i : Multiply) : Flow := if i.rd = .pc then .jump else .next

end Multiply

/-- The processor after a branch. -/
def Branch.apply (i : Branch) (cpu : Processor) : Processor := cpu.set .pc (cpu.pc - i.offset)

/-! ## Transfers -/

namespace Transfer

/-- The base, displaced. -/
def displaced (i : Transfer) (cpu : Processor) : Word :=
  if i.up then cpu.get i.rn + cpu.displacement i.displacement
  else cpu.get i.rn - cpu.displacement i.displacement

/-- The address a transfer accesses. -/
def address (i : Transfer) (cpu : Processor) : Word :=
  if i.preIndex then i.displaced cpu else cpu.get i.rn

/-- The processor after the access. A post-indexed base comes last: it wins over a loaded word. -/
def finish (i : Transfer) (cpu : Processor) (loaded : Option Word) : Processor :=
  let displaced := i.displaced cpu
  let cpu := match loaded with
    | some value => cpu.set i.rd value
    | none => cpu
  if i.preIndex then cpu else cpu.set i.rn displaced

/-- A transfer jumps if it loads the program counter or leaves a new base in it. -/
def flow (i : Transfer) : Flow :=
  if (i.load ∧ i.rd = .pc) ∨ (¬ i.preIndex ∧ i.rn = .pc) then .jump else .next

/-- Executes a transfer. No register is written unless the access succeeds. -/
def perform {β : Type} [Bus β] (i : Transfer) (m : Machine β) : Outcome (Machine β) Flow :=
  let ⟨cpu, bus⟩ := m
  if i.load then
    match Bus.read bus (i.address cpu) with
    | .error trap => ⟨.error trap, ⟨cpu, bus⟩, []⟩
    | .ok value => ⟨.ok i.flow, ⟨i.finish cpu (some value), bus⟩, []⟩
  else
    let out := Bus.write bus (i.address cpu) (cpu.get i.rd)
    match out.answer with
    | .error trap => ⟨.error trap, ⟨cpu, out.state⟩, out.events⟩
    | .ok () => ⟨.ok i.flow, ⟨i.finish cpu none, out.state⟩, out.events⟩

end Transfer

/-! ## All instructions -/

namespace Machine

variable {β : Type} [Bus β]

/-- Executes an instruction whose condition holds. -/
def perform (m : Machine β) : Instruction → Outcome (Machine β) Flow
  | .dataProcessing i => ⟨.ok i.flow, { m with cpu := i.apply m.cpu }, []⟩
  | .multiply i => ⟨.ok i.flow, { m with cpu := i.apply m.cpu }, []⟩
  | .transfer i => i.perform m
  | .branch i => ⟨.ok .jump, { m with cpu := i.apply m.cpu }, []⟩
  | .halt => ⟨.ok .halt, m, []⟩

/-- Executes an instruction if its condition holds. -/
def execute (m : Machine β) (i : Instruction) : Outcome (Machine β) Flow :=
  if i.condition.holds m.cpu.flags then m.perform i
  else ⟨.ok .next, m, [.conditionFailed i.condition m.cpu.pc]⟩

end Machine

end Armlet
