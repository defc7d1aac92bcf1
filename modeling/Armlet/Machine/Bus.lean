import Armlet.Machine.Pins
import Armlet.Machine.Ram

/-!
# The bus

What a processor is connected to: anything that words can be read from and
written to. Plain memory is a bus. So is a board, which has the output pins mapped
above its memory: an access to a register of the pins never reaches the memory.
-/

namespace Armlet

/-- Something that holds words at addresses. Reading leaves it as it is. -/
class Bus (β : Type) where
  read (bus : β) (addr : Word) : Except Trap Word
  write (bus : β) (addr value : Word) : Outcome β Unit

instance : Bus Ram where
  read := Ram.read
  write := Ram.write

/-- Memory and output pins on one bus. -/
structure Board where
  ram : Ram
  pins : Pins
  deriving DecidableEq, Repr

namespace Board

/-- How much memory a board has. -/
def ramSize : Nat := 65536

/-- A board with its memory and its pins zero. -/
def initial : Board := ⟨.zeroed ramSize, .initial⟩

/-- A register of the pins if one has this address, and memory otherwise. -/
def read (board : Board) (addr : Word) : Except Trap Word :=
  match PinRegister.ofAddress? addr with
  | some register => .ok (board.pins.read register)
  | none => board.ram.read addr

/-- Stores to a register of the pins if one has this address, and to memory otherwise. -/
def write (board : Board) (addr value : Word) : Outcome Board Unit :=
  let ⟨ram, pins⟩ := board
  match PinRegister.ofAddress? addr with
  | some register =>
    let out := pins.write register value
    ⟨out.answer, ⟨ram, out.state⟩, out.events⟩
  | none =>
    let out := ram.write addr value
    ⟨out.answer, ⟨out.state, pins⟩, out.events⟩

end Board

instance : Bus Board where
  read := Board.read
  write := Board.write

end Armlet
