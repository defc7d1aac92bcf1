import Armlet.Machine.Event

/-!
# Output pins

Thirty-two pins behind six word registers. Four of them select functions and are
plain storage. The other two switch pins: each set bit of a word stored to the
set register turns its pin on, and each set bit of a word stored to the clear
register turns its pin off. Both read as the levels of all pins.

The registers lie far above memory, so no address belongs to both.
-/

namespace Armlet

/-- The registers of the pins. -/
inductive PinRegister where
  | functionSelect (index : Fin 4)
  /-- Turns pins on. -/
  | set
  /-- Turns pins off. -/
  | clear
  deriving DecidableEq, Repr

namespace PinRegister

/-- Every register behind its address. -/
def addresses : List (Word × PinRegister) :=
  [(0x20200000, functionSelect 0), (0x20200004, functionSelect 1),
   (0x20200008, functionSelect 2), (0x2020000C, functionSelect 3),
   (0x2020001C, set), (0x20200028, clear)]

/-- The register at an address, if there is one. -/
def ofAddress? (addr : Word) : Option PinRegister := addresses.lookup addr

end PinRegister

/-- The state behind the registers of the pins. -/
structure Pins where
  functionSelect : Vector Word 4
  /-- Bit `n` is the level of pin `n`. -/
  levels : Word
  deriving DecidableEq, Repr

namespace Pins

/-- All registers zero, all pins off. -/
def initial : Pins := ⟨Vector.replicate 4 0, 0⟩

/-- Whether an address belongs to a register of the pins. -/
def ownsAddress (addr : Word) : Bool := (PinRegister.ofAddress? addr).isSome

/-- Whether a pin is on. There are no pins from 32 upwards. -/
def level (pins : Pins) (pin : Nat) : Bool := pins.levels.getLsbD pin

/-- The word a register reads as. -/
def read (pins : Pins) : PinRegister → Word
  | .functionSelect i => pins.functionSelect[i]
  | .set | .clear => pins.levels

/-- One event for each set bit of `value`, from the lowest pin up. -/
def switchEvents (value : Word) (on : Bool) : List Event :=
  ((List.range 32).filter value.getLsbD).map (.pin · on)

/-- Stores a word to a register. -/
def write (pins : Pins) (register : PinRegister) (value : Word) : Outcome Pins Unit :=
  match register with
  | .functionSelect i =>
    ⟨.ok (), { pins with functionSelect := pins.functionSelect.set i value }, []⟩
  | .set => ⟨.ok (), { pins with levels := pins.levels ||| value }, switchEvents value true⟩
  | .clear => ⟨.ok (), { pins with levels := pins.levels &&& ~~~value }, switchEvents value false⟩

end Pins

end Armlet
