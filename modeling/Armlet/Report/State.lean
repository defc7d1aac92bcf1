import Armlet.Machine.Bus
import Armlet.Machine.Processor
import Armlet.Report.Json
import Armlet.Text.Tabular

/-!
# Reports on the state of a machine

The registers and the memory that is in use, as a listing for reading or as a JSON
value for other programs.
-/

namespace Armlet

/-! ## Listing -/

/-- A line of the register listing: the value as a signed number, and in hexadecimal. -/
def registerLine (name : String) (value : Word) : String :=
  name ++ ": " ++ Text.alignRight 10 (Numeral.signedDecimal value.toInt)
    ++ " (" ++ Numeral.hex 8 value.toNat ++ ")"

/-- The registers r0 to r12 by number, then the others by name, then the flags. -/
def Processor.listing (cpu : Processor) : List String :=
  let numbered := (cpu.registers.toList.take 13).zipIdx.map fun (value, number) =>
    registerLine ("$" ++ Text.alignLeft 3 (Numeral.decimal number)) value
  numbered ++
    [registerLine "SP  " (cpu.get .sp), registerLine "LR  " (cpu.get .lr),
     registerLine "PC  " cpu.pc, registerLine "CPSR" cpu.flags.toWord]

/-- The words of memory that are not zero. -/
def Ram.listing (ram : Ram) : List String :=
  ram.usedWords.map fun (addr, value) =>
    Numeral.hex 8 addr.toNat ++ ": " ++ Numeral.hex 8 value.toNat

/-- Registers and memory. -/
def stateListing (cpu : Processor) (ram : Ram) : String :=
  Text.ofLines (["Registers:"] ++ cpu.listing ++ ["Non-zero memory:"] ++ ram.listing)

/-! ## JSON -/

/-- The state of a processor, the flags in writing. -/
def Processor.toJson (cpu : Processor) : Json :=
  .object
    [("cfg", .object [("max_steps", (cpu.maxSteps.map Json.number).getD .null)]),
     ("cpsr", .string cpu.flags.text),
     ("gpr", .array ((cpu.registers.toList.take 13).map fun value => .number value.toNat)),
     ("lr", .number (cpu.get .lr).toNat),
     ("pc", .number cpu.pc.toNat),
     ("sp", .number (cpu.get .sp).toNat)]

/-- The state of the pins. -/
def Pins.toJson (pins : Pins) : Json :=
  .object
    [("fsel", .array (pins.functionSelect.toList.map fun value => .number value.toNat)),
     ("levels", .number pins.levels.toNat)]

/-- Processor and pins. Without pins their place is null. -/
def stateJson (cpu : Processor) (pins : Option Pins) : Json :=
  .object [("cpu", cpu.toJson), ("gpio", (pins.map Pins.toJson).getD .null)]

end Armlet
