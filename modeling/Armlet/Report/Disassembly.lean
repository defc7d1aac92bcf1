import Armlet.Instruction.Decode
import Armlet.Instruction.Text
import Armlet.Text.Tabular

/-!
# Disassembly of an image

One line a word: the address, the bytes if they are asked for, and the
instruction, or the bare word where there is none. Bytes that do not fill a word
at the end of the image are only mentioned.
-/

namespace Armlet

namespace Disassembly

/-- The text for a word. -/
def wordText (w : Word) : String :=
  match Instruction.decode? w with
  | some i => i.text
  | none => ".word " ++ Numeral.hex 8 w.toNat

/-- The bytes of a word and the gap behind them. -/
def bytesText (bytes : List Byte) : String :=
  " ".intercalate (bytes.map fun b => Numeral.hexDigits 2 b.toNat) ++ "   "

/-- The lines for the bytes from address `addr` on. -/
def lines (showBytes : Bool) (addr : Word) : List Byte → List String
  | [] => []
  | b0 :: b1 :: b2 :: b3 :: rest =>
    let head := Numeral.hex 8 addr.toNat ++ ": "
    let bytes := if showBytes then bytesText [b0, b1, b2, b3] else ""
    (head ++ bytes ++ wordText (.ofBytes b0 b1 b2 b3)) :: lines showBytes (addr + 4) rest
  | _ => [Numeral.hex 8 addr.toNat ++ ": <truncated>"]

end Disassembly

/-- The disassembly of an image that starts at address 0. -/
def disassemble (showBytes : Bool) (image : List Byte) : String :=
  Text.ofLines (Disassembly.lines showBytes 0 image)

end Armlet
