import Armlet.Condition
import Armlet.Word
import Armlet.Text.Split

/-!
# The status flags

Four flags that data-processing and multiply instructions set on request, and
that conditions read. As a word they are the bits 31 to 28, in the order of the
fields below.
-/

namespace Armlet

/-- The four flags. -/
structure Flags where
  /-- The result had its top bit set. -/
  negative : Bool
  /-- The result was zero. -/
  zero : Bool
  /-- A sum left the word, or a difference needed no borrow. -/
  carry : Bool
  /-- A signed result left its range. -/
  overflow : Bool
  deriving DecidableEq, Repr

namespace Flags

/-- All flags down. -/
def clear : Flags := ⟨false, false, false, false⟩

/-- The flags after a result: `carry` and `overflow` change only where reported. -/
def update (f : Flags) (result : Word) (carry overflow : Option Bool) : Flags where
  negative := result.msb
  zero := result == 0
  carry := carry.getD f.carry
  overflow := overflow.getD f.overflow

/-- The flags as the top four bits of a word. -/
def toWord (f : Flags) : Word :=
  BitVec.ofBool f.negative ++ BitVec.ofBool f.zero ++ BitVec.ofBool f.carry
    ++ BitVec.ofBool f.overflow ++ 0#28

/-- The flags in a word, whose other bits do not matter. -/
def ofWord (w : Word) : Flags where
  negative := w.getLsbD 31
  zero := w.getLsbD 30
  carry := w.getLsbD 29
  overflow := w.getLsbD 28

/-- The letters of the flags that are up, from bit 28 to bit 31. -/
def names (f : Flags) : List String :=
  (if f.overflow then ["V"] else []) ++ (if f.carry then ["C"] else [])
    ++ (if f.zero then ["Z"] else []) ++ (if f.negative then ["N"] else [])

/-- The flags that are up, in writing. -/
def text (f : Flags) : String := " | ".intercalate f.names

/-- Puts up the flag with the given letter. -/
def raise? (f : Flags) : String → Option Flags
  | "V" => some { f with overflow := true }
  | "C" => some { f with carry := true }
  | "Z" => some { f with zero := true }
  | "N" => some { f with negative := true }
  | _ => none

/-- Reads flags in writing. The letters may come in any order. -/
def ofText? (s : String) : Option Flags :=
  let words := (pieces (· == '|') s.toList).map fun cs => String.ofList (cs.filter (· != ' '))
  if words = [""] then some clear else words.foldlM raise? clear

end Flags

/-- Whether a condition holds under the given flags. -/
def Condition.holds (f : Flags) : Condition → Bool
  | eq => f.zero
  | ne => !f.zero
  | cs => f.carry
  | cc => !f.carry
  | mi => f.negative
  | pl => !f.negative
  | vs => f.overflow
  | vc => !f.overflow
  | hi => f.carry && !f.zero
  | ls => !f.carry || f.zero
  | ge => f.negative == f.overflow
  | lt => f.negative != f.overflow
  | gt => !f.zero && f.negative == f.overflow
  | le => f.zero || f.negative != f.overflow
  | al => true
  | nv => false

end Armlet
