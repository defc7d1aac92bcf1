/-!
# Words and bytes

Everything the machine computes with is a 32-bit word, and everything it stores
is a byte. A word in memory is four bytes, the least significant one first, so
`Word.ofBytes` puts its last argument at the top.
-/

namespace Armlet

/-- A machine word. -/
abbrev Word := BitVec 32

/-- A memory cell. -/
abbrev Byte := BitVec 8

namespace Word

/-- The bytes of a word in the order memory holds them. -/
def bytes (w : Word) : List Byte :=
  [w.extractLsb' 0 8, w.extractLsb' 8 8, w.extractLsb' 16 8, w.extractLsb' 24 8]

/-- The word four bytes make, given in the order memory holds them. -/
def ofBytes (b0 b1 b2 b3 : Byte) : Word := b3 ++ b2 ++ b1 ++ b0

@[simp]
theorem length_bytes (w : Word) : (bytes w).length = 4 := rfl

end Word

end Armlet
