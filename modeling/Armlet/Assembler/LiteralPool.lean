import Armlet.Word

/-!
# The literal pool

Constants that do not fit an instruction stand behind the last line of the
program and are loaded from there. Each value is kept once, in the order of first
use.
-/

namespace Armlet

/-- Constants and the place where they begin. -/
structure LiteralPool where
  /-- The address of the first constant. -/
  base : Word
  words : List Word
  deriving DecidableEq, Repr

namespace LiteralPool

/-- A pool without constants. -/
def empty (base : Word) : LiteralPool := ⟨base, []⟩

/-- The address of the constant with a given position. -/
def slot (pool : LiteralPool) (index : Nat) : Word := pool.base + BitVec.ofNat 32 (4 * index)

/-- The address of a value, and the pool with the value in it. -/
def intern (pool : LiteralPool) (value : Word) : Word × LiteralPool :=
  match pool.words.idxOf? value with
  | some index => (pool.slot index, pool)
  | none => (pool.slot pool.words.length, { pool with words := pool.words ++ [value] })

end LiteralPool

end Armlet
