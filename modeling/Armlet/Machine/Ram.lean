import Armlet.Machine.Event

/-!
# Memory

A block of bytes that starts at address 0, read and written a word at a time. An
access needs an address that is a multiple of four, and the whole word inside the
block; the first of these faults is reported before the second.
-/

namespace Armlet

/-- The bytes of a memory, from address 0 on. -/
structure Ram where
  bytes : Array Byte
  deriving DecidableEq, Repr

namespace Ram

/-- Memory of a given size with every byte zero. -/
def zeroed (size : Nat) : Ram := ⟨Array.replicate size 0⟩

/-- The number of bytes. -/
def size (ram : Ram) : Nat := ram.bytes.size

/-- A byte of memory. Outside the block there is nothing but zeros. -/
def byte (ram : Ram) (i : Nat) : Byte := ram.bytes[i]?.getD 0

/-- The word whose lowest byte is at `i`. -/
def word (ram : Ram) (i : Nat) : Word :=
  .ofBytes (ram.byte i) (ram.byte (i + 1)) (ram.byte (i + 2)) (ram.byte (i + 3))

/-- Replaces the word whose lowest byte is at `i`. -/
def putWord (ram : Ram) (i : Nat) (value : Word) : Ram where
  bytes := ram.bytes
    |>.setIfInBounds i (value.extractLsb' 0 8)
    |>.setIfInBounds (i + 1) (value.extractLsb' 8 8)
    |>.setIfInBounds (i + 2) (value.extractLsb' 16 8)
    |>.setIfInBounds (i + 3) (value.extractLsb' 24 8)

/-- Why an access at `addr` is refused, if it is. -/
def fault? (ram : Ram) (addr : Word) : Option Trap :=
  if addr.toNat % 4 ≠ 0 then some (.unaligned addr)
  else if ram.size < addr.toNat + 4 then some (.outOfRange addr)
  else none

/-- The word at an address. -/
def read (ram : Ram) (addr : Word) : Except Trap Word :=
  match ram.fault? addr with
  | some trap => .error trap
  | none => .ok (ram.word addr.toNat)

/-- Replaces the word at an address. A refused access leaves the memory as it is. -/
def write (ram : Ram) (addr value : Word) : Outcome Ram Unit :=
  match ram.fault? addr with
  | some trap => ⟨.error trap, ram, []⟩
  | none => ⟨.ok (), ram.putWord addr.toNat value, []⟩

/-- Copies an image to the start of memory. -/
def load (ram : Ram) (image : Array Byte) : Except Trap Ram :=
  if ram.size < image.size then .error (.outOfRange (BitVec.ofNat 32 image.size))
  else .ok ⟨image ++ ram.bytes.extract image.size ram.size⟩

/-- The words that are not zero, with their addresses, in address order. -/
def usedWords (ram : Ram) : List (Word × Word) :=
  (List.range (ram.size / 4)).filterMap fun k =>
    let value := ram.word (4 * k)
    if value = 0 then none else some (BitVec.ofNat 32 (4 * k), value)

end Ram

end Armlet
