import Armlet.Assembler.Program
import Armlet.Proofs.Memory

/-!
# Images in memory

An image is the words of a program as bytes, four to a word. `Ram.Holds` says
that a memory begins with the bytes of an image; then the word at four times `k`
is the word number `k`, which is all that a fetch or a load from the literal pool
has to know about loading.

A memory goes on to hold an image as long as the stores go to addresses behind
it. On a board the stores to the pins do no harm either, because they never reach
the memory.
-/

namespace Armlet

/-! ## Words and their bytes -/

namespace Word

theorem length_flatMap_bytes (words : List Word) :
    (words.flatMap bytes).length = 4 * words.length := by
  induction words with
  | nil => rfl
  | cons w ws ih =>
    rw [List.flatMap_cons, List.length_append, length_bytes, ih, List.length_cons]
    omega

/-- The bytes of the word number `k` are the four from `4 * k` on. -/
theorem getElem?_flatMap_bytes {words : List Word} {k : Nat} {w : Word} (h : words[k]? = some w)
    {j : Nat} (hj : j < 4) : (words.flatMap bytes)[4 * k + j]? = w.bytes[j]? := by
  induction words generalizing k with
  | nil => cases h
  | cons v vs ih =>
    rw [List.flatMap_cons]
    cases k with
    | zero =>
      cases h
      rw [List.getElem?_append_left (by rw [length_bytes]; omega), Nat.mul_zero, Nat.zero_add]
    | succ k =>
      rw [List.getElem?_append_right (by rw [length_bytes]; omega), length_bytes,
        show 4 * (k + 1) + j - 4 = 4 * k + j by omega]
      exact ih h

end Word

/-! ## Memories that hold an image -/

namespace Ram

/-- A memory that begins with the bytes of an image. -/
def Holds (ram : Ram) (image : List Byte) : Prop :=
  ∀ i b, image[i]? = some b → ram.byte i = b

/-- What loading does, if the image is not too long: the size of the memory stays. -/
theorem holds_load {ram ram' : Ram} {image : List Byte} (h : ram.load image.toArray = .ok ram') :
    ram'.Holds image ∧ ram'.size = ram.size ∧ image.length ≤ ram.size := by
  unfold load at h
  split at h
  · cases h
  · rename_i hsize
    rw [List.size_toArray] at hsize
    cases h
    refine ⟨?_, ?_, Nat.not_lt.mp hsize⟩
    · intro i b hb
      have hi : i < image.length := (List.getElem?_eq_some_iff.mp hb).1
      rw [byte, Array.getElem?_append_left hi, List.getElem?_toArray, hb, Option.getD_some]
    · simp only [size] at hsize ⊢
      simp
      omega

/-- Only the size of an image can keep it from being loaded. -/
theorem exists_load {ram : Ram} {image : List Byte} (h : image.length ≤ ram.size) :
    ∃ ram', ram.load image.toArray = .ok ram' := by
  unfold load
  rw [if_neg (by rw [List.size_toArray]; omega)]
  exact ⟨_, rfl⟩

/-- A store behind an image leaves the image alone. -/
theorem Holds.putWord {ram : Ram} {image : List Byte} (h : ram.Holds image) {i : Nat}
    (hi : image.length ≤ i) (v : Word) : (ram.putWord i v).Holds image := by
  intro j b hb
  have hj : j < image.length := (List.getElem?_eq_some_iff.mp hb).1
  rw [ram.byte_putWord_of_outside v (.inl (Nat.lt_of_lt_of_le hj hi))]
  exact h j b hb

/-- **The word at four times its number.** -/
theorem Holds.word_eq {ram : Ram} {words : List Word} (h : ram.Holds (words.flatMap Word.bytes))
    {k : Nat} {w : Word} (hw : words[k]? = some w) : ram.word (4 * k) = w := by
  have hbyte : ∀ j b, j < 4 → w.bytes[j]? = some b → ram.byte (4 * k + j) = b := by
    intro j b hj hb
    exact h _ _ ((Word.getElem?_flatMap_bytes hw hj).trans hb)
  rw [word, ← Nat.add_zero (4 * k), hbyte 0 _ (by omega) rfl, Nat.add_zero,
    hbyte 1 _ (by omega) rfl, hbyte 2 _ (by omega) rfl, hbyte 3 _ (by omega) rfl,
    Word.ofBytes_bytes]

end Ram

/-! ## Boards -/

/-- The registers of the pins lie above every memory that a board can have. -/
theorem PinRegister.ofAddress?_of_lt {addr : Word} (h : addr.toNat < 0x20200000) :
    ofAddress? addr = none := by
  rw [ofAddress?_eq_none_iff]
  rintro r rfl
  have hle := r.address_bounds.1
  omega

namespace Board

/-- A board of the usual size whose memory begins with an image. -/
structure Holds (board : Board) (image : List Byte) : Prop where
  size_eq : board.ram.size = ramSize
  ram_holds : board.ram.Holds image

variable {board : Board} {words : List Word}

/-- Reading a word of the image is never refused. -/
theorem Holds.read_eq (h : board.Holds (words.flatMap Word.bytes)) {k : Nat} {w : Word}
    (hw : words[k]? = some w) (hsize : 4 * words.length ≤ ramSize) {addr : Word}
    (haddr : addr.toNat = 4 * k) : Bus.read board addr = .ok w := by
  have hk : k < words.length := (List.getElem?_eq_some_iff.mp hw).1
  have hreach : addr.toNat + 4 ≤ ramSize := by omega
  unfold ramSize at hreach
  change board.read addr = .ok w
  rw [board.read_of_memory (PinRegister.ofAddress?_of_lt (by omega)), Ram.read_eq_ok_iff,
    Ram.fault?_eq_none_iff, haddr, h.size_eq]
  exact ⟨⟨by omega, by unfold ramSize; omega⟩, h.ram_holds.word_eq hw⟩

/-- A store that is refused or goes behind the image leaves the image alone. -/
theorem Holds.write {image : List Byte} (h : board.Holds image) (addr v : Word)
    (hsafe : (board.write addr v).answer = .ok () → image.length ≤ addr.toNat) :
    (board.write addr v).state.Holds image := by
  cases hr : PinRegister.ofAddress? addr with
  | some r =>
    rw [board.write_of_register v hr]
    exact ⟨h.size_eq, h.ram_holds⟩
  | none =>
    rw [board.write_of_memory v hr] at hsafe ⊢
    cases hf : board.ram.fault? addr with
    | some t =>
      rw [board.ram.write_of_fault v hf]
      exact h
    | none =>
      rw [board.ram.write_of_no_fault v hf] at hsafe ⊢
      exact ⟨(board.ram.size_putWord _ v).trans h.size_eq, h.ram_holds.putWord (hsafe rfl) v⟩

end Board

end Armlet
