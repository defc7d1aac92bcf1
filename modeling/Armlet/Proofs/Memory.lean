import Armlet.Machine.Bus

/-!
# Memory and the board

What one access does. A memory is looked at through `Ram.byte`: a store replaces
the four bytes at its address and keeps every other byte and the size. So the word
at the address of a store is the one that was stored, and a word that shares no
byte with it is the one that was there before.

A board passes an access on to its pins or to its memory, never to both. Which of
the two it is depends on the address alone (`PinRegister.address_cases`), and the
addresses of the pins lie above every address that memory can have.
-/

namespace Armlet

namespace Ram

variable (ram : Ram)

/-- The accesses that are not refused. -/
theorem fault?_eq_none_iff {addr : Word} :
    ram.fault? addr = none ↔ addr.toNat % 4 = 0 ∧ addr.toNat + 4 ≤ ram.size := by
  unfold fault?
  split
  · simp [*]
  · split
    · simp; omega
    · simp; omega

@[simp]
theorem size_zeroed (n : Nat) : (zeroed n).size = n := by
  simp [zeroed, size]

@[simp]
theorem size_putWord (i : Nat) (v : Word) : (ram.putWord i v).size = ram.size := by
  simp [putWord, size]

/-- A store keeps the bytes below its address and those behind its word. -/
theorem byte_putWord_of_outside {i j : Nat} (v : Word) (h : j < i ∨ i + 4 ≤ j) :
    (ram.putWord i v).byte j = ram.byte j := by
  unfold putWord byte
  dsimp only
  rw [Array.getElem?_setIfInBounds_ne (by omega), Array.getElem?_setIfInBounds_ne (by omega),
    Array.getElem?_setIfInBounds_ne (by omega), Array.getElem?_setIfInBounds_ne (by omega)]

/-- The bytes that a store leaves at its address, if the word lies inside the memory. -/
theorem byte_putWord_add {i k : Nat} (v : Word) (hi : i + 4 ≤ ram.size) (hk : k < 4) :
    (ram.putWord i v).byte (i + k) = v.extractLsb' (8 * k) 8 := by
  unfold size at hi
  unfold putWord byte
  dsimp only
  simp only [Array.getElem?_setIfInBounds, Array.size_setIfInBounds]
  obtain rfl | rfl | rfl | rfl : k = 0 ∨ k = 1 ∨ k = 2 ∨ k = 3 := by omega
  · simp [show i < ram.bytes.size by omega]
  · simp [show i + 1 < ram.bytes.size by omega]
  · simp [show i + 2 < ram.bytes.size by omega]
  · simp [show i + 3 < ram.bytes.size by omega]

theorem read_eq_ok_iff {addr v : Word} :
    ram.read addr = .ok v ↔ ram.fault? addr = none ∧ ram.word addr.toNat = v := by
  unfold read
  split
  · rename_i t ht
    simp [ht]
  · rename_i ht
    simp [ht]

/-- What comes of an access, in the order in which its faults are looked for. -/
theorem elim_fault? {α : Type} (addr : Word) (granted : Except Trap α) :
    (ram.fault? addr).elim granted Except.error
      = if addr.toNat % 4 ≠ 0 then .error (.unaligned addr)
        else if ram.size < addr.toNat + 4 then .error (.outOfRange addr)
        else granted := by
  rw [fault?, apply_ite (Option.elim · granted _), apply_ite (Option.elim · granted _)]
  rfl

theorem read_eq (addr : Word) : ram.read addr
    = if addr.toNat % 4 ≠ 0 then .error (.unaligned addr)
      else if ram.size < addr.toNat + 4 then .error (.outOfRange addr)
      else .ok (ram.word addr.toNat) := by
  rw [← ram.elim_fault?, read]
  cases ram.fault? addr with
  | some t => rfl
  | none => rfl

theorem answer_write (addr v : Word) : (ram.write addr v).answer
    = if addr.toNat % 4 ≠ 0 then .error (.unaligned addr)
      else if ram.size < addr.toNat + 4 then .error (.outOfRange addr)
      else .ok () := by
  rw [← ram.elim_fault?, write]
  cases ram.fault? addr with
  | some t => rfl
  | none => rfl

theorem write_of_fault {addr : Word} {t : Trap} (v : Word) (h : ram.fault? addr = some t) :
    ram.write addr v = ⟨.error t, ram, []⟩ := by
  rw [write, h]

theorem write_of_no_fault {addr : Word} (v : Word) (h : ram.fault? addr = none) :
    ram.write addr v = ⟨.ok (), ram.putWord addr.toNat v, []⟩ := by
  rw [write, h]

theorem size_write (addr v : Word) : (ram.write addr v).state.size = ram.size := by
  cases hf : ram.fault? addr with
  | some t => rw [ram.write_of_fault v hf]
  | none =>
    rw [ram.write_of_no_fault v hf]
    exact ram.size_putWord _ v

end Ram

/-! ## Words of memory -/

namespace Word

theorem ofBytes_bytes (w : Word) :
    ofBytes (w.extractLsb' 0 8) (w.extractLsb' 8 8) (w.extractLsb' 16 8) (w.extractLsb' 24 8)
      = w := by
  unfold ofBytes
  rw [BitVec.extractLsb'_append_extractLsb'_eq_extractLsb' (show 24 = 16 + 8 from rfl),
    BitVec.extractLsb'_append_extractLsb'_eq_extractLsb' (show 16 = 8 + 8 from rfl),
    BitVec.extractLsb'_append_extractLsb'_eq_extractLsb' (show 8 = 0 + 8 from rfl)]
  exact BitVec.extractLsb'_eq_self

/-- Four bytes as a number, the least significant one first. -/
theorem toNat_ofBytes (b0 b1 b2 b3 : Byte) :
    (ofBytes b0 b1 b2 b3).toNat
      = b0.toNat + 0x100 * b1.toNat + 0x10000 * b2.toNat + 0x1000000 * b3.toNat := by
  have h0 := b0.isLt
  have h1 := b1.isLt
  have h2 := b2.isLt
  unfold ofBytes
  rw [BitVec.toNat_append, BitVec.toNat_append, BitVec.toNat_append,
    ← Nat.shiftLeft_add_eq_or_of_lt h0, ← Nat.shiftLeft_add_eq_or_of_lt h1,
    ← Nat.shiftLeft_add_eq_or_of_lt h2, Nat.shiftLeft_eq, Nat.shiftLeft_eq, Nat.shiftLeft_eq]
  omega

end Word

namespace Ram

/-- The number that four bytes of memory stand for, the least significant one first. -/
def littleEndian (ram : Ram) (i : Nat) : Nat :=
  (ram.byte i).toNat + 0x100 * (ram.byte (i + 1)).toNat + 0x10000 * (ram.byte (i + 2)).toNat
    + 0x1000000 * (ram.byte (i + 3)).toNat

theorem toNat_word (ram : Ram) (i : Nat) : (ram.word i).toNat = ram.littleEndian i :=
  Word.toNat_ofBytes _ _ _ _

theorem word_eq_ofNat (ram : Ram) (i : Nat) :
    ram.word i = BitVec.ofNat 32 (ram.littleEndian i) := by
  rw [← toNat_word, BitVec.ofNat_toNat, BitVec.setWidth_eq]

/-- A word depends on its four bytes alone. -/
theorem word_congr {ram ram' : Ram} {i : Nat}
    (h : ∀ k, k < 4 → ram.byte (i + k) = ram'.byte (i + k)) : ram.word i = ram'.word i := by
  have h0 : ram.byte i = ram'.byte i := h 0 (by decide)
  rw [word, word, h0, h 1 (by decide), h 2 (by decide), h 3 (by decide)]

theorem word_putWord_self (ram : Ram) {i : Nat} (v : Word) (h : i + 4 ≤ ram.size) :
    (ram.putWord i v).word i = v := by
  have hbyte : ∀ k, k < 4 → (ram.putWord i v).byte (i + k) = v.extractLsb' (8 * k) 8 :=
    fun k hk => ram.byte_putWord_add v h hk
  have h0 : (ram.putWord i v).byte i = v.extractLsb' 0 8 := hbyte 0 (by decide)
  rw [word, h0, hbyte 1 (by decide), hbyte 2 (by decide), hbyte 3 (by decide)]
  exact Word.ofBytes_bytes v

theorem word_putWord_of_disjoint (ram : Ram) {i j : Nat} (v : Word) (h : j + 4 ≤ i ∨ i + 4 ≤ j) :
    (ram.putWord i v).word j = ram.word j :=
  word_congr fun _ _ => ram.byte_putWord_of_outside v (by omega)

/-- A store keeps every other word at a multiple of four. -/
theorem word_write_of_ne (ram : Ram) {addr : Word} (v : Word) {k : Nat} (hk : 4 * k ≠ addr.toNat) :
    (ram.write addr v).state.word (4 * k) = ram.word (4 * k) := by
  cases hf : ram.fault? addr with
  | some t => rw [ram.write_of_fault v hf]
  | none =>
    rw [ram.write_of_no_fault v hf]
    obtain ⟨haligned, _⟩ := ram.fault?_eq_none_iff.mp hf
    exact ram.word_putWord_of_disjoint v (by omega)

end Ram

/-! ## Registers of pins -/

namespace PinRegister

/-- The address of a register. -/
def address : PinRegister → Word
  | functionSelect i => BitVec.ofNat 32 (0x20200000 + 4 * i)
  | set => 0x2020001C
  | clear => 0x20200028

theorem ofAddress?_address (r : PinRegister) : ofAddress? r.address = some r := by
  cases r with
  | functionSelect i => revert i; decide
  | set => rfl
  | clear => rfl

theorem ofAddress?_eq_some_iff {addr : Word} {r : PinRegister} :
    ofAddress? addr = some r ↔ r.address = addr := by
  constructor
  · intro h
    obtain ⟨before, behind, heq, _⟩ := List.lookup_eq_some_iff.mp h
    have hmem : (addr, r) ∈ addresses := by
      rw [heq]
      exact List.mem_append_right before List.mem_cons_self
    have hall : ∀ e ∈ addresses, e.2.address = e.1 := by decide
    exact hall _ hmem
  · rintro rfl
    exact ofAddress?_address r

/-- The registers are words, and they lie above every memory that a board can have. -/
theorem address_bounds (r : PinRegister) :
    0x20200000 ≤ r.address.toNat ∧ r.address.toNat % 4 = 0 := by
  cases r with
  | functionSelect i => revert i; decide
  | set => decide
  | clear => decide

/-- No two registers share an address. -/
theorem address_eq_iff {r r' : PinRegister} : r.address = r'.address ↔ r = r' := by
  constructor
  · intro h
    have hr := ofAddress?_address r
    rw [h, ofAddress?_address] at hr
    exact (Option.some.inj hr).symm
  · rintro rfl
    rfl

theorem ofAddress?_eq_none_iff {addr : Word} :
    ofAddress? addr = none ↔ ∀ r : PinRegister, r.address ≠ addr := by
  rw [Option.eq_none_iff_forall_ne_some]
  simp only [ne_eq, ofAddress?_eq_some_iff]

/-- An address belongs to a register of the pins, or it is one of memory. -/
theorem address_cases (addr : Word) :
    (∃ r : PinRegister, r.address = addr) ∨ ∀ r : PinRegister, r.address ≠ addr := by
  cases hr : ofAddress? addr with
  | some r => exact .inl ⟨r, ofAddress?_eq_some_iff.mp hr⟩
  | none => exact .inr (ofAddress?_eq_none_iff.mp hr)

end PinRegister

namespace Board

variable (board : Board) {addr : Word}

theorem read_of_memory (h : PinRegister.ofAddress? addr = none) :
    board.read addr = board.ram.read addr := by
  rw [read, h]

theorem write_of_register {r : PinRegister} (v : Word)
    (h : PinRegister.ofAddress? addr = some r) :
    board.write addr v = ⟨(board.pins.write r v).answer,
      { board with pins := (board.pins.write r v).state }, (board.pins.write r v).events⟩ := by
  rw [write]
  dsimp only
  rw [h]

theorem write_of_memory (v : Word) (h : PinRegister.ofAddress? addr = none) :
    board.write addr v = ⟨(board.ram.write addr v).answer,
      { board with ram := (board.ram.write addr v).state }, (board.ram.write addr v).events⟩ := by
  rw [write]
  dsimp only
  rw [h]

end Board

/-- A store to a register of the pins is never refused. -/
theorem Pins.answer_write (pins : Pins) (r : PinRegister) (v : Word) :
    (pins.write r v).answer = .ok () := by
  cases r <;> rfl

end Armlet
