import Armlet.Proofs.Memory

/-!
# The words of a memory that are not zero

What is printed of a memory are its words other than zero, each with its address. They are
in the order of their addresses, and they are the words that can be read, so nothing is
listed that is not there and nothing is left out but zeros. A few bytes at the end that make
up no word are the exception: no access reaches them, and they are not listed.

Where there are none, the listed words tell the whole memory. Stored one after another into
an empty memory of the same size they make it up again, in whatever order. `Rebuilds` is what
holds on the way: a word is as it was, or it is still to be stored.
-/

namespace Armlet

namespace Ram

variable {ram now : Ram} {addr value : Word}

/-! ## Listed words -/

/-- An entry is listed for a word inside the memory that is not zero. -/
theorem mem_usedWords_iff_word (ram : Ram) (addr value : Word) :
    (addr, value) ∈ ram.usedWords
      ↔ ∃ k, k < ram.size / 4 ∧ ram.word (4 * k) ≠ 0
        ∧ BitVec.ofNat 32 (4 * k) = addr ∧ ram.word (4 * k) = value := by
  unfold usedWords
  simp only [List.mem_filterMap, List.mem_range]
  refine exists_congr fun k => and_congr_right fun _ => ?_
  split
  · rename_i hzero
    simp [hzero]
  · rename_i hvalue
    rw [Option.some.injEq, Prod.mk.injEq]
    exact ⟨fun h => ⟨hvalue, h⟩, fun h => h.2⟩

/-- The number of a word times four, where an address has enough bits for it. -/
theorem toNat_ofNat_wordAddress (hsize : ram.size ≤ 0x100000000) {k : Nat} (hk : k < ram.size / 4) :
    (BitVec.ofNat 32 (4 * k)).toNat = 4 * k := by
  rw [BitVec.toNat_ofNat]
  omega

theorem usedWords_ascending (hsize : ram.size ≤ 0x100000000) :
    ram.usedWords.Pairwise fun a b => a.1 < b.1 := by
  unfold usedWords
  rw [List.pairwise_filterMap]
  refine List.Pairwise.imp_of_mem ?_ List.pairwise_lt_range
  intro j k hj hk hlt a ha b hb
  dsimp only at ha hb
  split at ha
  · cases ha
  · split at hb
    · cases hb
    · cases ha
      cases hb
      rw [BitVec.lt_def, toNat_ofNat_wordAddress hsize (List.mem_range.mp hj),
        toNat_ofNat_wordAddress hsize (List.mem_range.mp hk)]
      omega

/-- **What is listed is what can be read**, zeros apart. -/
theorem mem_usedWords_iff (hsize : ram.size ≤ 0x100000000) :
    (addr, value) ∈ ram.usedWords ↔ ram.read addr = .ok value ∧ value ≠ 0 := by
  rw [mem_usedWords_iff_word, read_eq_ok_iff, fault?_eq_none_iff]
  constructor
  · rintro ⟨k, hk, hvalue, rfl, rfl⟩
    rw [toNat_ofNat_wordAddress hsize hk]
    exact ⟨⟨⟨by omega, by omega⟩, rfl⟩, hvalue⟩
  · rintro ⟨⟨⟨haligned, hfits⟩, rfl⟩, hvalue⟩
    have haddr : 4 * (addr.toNat / 4) = addr.toNat := by omega
    refine ⟨addr.toNat / 4, by omega, ?_, ?_, ?_⟩
    · rwa [haddr]
    · rw [haddr, BitVec.ofNat_toNat, BitVec.setWidth_eq]
    · rw [haddr]

/-! ## What words tell -/

/-- The bytes of a memory are bytes of its words. -/
theorem extractLsb'_word (ram : Ram) (i : Nat) {j : Nat} (hj : j < 4) :
    (ram.word i).extractLsb' (8 * j) 8 = ram.byte (i + j) := by
  unfold word Word.ofBytes
  obtain rfl | rfl | rfl | rfl : j = 0 ∨ j = 1 ∨ j = 2 ∨ j = 3 := by omega
  all_goals
    simp (disch := decide) only [BitVec.extractLsb'_append_eq_of_le,
      BitVec.extractLsb'_append_eq_of_add_le]
    simp

theorem eq_of_byte_eq {ram ram' : Ram} (hsize : ram.size = ram'.size)
    (h : ∀ i, i < ram.size → ram.byte i = ram'.byte i) : ram = ram' := by
  obtain ⟨bytes⟩ := ram
  obtain ⟨bytes'⟩ := ram'
  congr 1
  refine Array.ext hsize fun i hi hi' => ?_
  have hbyte := h i hi
  unfold byte at hbyte
  rwa [Array.getElem?_eq_getElem hi, Array.getElem?_eq_getElem hi', Option.getD_some,
    Option.getD_some] at hbyte

/-- A memory of whole words is told by its words. -/
theorem eq_of_word_eq {ram ram' : Ram} (hwhole : ram.size % 4 = 0) (hsize : ram.size = ram'.size)
    (h : ∀ k, k < ram.size / 4 → ram.word (4 * k) = ram'.word (4 * k)) : ram = ram' := by
  refine eq_of_byte_eq hsize fun i hi => ?_
  have hmod : i % 4 < 4 := Nat.mod_lt i (by decide)
  rw [← Nat.div_add_mod i 4, ← ram.extractLsb'_word _ hmod, h (i / 4) (by omega),
    ram'.extractLsb'_word _ hmod]

theorem word_zeroed (size i : Nat) : (zeroed size).word i = 0 := by
  have hbyte : ∀ i, (zeroed size).byte i = 0 := by
    intro i
    unfold zeroed byte
    rw [Array.getElem?_replicate]
    split
    · rfl
    · rfl
  rw [word, hbyte, hbyte, hbyte, hbyte]
  rfl

/-! ## Storing a list of words -/

/-- Stores words one after another, up to the first store that is refused. -/
def storeAll (ram : Ram) : List (Word × Word) → Except Trap Ram
  | [] => .ok ram
  | (addr, value) :: rest =>
    match (ram.write addr value).answer with
    | .error trap => .error trap
    | .ok () => (ram.write addr value).state.storeAll rest

/-- A memory on the way to be `ram`: each word is as it shall be, or is still to be stored. -/
structure Rebuilds (ram : Ram) (missing : List (Word × Word)) (now : Ram) : Prop where
  size_eq : now.size = ram.size
  /-- What is still to be stored are words of `ram`. -/
  words : ∀ addr value, (addr, value) ∈ missing → ram.read addr = .ok value
  word_eq_or_mem : ∀ k, k < ram.size / 4 → now.word (4 * k) = ram.word (4 * k)
    ∨ (BitVec.ofNat 32 (4 * k), ram.word (4 * k)) ∈ missing

/-- An empty memory lacks the words that are not zero. -/
theorem rebuilds_zeroed (hsize : ram.size ≤ 0x100000000) {order : List (Word × Word)}
    (horder : order.Perm ram.usedWords) : Rebuilds ram order (zeroed ram.size) where
  size_eq := size_zeroed ram.size
  words := fun _ _ hmem => ((mem_usedWords_iff hsize).mp (horder.mem_iff.mp hmem)).1
  word_eq_or_mem := by
    intro k hk
    rw [word_zeroed, horder.mem_iff, mem_usedWords_iff_word]
    by_cases hzero : ram.word (4 * k) = 0
    · exact .inl hzero.symm
    · exact .inr ⟨k, hk, hzero, rfl, rfl⟩

/-- **A store is granted and takes its word off what is missing.** -/
theorem Rebuilds.write {missing : List (Word × Word)} (hsize : ram.size ≤ 0x100000000)
    (h : Rebuilds ram ((addr, value) :: missing) now) :
    (now.write addr value).answer = .ok () ∧ Rebuilds ram missing (now.write addr value).state := by
  obtain ⟨hfault, hword⟩ := ram.read_eq_ok_iff.mp (h.words addr value List.mem_cons_self)
  obtain ⟨haligned, hfits⟩ := ram.fault?_eq_none_iff.mp hfault
  have hgranted : now.fault? addr = none :=
    now.fault?_eq_none_iff.mpr ⟨haligned, by rw [h.size_eq]; exact hfits⟩
  rw [now.write_of_no_fault value hgranted]
  refine ⟨rfl, (now.size_putWord _ value).trans h.size_eq,
    fun a v hmem => h.words a v (List.mem_cons_of_mem _ hmem), fun k hk => ?_⟩
  by_cases haddr : addr.toNat = 4 * k
  · -- the word that has been stored
    left
    rw [← haddr, now.word_putWord_self value (by rw [h.size_eq]; exact hfits), hword]
  · -- a word that shares no byte with it
    rw [now.word_putWord_of_disjoint value (by omega)]
    rcases h.word_eq_or_mem k hk with hnow | hmem
    · exact .inl hnow
    · rcases List.mem_cons.mp hmem with heq | hmem
      · cases heq
        exact absurd (toNat_ofNat_wordAddress hsize hk) haddr
      · exact .inr hmem

/-- Once nothing is missing any more, the memory is there. -/
theorem Rebuilds.storeAll_eq {missing : List (Word × Word)} (hsize : ram.size ≤ 0x100000000)
    (hwhole : ram.size % 4 = 0) (h : Rebuilds ram missing now) : now.storeAll missing = .ok ram := by
  induction missing generalizing now with
  | nil =>
    have hsize_eq := h.size_eq
    refine congrArg Except.ok (eq_of_word_eq (by omega) hsize_eq fun k hk => ?_)
    exact (h.word_eq_or_mem k (by omega)).resolve_right List.not_mem_nil
  | cons entry missing ih =>
    obtain ⟨addr, value⟩ := entry
    obtain ⟨hanswer, hnext⟩ := h.write hsize
    rw [storeAll, hanswer]
    exact ih hnext

/--
**The used words tell the memory.** They are listed with ascending addresses, multiples of
four, and they are the words other than zero that can be read. Where the memory is made of
whole words, an empty memory of the same size takes the listed words in any order, and comes
to be the same memory.
-/
theorem usedWords_tell_memory (ram : Ram) (hsize : ram.size ≤ 0x100000000) :
    (ram.usedWords.Pairwise fun a b => a.1 < b.1)
      ∧ (∀ entry ∈ ram.usedWords, entry.1.toNat % 4 = 0)
      ∧ (∀ addr value, (addr, value) ∈ ram.usedWords ↔ ram.read addr = .ok value ∧ value ≠ 0)
      ∧ (ram.size % 4 = 0 → ∀ order : List (Word × Word), order.Perm ram.usedWords →
        (zeroed ram.size).storeAll order = .ok ram) := by
  refine ⟨usedWords_ascending hsize, ?_, fun addr value => mem_usedWords_iff hsize, ?_⟩
  · rintro ⟨addr, value⟩ hmem
    have hread := ((mem_usedWords_iff hsize).mp hmem).1
    exact (ram.fault?_eq_none_iff.mp (ram.read_eq_ok_iff.mp hread).1).1
  · intro hwhole order horder
    exact (rebuilds_zeroed hsize horder).storeAll_eq hsize hwhole

/-- Four words, of which the second and the last are not zero. -/
def sparse : Ram := ⟨#[0, 0, 0, 0, 0xEF, 0xBE, 0xAD, 0xDE, 0, 0, 0, 0, 0, 0, 1, 0]⟩

/-- Its used words make it up again from the last one on. -/
theorem usedWords_tell_memory_sparse :
    sparse.size ≤ 0x100000000 ∧ sparse.size % 4 = 0
      ∧ sparse.usedWords = [(4, 0xDEADBEEF), (12, 0x10000)]
      ∧ (zeroed 16).storeAll [(12, 0x10000), (4, 0xDEADBEEF)] = .ok sparse := by
  have hwords : sparse.usedWords = [(4, 0xDEADBEEF), (12, 0x10000)] := by decide
  have hsize : sparse.size ≤ 0x100000000 := by decide
  refine ⟨hsize, rfl, hwords, ?_⟩
  refine (usedWords_tell_memory sparse hsize).2.2.2 rfl _ ?_
  rw [hwords]
  exact List.Perm.swap _ _ []

end Ram

end Armlet
