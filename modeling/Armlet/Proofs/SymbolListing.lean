import Mathlib.Data.Finset.Card
import Mathlib.Data.List.Lex
import Armlet.Proofs.Lines

/-!
# The listing of a symbol table

A symbol table is a finite map, and a map has no order of its own. Its listing has one: by
address, and where names share an address, by the bytes of the names. No two entries tie in
this order because no two of them have the same name, so there is only one way to list a table,
and it does not matter in which order the entries come out of the map.

Names are compared by their characters. This is the order of their bytes as well: of two
characters the greater one has the greater bytes, whatever follows them
(`lex_utf8EncodeChar`).

So a listing shows what was bound and nothing else: each name once, with the address it was
bound to last.
-/

namespace Armlet

/-! ## Characters and their bytes -/

/-- A code of the numbers below `bound` by bytes that are in the order of the numbers, whatever
follows the bytes. -/
def KeepsOrder (code : Nat → List UInt8) (bound : Nat) : Prop :=
  ∀ m n, m < n → n < bound →
    ∀ xs ys, List.Lex (· < ·) (code m ++ xs) (code n ++ ys)

theorem ofNat_lt_ofNat {m n : Nat} (h : m < n) (hn : n < 0x100) : UInt8.ofNat m < UInt8.ofNat n := by
  rw [UInt8.lt_iff_toNat_lt, UInt8.toNat_ofNat_of_lt' (Nat.lt_trans h hn),
    UInt8.toNat_ofNat_of_lt' hn]
  exact h

/-- One byte that is marked by an offset. -/
theorem keepsOrder_lead (bound offset : Nat) (h : bound + offset ≤ 0x100) :
    KeepsOrder (fun v => [UInt8.ofNat (v % bound + offset)]) bound := by
  intro m n hlt hn xs ys
  refine .rel (ofNat_lt_ofNat ?_ ?_)
  · rw [Nat.mod_eq_of_lt (Nat.lt_trans hlt hn), Nat.mod_eq_of_lt hn]
    omega
  · rw [Nat.mod_eq_of_lt hn]
    omega

/-- A continuation byte takes six more bits. -/
theorem KeepsOrder.continued {code : Nat → List UInt8} {bound : Nat} (h : KeepsOrder code bound) :
    KeepsOrder (fun v => code (v / 64) ++ [UInt8.ofNat (v % 64 + 128)]) (bound * 64) := by
  intro m n hlt hn xs ys
  dsimp only
  rw [List.append_assoc, List.append_assoc]
  by_cases hhigh : m / 64 < n / 64
  · exact h _ _ hhigh (by omega) _ _
  · -- the bytes before are the same, and the last one decides
    have heq : m / 64 = n / 64 := by omega
    rw [heq]
    exact .append_left _ (.rel (ofNat_lt_ofNat (by omega) (by omega))) _

/-- **Bytes are in the order of characters**, whatever follows. -/
theorem lex_utf8EncodeChar {c d : Char} (h : c < d) (xs ys : List UInt8) :
    List.Lex (· < ·) (String.utf8EncodeChar c ++ xs) (String.utf8EncodeChar d ++ ys) := by
  have hlt : c.val.toNat < d.val.toNat := h
  have hd : d.val.toNat < 0x110000 := by
    have hvalid := d.valid
    unfold UInt32.isValidChar Nat.isValidChar at hvalid
    omega
  have htwo := (keepsOrder_lead 32 192 (by decide)).continued
  have hthree := (keepsOrder_lead 16 224 (by decide)).continued.continued
  have hfour := (keepsOrder_lead 8 240 (by decide)).continued.continued.continued
  unfold String.utf8EncodeChar
  dsimp only
  generalize c.val.toNat = m at hlt
  generalize d.val.toNat = n at hlt hd
  -- the first byte tells how many there are, and more bytes have a greater one
  split
  · -- one byte
    split
    · exact .rel (ofNat_lt_ofNat hlt (by omega))
    · split
      · exact .rel (ofNat_lt_ofNat (by omega) (by omega))
      · split
        · exact .rel (ofNat_lt_ofNat (by omega) (by omega))
        · exact .rel (ofNat_lt_ofNat (by omega) (by omega))
  · rw [if_neg (show ¬ n ≤ 127 by omega)]
    split
    · -- two bytes
      split
      · exact htwo m n hlt (by omega) xs ys
      · split
        · exact .rel (ofNat_lt_ofNat (by omega) (by omega))
        · exact .rel (ofNat_lt_ofNat (by omega) (by omega))
    · rw [if_neg (show ¬ n ≤ 2047 by omega)]
      split
      · -- three bytes
        split
        · have hbytes := hthree m n hlt (by omega) xs ys
          simp only [Nat.div_div_eq_div_mul] at hbytes
          exact hbytes
        · exact .rel (ofNat_lt_ofNat (by omega) (by omega))
      · -- four bytes
        rw [if_neg (show ¬ n ≤ 65535 by omega)]
        have hbytes := hfour m n hlt (by omega) xs ys
        simp only [Nat.div_div_eq_div_mul] at hbytes
        exact hbytes

namespace SymbolTable

/-! ## The order of a listing -/

/-- The bytes of a name. -/
def nameBytes (name : String) : List UInt8 := name.toUTF8.data.toList

theorem nameBytes_eq (name : String) :
    nameBytes name = name.toList.flatMap String.utf8EncodeChar := by
  rw [nameBytes, String.toUTF8_eq_toByteArray, ← String.utf8Encode_toList, List.utf8Encode,
    List.toList_data_toByteArray]

theorem lex_nameBytes {s t : String} (h : s < t) :
    List.Lex (· < ·) (nameBytes s) (nameBytes t) := by
  rw [nameBytes_eq, nameBytes_eq]
  have hchars : List.Lex (· < ·) s.toList t.toList := String.lt_iff.mp h
  generalize s.toList = cs at hchars
  generalize t.toList = ds at hchars
  induction hchars with
  | @nil d ds =>
    rw [List.flatMap_cons]
    cases hd : String.utf8EncodeChar d with
    | nil => exact absurd hd String.utf8EncodeChar_ne_nil
    | cons byte bytes => exact .nil
  | cons _ ih =>
    rw [List.flatMap_cons, List.flatMap_cons]
    exact .append_left _ ih _
  | rel hlt =>
    rw [List.flatMap_cons, List.flatMap_cons]
    exact lex_utf8EncodeChar hlt _ _

/-- One entry stands before another: by address, and where they share it, by the bytes of the
names. -/
def Precedes (a b : String × Word) : Prop :=
  a.2 < b.2 ∨ a.2 = b.2 ∧ List.Lex (· < ·) (nameBytes a.1) (nameBytes b.1)

theorem entryLe_iff {a b : String × Word} :
    entryLe a b = true ↔ a.2 < b.2 ∨ a.2 = b.2 ∧ a.1 ≤ b.1 := by
  rw [entryLe, Bool.or_eq_true, Bool.and_eq_true, decide_eq_true_eq, decide_eq_true_eq,
    beq_iff_eq]

theorem entryLe_trans (a b c : String × Word) (hab : entryLe a b = true)
    (hbc : entryLe b c = true) : entryLe a c = true := by
  rw [entryLe_iff] at hab hbc ⊢
  rcases hab with hab | ⟨hab, hname⟩
  · rcases hbc with hbc | ⟨hbc, _⟩
    · exact .inl (BitVec.lt_trans hab hbc)
    · exact .inl (hbc ▸ hab)
  · rcases hbc with hbc | ⟨hbc, hname'⟩
    · exact .inl (hab ▸ hbc)
    · exact .inr ⟨hab.trans hbc, String.le_trans hname hname'⟩

theorem entryLe_total (a b : String × Word) : (entryLe a b || entryLe b a) = true := by
  rw [Bool.or_eq_true, entryLe_iff, entryLe_iff]
  rcases BitVec.lt_trichotomy a.2 b.2 with hlt | heq | hlt
  · exact .inl (.inl hlt)
  · rcases String.le_total a.1 b.1 with hle | hle
    · exact .inl (.inr ⟨heq, hle⟩)
    · exact .inr (.inr ⟨heq.symm, hle⟩)
  · exact .inr (.inl hlt)

/-- No two entries tie. -/
theorem entryLe_antisymm {a b : String × Word} (hab : entryLe a b = true)
    (hba : entryLe b a = true) : a = b := by
  rw [entryLe_iff] at hab hba
  rcases hab with hab | ⟨haddr, hname⟩
  · rcases hba with hba | ⟨haddr, _⟩
    · exact absurd hba (BitVec.lt_asymm hab)
    · exact absurd hab (haddr ▸ BitVec.lt_irrefl _)
  · rcases hba with hba | ⟨_, hname'⟩
    · exact absurd hba (haddr ▸ BitVec.lt_irrefl _)
    · exact Prod.ext (String.le_antisymm hname hname') haddr

theorem precedes_of_entryLe {a b : String × Word} (hle : entryLe a b = true) (hne : a.1 ≠ b.1) :
    Precedes a b := by
  rcases entryLe_iff.mp hle with haddr | ⟨haddr, hname⟩
  · exact .inl haddr
  · refine .inr ⟨haddr, lex_nameBytes (String.not_le.mp fun hname' => ?_)⟩
    exact hne (String.le_antisymm hname hname')

/-! ## The entries of a table -/

variable {table table' : SymbolTable} {bindings : List (String × Word)}

theorem mem_entries_iff {name : String} {addr : Word} :
    (name, addr) ∈ table.entries.toList ↔ table.find? name = some addr :=
  Std.TreeMap.mem_toList_iff_getElem?_eq_some

/-- Each name has one entry. -/
theorem nodup_names_of_perm {entries : List (String × Word)}
    (h : entries.Perm table.entries.toList) : (entries.map Prod.fst).Nodup := by
  refine (h.map Prod.fst).nodup_iff.mpr (List.pairwise_map.mpr ?_)
  refine table.entries.distinct_keys_toList.imp fun hne heq => hne ?_
  rw [heq]
  exact Std.compare_self

/-- **However the entries come out of the table**, they are listed in the same way. -/
theorem mergeSort_eq_listing {entries : List (String × Word)}
    (h : entries.Perm table.entries.toList) : entries.mergeSort entryLe = table.listing := by
  refine List.Perm.eq_of_pairwise (fun a b _ _ => entryLe_antisymm)
    (List.pairwise_mergeSort entryLe_trans entryLe_total entries)
    (List.pairwise_mergeSort entryLe_trans entryLe_total table.entries.toList) ?_
  exact (List.mergeSort_perm _ _).trans (h.trans (List.mergeSort_perm _ _).symm)

theorem listing_perm (table : SymbolTable) : table.listing.Perm table.entries.toList :=
  List.mergeSort_perm _ _

theorem mem_listing_iff {name : String} {addr : Word} :
    (name, addr) ∈ table.listing ↔ table.find? name = some addr := by
  rw [table.listing_perm.mem_iff, mem_entries_iff]

theorem listing_ascending (table : SymbolTable) : table.listing.Pairwise Precedes := by
  have hsorted := List.pairwise_mergeSort entryLe_trans entryLe_total table.entries.toList
  have hnames := List.pairwise_map.mp (nodup_names_of_perm table.listing_perm)
  exact List.Pairwise.imp₂ (fun _ _ => precedes_of_entryLe) hsorted hnames

/-- A listing is a matter of what is bound. -/
theorem listing_congr (h : ∀ name, table.find? name = table'.find? name) :
    table.listing = table'.listing := by
  have hnodup : ∀ table : SymbolTable, table.entries.toList.Nodup :=
    fun table => List.Nodup.of_map _ (nodup_names_of_perm (.refl _))
  refine mergeSort_eq_listing ?_
  refine (List.perm_ext_iff_of_nodup (hnodup table) (hnodup table')).mpr ?_
  rintro ⟨name, addr⟩
  rw [mem_entries_iff, mem_entries_iff, h]

/-! ## A table and what was bound -/

/-- What a table and its listing show of the bindings that were made. -/
structure ShowsLastBindings (bindings : List (String × Word)) (table : SymbolTable) : Prop where
  /-- Every entry stands before those behind it, and none of them ties with another. -/
  ascending : table.listing.Pairwise Precedes
  /-- A name is listed with the address it was bound to last, and with no other. -/
  mem_listing : ∀ name addr, (name, addr) ∈ table.listing
    ↔ bindings.reverse.lookup name = some addr
  names_nodup : (table.listing.map Prod.fst).Nodup
  /-- The size is the number of names that were bound, each counted once. -/
  size_eq : table.size = (bindings.map Prod.fst).toFinset.card
  length_listing : table.listing.length = table.size
  /-- A name is found if it is listed, and it is found with the address it is listed with. -/
  lookup_eq_ok : ∀ name addr, table.lookup name = .ok addr ↔ (name, addr) ∈ table.listing
  lookup_eq_error : ∀ name, table.lookup name = .error (.unknownSymbol name)
    ↔ name ∉ table.listing.map Prod.fst
  /-- The listing depends on the last binding of each name and on nothing else: not on the other
  bindings, and not on the order in which a table gives its entries. -/
  sorted_eq : ∀ bindings' entries : List (String × Word),
    (∀ name, bindings'.reverse.lookup name = bindings.reverse.lookup name) →
    entries.Perm (empty.insertAll bindings').entries.toList →
    entries.mergeSort entryLe = table.listing

theorem find?_insertAll_empty (bindings : List (String × Word)) (name : String) :
    (empty.insertAll bindings).find? name = bindings.reverse.lookup name := by
  rw [find?_insertAll, find?_empty, Option.or_none]

theorem exists_mem_listing_iff {name : String} :
    name ∈ table.listing.map Prod.fst ↔ ∃ addr, table.find? name = some addr := by
  simp only [List.mem_map, Prod.exists, exists_and_right, exists_eq_right, mem_listing_iff]

/-- The names of a listing are the ones that have been bound. -/
theorem mem_names_iff {name : String} :
    name ∈ (empty.insertAll bindings).listing.map Prod.fst ↔ name ∈ bindings.map Prod.fst := by
  rw [exists_mem_listing_iff, find?_insertAll_empty, ← Option.isSome_iff_exists,
    List.lookup_isSome_iff]
  simp

theorem lookup_eq_error_iff {name : String} :
    table.lookup name = .error (.unknownSymbol name) ↔ table.find? name = none := by
  unfold lookup
  split
  · rename_i addr haddr
    simp [haddr]
  · rename_i haddr
    simp [haddr]

/--
**A listing shows the last bindings.** Let names be bound one after another, some of them
more than once and some to the same address. The listing of the table ascends without a tie,
and it holds each name once, with its last address. The size of the table and what is looked up
in it agree with that, and no other order of the entries or of the bindings gives another
listing as long as the last bindings are the same.
-/
theorem showsLastBindings_insertAll (bindings : List (String × Word)) :
    ShowsLastBindings bindings (empty.insertAll bindings) where
  ascending := listing_ascending _
  mem_listing := fun name addr => by rw [mem_listing_iff, find?_insertAll_empty]
  names_nodup := nodup_names_of_perm (listing_perm _)
  size_eq := by
    have hnodup := nodup_names_of_perm (empty.insertAll bindings).listing_perm
    have hnames : ((empty.insertAll bindings).listing.map Prod.fst).toFinset
        = (bindings.map Prod.fst).toFinset := by
      refine Finset.ext fun name => ?_
      rw [List.mem_toFinset, List.mem_toFinset, mem_names_iff]
    rw [← hnames, List.toFinset_card_of_nodup hnodup, List.length_map,
      (listing_perm _).length_eq, Std.TreeMap.length_toList]
    rfl
  length_listing := (listing_perm _).length_eq.trans Std.TreeMap.length_toList
  lookup_eq_ok := fun name addr => by rw [lookup_eq_ok_iff, mem_listing_iff]
  lookup_eq_error := by
    intro name
    rw [lookup_eq_error_iff, exists_mem_listing_iff, ← Option.isSome_iff_exists,
      Option.not_isSome_iff_eq_none]
  sorted_eq := by
    intro bindings' entries hlast hentries
    refine (mergeSort_eq_listing hentries).trans (listing_congr fun name => ?_)
    rw [find?_insertAll_empty, find?_insertAll_empty, hlast]

end SymbolTable

end Armlet
