import Armlet.Assembler.Listing
import Std.Data.TreeMap.Lemmas

/-!
# What the first pass settles

The first pass counts ends of lines, the second cuts the tokens at them, and
both stop at the first end-of-file token. So the address at which the first pass
ends is the one behind the last line of the second, and that is where the
literal pool begins.

A line takes four bytes, so every address that is given to a label is a multiple
of four, whatever the tokens are.
-/

namespace Armlet

/-! ## Looking up what was bound -/

namespace SymbolTable

theorem find?_empty (name : String) : empty.find? name = none :=
  Std.TreeMap.getElem?_emptyc

theorem find?_insert (table : SymbolTable) (name name' : String) (addr : Word) :
    (table.insert name addr).find? name' = if name = name' then some addr else table.find? name' := by
  unfold insert find?
  rw [Std.TreeMap.getElem?_insert]
  simp only [Std.compare_eq_iff_eq]

/-- The address a name was bound to last. -/
theorem find?_insertAll (table : SymbolTable) (bindings : List (String × Word)) (name : String) :
    (table.insertAll bindings).find? name
      = (bindings.reverse.lookup name).or (table.find? name) := by
  induction bindings generalizing table with
  | nil => rfl
  | cons binding bindings ih =>
    obtain ⟨bound, addr⟩ := binding
    rw [List.reverse_cons, List.lookup_append, Option.or_assoc]
    refine (ih (table.insert bound addr)).trans (congrArg _ ?_)
    rw [find?_insert, List.lookup_cons]
    by_cases hname : bound = name
    · rw [if_pos hname, beq_iff_eq.mpr hname.symm]
      rfl
    · rw [if_neg hname, beq_eq_false_iff_ne.mpr (Ne.symm hname)]
      rfl

/-- What is found has been bound. -/
theorem mem_of_find?_insertAll {table : SymbolTable} {bindings : List (String × Word)}
    {name : String} {addr : Word} (h : (table.insertAll bindings).find? name = some addr) :
    (name, addr) ∈ bindings ∨ table.find? name = some addr := by
  rw [find?_insertAll, Option.or_eq_some_iff] at h
  rcases h with hlast | ⟨_, hfind⟩
  · obtain ⟨before, behind, heq, _⟩ := List.lookup_eq_some_iff.mp hlast
    refine .inl (List.mem_reverse.mp ?_)
    rw [heq]
    exact List.mem_append_right _ List.mem_cons_self
  · exact .inr hfind

theorem lookup_eq_ok_iff {table : SymbolTable} {name : String} {addr : Word} :
    table.lookup name = .ok addr ↔ table.find? name = some addr := by
  unfold lookup
  split
  · rename_i a ha
    simp [ha]
  · rename_i ha
    simp [ha]

end SymbolTable

/-! ## Lines and addresses -/

namespace Token

/-- The ends of lines before the first end-of-file token. -/
def lineCount (tokens : List Token) : Nat :=
  (tokens.takeWhile (·.kind != .endOfFile)).countP (·.kind == .newline)

/-- The second pass cuts one line for each of them. -/
theorem length_lines (tokens : List Token) : (lines tokens).length = lineCount tokens := by
  rw [lines, List.length_dropLast, length_pieces, Nat.add_sub_cancel, lineCount]

theorem lineCount_cons (t : Token) (ts : List Token) :
    lineCount (t :: ts) = if t.kind = .endOfFile then 0
      else lineCount ts + if t.kind = .newline then 1 else 0 := by
  unfold lineCount
  by_cases heof : t.kind = .endOfFile
  · simp [heof]
  · rw [List.takeWhile_cons_of_pos (by simpa using heof), List.countP_cons, if_neg heof]
    simp

end Token

namespace Layout

/-- The first pass ends behind the last line. -/
theorem finish_scan (tokens : List Token) (addr : Word) :
    (scan addr tokens).finish = addr + BitVec.ofNat 32 (4 * Token.lineCount tokens) := by
  induction tokens generalizing addr with
  | nil => simp [scan, Token.lineCount]
  | cons t ts ih =>
    rw [Token.lineCount_cons, scan]
    split
    · rename_i hkind
      simp [hkind, ih]
    · rename_i hkind
      rw [ih, hkind, if_neg (by decide), if_pos rfl, BitVec.add_assoc]
      congr 1
      apply BitVec.eq_of_toNat_eq
      simp
      omega
    · rename_i hkind
      simp [hkind]
    · rename_i hlabel hnewline heof
      rw [ih, if_neg heof, if_neg hnewline, Nat.add_zero]

theorem finish_ofTokens (tokens : List Token) :
    (ofTokens tokens).finish = Listing.lineAddress (Token.lineCount tokens) := by
  rw [ofTokens, finish_scan, Listing.lineAddress]
  exact BitVec.zero_add _

/-- Every label of a program whose first address is a multiple of four is at one. -/
theorem aligned_of_mem_scan {tokens : List Token} {addr : Word} (haddr : addr.toNat % 4 = 0)
    {b : String × Word} (h : b ∈ (scan addr tokens).bindings) : b.2.toNat % 4 = 0 := by
  induction tokens generalizing addr with
  | nil => cases h
  | cons t ts ih =>
    rw [scan] at h
    split at h
    · rcases List.mem_cons.mp h with rfl | hmem
      · exact haddr
      · exact ih haddr hmem
    · refine ih ?_ h
      rw [BitVec.toNat_add]
      have : (4 : Word).toNat = 4 := rfl
      omega
    · cases h
    · exact ih haddr h

theorem aligned_labels {tokens : List Token} {name : String} {addr : Word}
    (h : (ofTokens tokens).labels.lookup name = .ok addr) : addr.toNat % 4 = 0 := by
  rw [SymbolTable.lookup_eq_ok_iff] at h
  rcases SymbolTable.mem_of_find?_insertAll h with hmem | hfind
  · exact aligned_of_mem_scan rfl hmem
  · rw [SymbolTable.find?_empty] at hfind
    cases hfind

end Layout

end Armlet
