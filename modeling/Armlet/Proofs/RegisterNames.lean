import Mathlib.Data.List.Basic
import Mathlib.Data.List.Induction
import Armlet.Proofs.Spelling
import Armlet.Register

/-!
# How registers are spelled

A register is found by its spelling in two ways. Three of them have names of their own, and
all of them have a number behind an `r`. Of the number every digit is looked at, however many
there are, so that `r007`, `r+7` and `r71` are no registers.

Digits without a needless zero are the numeral of the number they make
(`toDigits_ofDigitChars`), and a number has one numeral. So the number of a register is spelled
in one way, and a register in two ways at most.
-/

namespace Armlet

/-! ## Numerals without needless zeros -/

namespace Numeral

variable {c : Char} {cs : List Char}

theorem digitChar_of_isDigit (h : c.isDigit = true) : Nat.digitChar (c.toNat - '0'.toNat) = c := by
  have hlo : 48 ≤ c.toNat := (range_of_isDigit h).1
  have hzero : '0'.toNat = 48 := rfl
  refine Char.toNat_inj.mp ?_
  rw [Nat.toNat_digitChar_of_lt_ten (toNat_sub_lt_of_isDigit h)]
  omega

/-- Digits that do not begin with a needless zero are what is printed for their number. -/
theorem toDigits_ofDigitChars (hne : cs ≠ []) (hdigit : ∀ c ∈ cs, c.isDigit = true)
    (hzero : 1 < cs.length → cs.head? ≠ some '0') :
    Nat.toDigits 10 (Nat.ofDigitChars 10 cs 0) = cs := by
  -- the last digit is split off, and the others make up a numeral of the same kind
  induction cs using List.reverseRecOn with
  | nil => exact absurd rfl hne
  | append_singleton cs c ih =>
    have hc : c.isDigit = true := hdigit c (by simp)
    have hlt := toNat_sub_lt_of_isDigit hc
    rw [Nat.ofDigitChars_append, Nat.ofDigitChars_cons, Nat.ofDigitChars_nil]
    by_cases hnil : cs = []
    · rw [hnil, Nat.ofDigitChars_nil, Nat.mul_zero, Nat.zero_add, Nat.toDigits_of_lt_base hlt,
        digitChar_of_isDigit hc, List.nil_append]
    · have hhead : cs.head? ≠ some '0' := by
        have hlength := List.length_pos_iff.mpr hnil
        have hne := hzero (by rw [List.length_append, List.length_singleton]; omega)
        rwa [List.head?_append_of_ne_nil cs hnil] at hne
      have hcs := ih hnil (fun d hd => hdigit d (List.mem_append_left _ hd)) fun _ => hhead
      -- zero is printed as a zero, which the others do not begin with
      have hpos : 0 < Nat.ofDigitChars 10 cs 0 := by
        refine Nat.pos_of_ne_zero fun hn => hhead ?_
        rw [← hcs, hn]
        rfl
      rw [← Nat.toDigits_append_toDigits (by decide) hpos hlt, hcs, Nat.toDigits_of_lt_base hlt,
        digitChar_of_isDigit hc]

end Numeral

namespace Register

variable {s : String} {r : Register} {digits : List Char} {n : Nat}

/-! ## Numbers of registers -/

/-- The digits behind the `r` are the numeral of the number that is read. -/
theorem eq_toDigits_of_number? (h : number? digits = some n) : digits = Nat.toDigits 10 n := by
  unfold number? at h
  split at h
  · cases h
  · rename_i hspelled
    rw [Bool.or_eq_true, not_or, Bool.not_eq_true', Bool.not_eq_false, List.all_eq_true] at hspelled
    obtain ⟨hdigit, hzero⟩ := hspelled
    obtain ⟨hread, _⟩ := Option.filter_eq_some_iff.mp h
    rw [Numeral.unsigned?_of_isDigit hdigit] at hread
    have hne : digits ≠ [] := by
      rintro rfl
      cases hread
    rw [Numeral.natural?_of_isDigit hne hdigit] at hread
    cases hread
    refine (Numeral.toDigits_ofDigitChars hne hdigit fun hlength hhead => hzero ?_).symm
    rw [hhead, decide_eq_true hlength]
    rfl

theorem getElem?_all : all.toList[n]? = some r ↔ n = r.index.val := by
  have hindex : all.toList[r.index.val]? = some r := by cases r <;> rfl
  constructor
  · intro h
    have hlt : n < all.toList.length := (List.getElem?_eq_some_iff.mp h).1
    have hnodup : all.toList.Nodup := by decide
    exact (List.getElem?_inj hlt hnodup).mp (h.trans hindex.symm)
  · rintro rfl
    exact hindex

/-! ## Spellings -/

theorem ofName?_name (r : Register) : ofName? r.name = some r := by cases r <;> rfl

/-- What is found has been spelled by its name or by its number. -/
theorem name_or_number_of_ofName? (h : ofName? s = some r) :
    s = r.name ∨ s = "r" ++ Numeral.decimal r.index.val := by
  unfold ofName? at h
  split at h
  · cases h
    exact .inl rfl
  · cases h
    exact .inl rfl
  · cases h
    exact .inl rfl
  · split at h
    · rename_i digits hs
      obtain ⟨n, hn, hr⟩ := Option.bind_eq_some_iff.mp h
      rw [eq_toDigits_of_number? hn, getElem?_all.mp hr, ← Numeral.toList_decimal] at hs
      refine .inr (String.toList_injective ?_)
      rw [hs, String.toList_append]
      rfl
    · cases h

/--
**The spellings of a register.** They are the name it is printed with, and for the stack
pointer, the link register and the program counter also their numbers. Nothing else is taken
for a register: no number without digits, with needless zeros, with a sign, of sixteen or
more, however long, and no name in capital letters.
-/
theorem ofName?_eq_some_iff_spelled (s : String) (r : Register) :
    ofName? s = some r
      ↔ s = r.name ∨ s = "r13" ∧ r = sp ∨ s = "r14" ∧ r = lr ∨ s = "r15" ∧ r = pc := by
  constructor
  · intro h
    rcases name_or_number_of_ofName? h with hname | hnumber
    · exact .inl hname
    · cases r with
      | sp => exact .inr (.inl ⟨hnumber, rfl⟩)
      | lr => exact .inr (.inr (.inl ⟨hnumber, rfl⟩))
      | pc => exact .inr (.inr (.inr ⟨hnumber, rfl⟩))
      | _ => exact .inl hnumber
  · rintro (rfl | ⟨rfl, rfl⟩ | ⟨rfl, rfl⟩ | ⟨rfl, rfl⟩)
    · exact ofName?_name r
    · rfl
    · rfl
    · rfl

end Register

end Armlet
