/-!
# Numerals

Writing and reading numbers. Decimal numerals may carry a sign when read;
hexadecimal ones are lower case when written and of either case when read.
Only the ASCII digits are digits, and blanks or separators between them are not
allowed.
-/

namespace Armlet

namespace Numeral

/-! ## Writing -/

/-- A decimal numeral. -/
def decimal (n : Nat) : String := n.repr

/-- A decimal numeral with a minus sign before a negative number. -/
def signedDecimal : Int → String
  | .ofNat n => decimal n
  | .negSucc n => "-" ++ decimal (n + 1)

/-- Hexadecimal digits, at least `width` of them. -/
def hexDigits (width : Nat) (n : Nat) : String :=
  String.ofList ((Nat.toDigits 16 n).leftpad width '0')

/-- A hexadecimal numeral with its `0x` and at least `width` digits. -/
def hex (width : Nat) (n : Nat) : String := "0x" ++ hexDigits width n

/-! ## Reading -/

/-- The value of a digit in a base of at most sixteen. -/
def digitValue? (base : Nat) (c : Char) : Option Nat :=
  let value? :=
    if '0' ≤ c ∧ c ≤ '9' then some (c.toNat - '0'.toNat)
    else if 'a' ≤ c ∧ c ≤ 'f' then some (c.toNat - 'a'.toNat + 10)
    else if 'A' ≤ c ∧ c ≤ 'F' then some (c.toNat - 'A'.toNat + 10)
    else none
  value?.filter (· < base)

/-- The value of one or more digits, the first one weighing most. -/
def natural? (base : Nat) (cs : List Char) : Option Nat :=
  if cs.isEmpty then none
  else cs.foldlM (fun value c => (digitValue? base c).map (value * base + ·)) 0

/-- One or more digits after an optional plus sign. -/
def unsigned? (base : Nat) : List Char → Option Nat
  | '+' :: cs => natural? base cs
  | cs => natural? base cs

/-- One or more decimal digits after an optional sign. -/
def signed? : List Char → Option Int
  | '-' :: cs => (natural? 10 cs).map fun n => -(n : Int)
  | cs => (unsigned? 10 cs).map fun n => (n : Int)

/-- A signed decimal numeral whose value fits 64 bits. -/
def int64? (cs : List Char) : Option Int :=
  (signed? cs).filter fun n => -0x8000000000000000 ≤ n ∧ n < 0x8000000000000000

/-- A hexadecimal numeral, without its `0x`, whose value fits a word. -/
def hexWord? (cs : List Char) : Option (BitVec 32) :=
  ((unsigned? 16 cs).filter (· < 0x100000000)).map (BitVec.ofNat 32)

end Numeral

end Armlet
