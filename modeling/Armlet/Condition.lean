/-!
# Conditions

The top four bits of a word say when its instruction takes effect. `al` stands
for always and `nv` for never; the other fourteen read the flags, see
`Condition.holds`.
-/

namespace Armlet

/-- The conditions, by their suffixes. -/
inductive Condition where
  | eq | ne | cs | cc | mi | pl | vs | vc
  | hi | ls | ge | lt | gt | le | al | nv
  deriving DecidableEq, Repr

namespace Condition

/-- The conditions in the order of their codes. -/
def all : Vector Condition 16 :=
  #v[eq, ne, cs, cc, mi, pl, vs, vc, hi, ls, ge, lt, gt, le, al, nv]

/-- The 4-bit code of a condition. -/
def bits : Condition → BitVec 4
  | eq => 0x0 | ne => 0x1 | cs => 0x2 | cc => 0x3
  | mi => 0x4 | pl => 0x5 | vs => 0x6 | vc => 0x7
  | hi => 0x8 | ls => 0x9 | ge => 0xA | lt => 0xB
  | gt => 0xC | le => 0xD | al => 0xE | nv => 0xF

/-- The condition with a given code. Every code has one. -/
def ofBits (b : BitVec 4) : Condition := all.get b.toFin

@[simp]
theorem ofBits_bits (c : Condition) : ofBits c.bits = c := by cases c <;> rfl

@[simp]
theorem bits_ofBits : ∀ b : BitVec 4, (ofBits b).bits = b := by decide

/-- What a mnemonic carries at its end to name the condition. The usual one, `al`, is left out. -/
def suffix : Condition → String
  | eq => "eq" | ne => "ne" | cs => "cs" | cc => "cc"
  | mi => "mi" | pl => "pl" | vs => "vs" | vc => "vc"
  | hi => "hi" | ls => "ls" | ge => "ge" | lt => "lt"
  | gt => "gt" | le => "le" | al => "" | nv => "nv"

/-- The name of a condition in a log record. -/
def label : Condition → String
  | eq => "Eq" | ne => "Ne" | cs => "Cs" | cc => "Cc"
  | mi => "Mi" | pl => "Pl" | vs => "Vs" | vc => "Vc"
  | hi => "Hi" | ls => "Ls" | ge => "Ge" | lt => "Lt"
  | gt => "Gt" | le => "Le" | al => "Al" | nv => "Nv"

end Condition

end Armlet
