import Armlet.Text.Numeral

/-!
# JSON text

Values are written over several lines: two blanks of indentation a level, each
element and each member on a line of its own, and an empty array or object as a
pair of brackets. In a string the quote, the backslash and the control characters
below the blank are escaped, and nothing else is.
-/

namespace Armlet

/-- A JSON value. Numbers are natural numbers. -/
inductive Json where
  | null
  | number (n : Nat)
  | string (s : String)
  | array (items : List Json)
  /-- The members are written in the given order. -/
  | object (members : List (String × Json))

namespace Json

/-- A character as it stands in a string. -/
def escapeChar (c : Char) : String :=
  if c = '"' then "\\\""
  else if c = '\\' then "\\\\"
  else if c = '\n' then "\\n"
  else if c = '\r' then "\\r"
  else if c = '\t' then "\\t"
  else if c = '\x08' then "\\b"
  else if c = '\x0c' then "\\f"
  else if c.toNat < 0x20 then "\\u" ++ Numeral.hexDigits 4 c.toNat
  else String.singleton c

/-- A string with its quotes. -/
def quote (s : String) : String := "\"" ++ String.join (s.toList.map escapeChar) ++ "\""

/-- The start of a line. -/
def margin (depth : Nat) : String := String.ofList (List.replicate (2 * depth) ' ')

mutual

/-- The text of a value that stands on a line of the given depth. -/
def render (depth : Nat) : Json → String
  | .null => "null"
  | .number n => Numeral.decimal n
  | .string s => quote s
  | .array [] => "[]"
  | .array (item :: items) =>
    "[\n" ++ renderItems (depth + 1) (item :: items) ++ "\n" ++ margin depth ++ "]"
  | .object [] => "\x7b\x7d"
  | .object (member :: members) =>
    "\x7b\n" ++ renderMembers (depth + 1) (member :: members) ++ "\n" ++ margin depth ++ "\x7d"

/-- The elements of an array, each on a line of its own. -/
def renderItems (depth : Nat) : List Json → String
  | [] => ""
  | [item] => margin depth ++ render depth item
  | item :: items => margin depth ++ render depth item ++ ",\n" ++ renderItems depth items

/-- The members of an object, each on a line of its own. -/
def renderMembers (depth : Nat) : List (String × Json) → String
  | [] => ""
  | [(key, value)] => margin depth ++ quote key ++ ": " ++ render depth value
  | (key, value) :: members =>
    margin depth ++ quote key ++ ": " ++ render depth value ++ ",\n" ++ renderMembers depth members

end

/-- The text of a value. -/
def pretty (value : Json) : String := value.render 0

end Json

end Armlet
