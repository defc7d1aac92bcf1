import Armlet.Text.Split

/-!
# Tokens

A source text is a sequence of lines. A semicolon starts a comment that reaches to
the end of its line; what is left is cut into words at blanks, tabs, commas,
brackets and line ends. Brackets and commas therefore carry no meaning of their
own: `[r1, #4]` is the same two words as `r1 #4`.

A word is a label if it ends in a colon, else a literal if it starts with `#`,
else an expression if it starts with `=`, else a plain name. The mark is not part
of the token's text. Every line yields its words and one end-of-line token, and
the whole text is closed by an end-of-file token.
-/

namespace Armlet

/-- What a token is, as far as its mark tells. -/
inductive TokenKind where
  /-- A name for the address of the line, written with a colon after it. -/
  | label
  /-- A number, written with `#` before it. -/
  | literal
  /-- A value to be loaded, written with `=` before it. -/
  | expression
  /-- A mnemonic, a register, a shift, or the name of a label that is used. -/
  | name
  | newline
  | endOfFile
  deriving DecidableEq, Repr

/-- A word of a line without its mark, or the end of a line or of the source. -/
structure Token where
  kind : TokenKind
  text : String
  deriving DecidableEq, Repr

namespace Token

/-- The end of a line. -/
def newline : Token := ⟨.newline, "nl"⟩

/-- The end of the source. -/
def endOfFile : Token := ⟨.endOfFile, "end"⟩

/-- The characters that stand between words. -/
def separates (c : Char) : Bool :=
  c == ' ' || c == '\t' || c == ',' || c == '[' || c == ']' || c == '\r' || c == '\n'

/-- Reads the mark of a word. A colon at its end counts before a mark at its start. -/
def ofWord (word : List Char) : Token :=
  if word.getLast? = some ':' then ⟨.label, String.ofList word.dropLast⟩
  else match word with
    | '#' :: rest => ⟨.literal, String.ofList rest⟩
    | '=' :: rest => ⟨.expression, String.ofList rest⟩
    | _ => ⟨.name, String.ofList word⟩

/-- The words of a line, up to its comment. -/
def words (line : List Char) : List (List Char) :=
  (pieces separates (line.takeWhile (· != ';'))).filter (!·.isEmpty)

/-- The tokens of one line, its end included. -/
def ofLine (line : List Char) : List Token := (words line).map ofWord ++ [newline]

/-- The tokens of several lines, closed by the end of the source. -/
def ofLines (lines : List (List Char)) : List Token := lines.flatMap ofLine ++ [endOfFile]

/-- The lines of a source text. A line end closes a line, so none follows the last one. -/
def sourceLines (source : List Char) : List (List Char) :=
  let lines := pieces (· == '\n') source
  if lines.getLast? = some [] then lines.dropLast else lines

end Token

/-- The tokens of a source text. -/
def tokenize (source : String) : List Token := Token.ofLines (Token.sourceLines source.toList)

end Armlet
