import Armlet.Assembler.SymbolTable
import Armlet.Assembler.Tokens

/-!
# Layout

The first pass over a program: where its lines stand and what its labels mean.
Every line takes up one word, whether it says anything or not, and a label stands
for the address of the line it is on. The pass ends at the first end-of-file token.

A label behind the last end of line still counts. It gets the address behind the
last line, which is where the literal pool begins.
-/

namespace Armlet

/-- Where labels and lines stand. -/
structure Layout where
  /-- Every binding of a label, in source order. -/
  bindings : List (String × Word)
  /-- The address behind the last line. -/
  finish : Word
  deriving DecidableEq, Repr

namespace Layout

/-- The layout of tokens whose first line stands at `addr`. -/
def scan (addr : Word) : List Token → Layout
  | [] => ⟨[], addr⟩
  | t :: ts =>
    match t.kind with
    | .label =>
      let rest := scan addr ts
      { rest with bindings := (t.text, addr) :: rest.bindings }
    | .newline => scan (addr + 4) ts
    | .endOfFile => ⟨[], addr⟩
    | _ => scan addr ts

/-- The layout of a program, which starts at address 0. -/
def ofTokens (tokens : List Token) : Layout := scan 0 tokens

/-- The table of labels: of several bindings of one name the last one counts. -/
def labels (layout : Layout) : SymbolTable := SymbolTable.empty.insertAll layout.bindings

end Layout

end Armlet
