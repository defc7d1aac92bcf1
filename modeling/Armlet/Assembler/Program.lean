import Armlet.Assembler.Listing

/-!
# Programs

What assembly delivers: the words of the lines, the literal pool behind them, and
the labels. The words become an image to be loaded at address 0.
-/

namespace Armlet

/-- An assembled program. -/
structure Program where
  words : List Word
  labels : SymbolTable

namespace Program

/-- Assembles a token stream. -/
def ofTokens (tokens : List Token) : Except Diagnostic Program := do
  let layout := Layout.ofTokens tokens
  let words ← (Listing.ofTokens layout tokens).words
  .ok ⟨words, layout.labels⟩

/-- Assembles a source text. -/
def ofSource (source : String) : Except Diagnostic Program := ofTokens (tokenize source)

/-- The bytes of a program in the order memory holds them. -/
def image (p : Program) : List Byte := p.words.flatMap Word.bytes

end Program

end Armlet
