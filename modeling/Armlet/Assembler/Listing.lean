import Armlet.Assembler.Layout
import Armlet.Assembler.Statement
import Armlet.Instruction.Encode

/-!
# Listings

The second pass encodes the lines of a program in order, against the labels of its
layout and with one literal pool for all of them. It breaks off at the first line
that cannot be encoded.

A line is what an end-of-line token closes. Words behind the last of these tokens
belong to no line, and like the first pass this one ends at the first end-of-file
token.
-/

namespace Armlet

namespace Token

/-- The lines of a token stream, without the tokens that end them. -/
def lines (tokens : List Token) : List (List Token) :=
  (pieces (·.kind == .newline) (tokens.takeWhile (·.kind != .endOfFile))).dropLast

/-- A line without its labels. -/
def withoutLabels (line : List Token) : List Token := line.filter (·.kind != .label)

end Token

/-- Reads and encodes a line at `addr`, given without its labels. -/
def Statement.assemble (labels : SymbolTable) (pool : LiteralPool) (addr : Word)
    (line : List Token) : Except SourceError Instruction × LiteralPool :=
  match Statement.parse labels line with
  | .ok statement => statement.encode pool addr
  | .error e => (.error e, pool)

/-- How far the second pass got. -/
structure Listing where
  /-- The instructions of the lines that were encoded, in order. -/
  instructions : List Instruction
  pool : LiteralPool
  /-- What stopped the pass before its end. -/
  failure : Option Diagnostic
  deriving DecidableEq, Repr

namespace Listing

/-- The address of a line, counted from 0. -/
def lineAddress (index : Nat) : Word := BitVec.ofNat 32 (4 * index)

/-- The listing of lines of which the first has the number `index`. -/
def ofLines (labels : SymbolTable) (pool : LiteralPool) (index : Nat) :
    List (List Token) → Listing
  | [] => ⟨[], pool, none⟩
  | line :: rest =>
    match Statement.assemble labels pool (lineAddress index) (Token.withoutLabels line) with
    | (.ok i, pool) =>
      let listing := ofLines labels pool (index + 1) rest
      { listing with instructions := i :: listing.instructions }
    | (.error e, pool) => ⟨[], pool, some ((Diagnostic.ofError e).withLine (index + 1))⟩

/-- The listing of a program whose layout is known. -/
def ofTokens (layout : Layout) (tokens : List Token) : Listing :=
  ofLines layout.labels (.empty layout.finish) 0 (Token.lines tokens)

/-- The words of the encoded lines. -/
def lineWords (listing : Listing) : List Word := listing.instructions.map Instruction.encode

/-- All words, the constants behind the lines, if every line could be encoded. -/
def words (listing : Listing) : Except Diagnostic (List Word) :=
  match listing.failure with
  | some d => .error d
  | none => .ok (listing.lineWords ++ listing.pool.words)

end Listing

end Armlet
