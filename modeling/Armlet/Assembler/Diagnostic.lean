import Armlet.Text.Numeral

/-!
# Diagnostics

What can be wrong with a source line, and the line it was found on. A diagnostic
carries at most one line number: the first that it is given stays.
-/

namespace Armlet

/-- What is wrong with a line. -/
inductive SourceError where
  /-- A name that is neither known nor defined. -/
  | unknownSymbol (name : String)
  /-- A numeral that cannot be read. -/
  | malformedLiteral (text : String)
  | missingOperand (mnemonic : String) (expected : Nat)
  | unexpectedOperand (text : String)
  /-- A number that does not fit the place it is meant for. -/
  | unencodable (value : Int)
  deriving DecidableEq, Repr

/-- The error in words. -/
def SourceError.message : SourceError → String
  | unknownSymbol name => "unknown symbol `" ++ name ++ "`"
  | malformedLiteral text => "malformed literal `" ++ text ++ "`"
  | missingOperand mnemonic expected =>
    "`" ++ mnemonic ++ "` expects " ++ Numeral.decimal expected ++ " operand(s)"
  | unexpectedOperand text => "unexpected operand `" ++ text ++ "`"
  | unencodable value => Numeral.signedDecimal value ++ " cannot be encoded in this operand"

/-- An error and the number of the line it was found on, if that is known. -/
structure Diagnostic where
  cause : SourceError
  line : Option Nat
  deriving DecidableEq, Repr

namespace Diagnostic

/-- An error whose line is not known yet. -/
def ofError (cause : SourceError) : Diagnostic := ⟨cause, none⟩

/-- Gives a diagnostic its line, unless it has one. -/
def withLine (d : Diagnostic) (line : Nat) : Diagnostic := ⟨d.cause, d.line.or (some line)⟩

/-- The diagnostic in words, the line first if it is known. -/
def message (d : Diagnostic) : String :=
  match d.line with
  | none => d.cause.message
  | some line => "line " ++ Numeral.decimal line ++ ": " ++ d.cause.message

end Diagnostic

end Armlet
