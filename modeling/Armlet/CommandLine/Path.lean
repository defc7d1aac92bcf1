import Armlet.CommandLine.Command
import Armlet.Text.Split

/-!
# Paths

A path is a text that leads to a file or a directory by steps with slashes between
them. A slash at the front makes it start at the root. Elsewhere several slashes are
worth one, and a slash behind the last name asks for a directory.

The last name is kept apart from the steps before it: a file to be written need not
be there, but the directory it goes into must.
-/

namespace Armlet

/-- A step from one directory. -/
inductive Step where
  /-- The step `.`. -/
  | stay
  /-- The step `..`. -/
  | up
  | into (name : String)
  deriving DecidableEq, Repr

/-- A path in its parts. -/
structure Path where
  fromRoot : Bool
  /-- The steps, all of which lead to directories. -/
  way : List Step
  /-- The name behind them, unless the path ends with `.` or `..` or is nothing but slashes. -/
  name : Option String
  /-- Whether the path ends with a slash. -/
  slashed : Bool
  deriving DecidableEq, Repr

namespace Step

/-- The step a piece between slashes stands for. -/
def ofPiece : List Char → Step
  | ['.'] => stay
  | ['.', '.'] => up
  | name => into (String.ofList name)

end Step

namespace Path

/-- The greatest length of a path, in bytes. -/
def maxLength : Nat := 4095

/-- The greatest length of a name, in bytes. -/
def maxNameLength : Nat := 255

/-- Takes a name off the end of the steps. -/
def splitName (steps : List Step) : List Step × Option String :=
  match steps.getLast? with
  | some (.into name) => (steps.dropLast, some name)
  | _ => (steps, none)

/-- Reads a path. The empty text leads nowhere. -/
def ofText (text : String) : Except FileFault Path :=
  if text = "" then .error .notFound
  else if maxLength < text.utf8ByteSize then .error .nameTooLong
  else
    let chars := text.toList
    let (way, name) := splitName
      (((pieces (· == '/') chars).filter (!·.isEmpty)).map Step.ofPiece)
    .ok ⟨chars.head? == some '/', way, name, chars.getLast? == some '/'⟩

/-- A name must not be too long to stand in a directory. -/
def checkName (name : String) : Except FileFault Unit :=
  if maxNameLength < name.utf8ByteSize then .error .nameTooLong else .ok ()

end Path

end Armlet
