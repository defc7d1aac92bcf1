/-!
# Commands

A command reads and writes files and ends with an exit status and two texts. It is
written for any store of files, so that it can be run on a disk as well as on a
table in memory.
-/

namespace Armlet

/-- Why a file could not be read or written. -/
inductive FileFault where
  | notFound
  /-- A step of the path leads into a file. -/
  | notDirectory
  | isDirectory
  | nameTooLong
  | noSpace
  | notUtf8
  /-- Any other reason, in the words of the system. -/
  | other (reason : String)
  deriving DecidableEq, Repr

/-- The fault in words. -/
def FileFault.message : FileFault → String
  | notFound => "No such file or directory (os error 2)"
  | notDirectory => "Not a directory (os error 20)"
  | isDirectory => "Is a directory (os error 21)"
  | nameTooLong => "File name too long (os error 36)"
  | noSpace => "No space left on device (os error 28)"
  | notUtf8 => "stream did not contain valid UTF-8"
  | other reason => reason

/-- A store of named files that commands of type `m` act on. -/
class FileStore (m : Type → Type) where
  readFile (name : String) : m (Except FileFault ByteArray)
  writeFile (name : String) (content : ByteArray) : m (Except FileFault Unit)

/-- How a command ended, and what it printed. -/
structure Exit where
  code : Nat
  out : String
  err : String
  deriving DecidableEq, Repr

/-- Why a command could not do its work, and the chain of causes behind it. -/
structure Failure where
  text : String
  causes : List String
  deriving DecidableEq, Repr

namespace Failure

/-- The causes under their heading. A single cause has no number. -/
def causesText : List String → String
  | [] => ""
  | [cause] => "\n\nCaused by:\n    " ++ cause
  | causes =>
    "\n\nCaused by:" ++ String.join (causes.zipIdx.map fun (cause, number) =>
      "\n    " ++ number.repr ++ ": " ++ cause)

/-- The whole text for the error output. -/
def message (f : Failure) : String := "Error: " ++ f.text ++ causesText f.causes ++ "\n"

end Failure

namespace Exit

/-- The end of a command that did its work. -/
def success (out : String) : Exit := ⟨0, out, ""⟩

/-- The end of a command that could not do its work. -/
def failure (f : Failure) : Exit := ⟨1, "", f.message⟩

/-- The end of a command whose arguments make no sense. -/
def badArguments (usage : String) : Exit := ⟨2, "", "usage: " ++ usage ++ "\n"⟩

/-- The end of a command by its result. -/
def ofResult : Except Failure String → Exit
  | .ok out => success out
  | .error f => failure f

end Exit

/-- What a command does with a store of files: it fails, or it has something to print. -/
abbrev CommandM (m : Type → Type) (α : Type) := ExceptT Failure m α

namespace CommandM

variable {m : Type → Type} [Monad m] [FileStore m]

/-- The content of a file that has to be there. -/
def readBytes (name : String) : CommandM m ByteArray := do
  match ← ExceptT.lift (FileStore.readFile name) with
  | .ok content => return content
  | .error fault => throw ⟨"cannot open " ++ name, [fault.message]⟩

/-- The content of a text file that has to be there. -/
def readText (name : String) : CommandM m String := do
  match String.fromUTF8? (← readBytes name) with
  | some text => return text
  | none => throw ⟨"cannot open " ++ name, [FileFault.notUtf8.message]⟩

/-- Writes a file that can be written. -/
def writeBytes (name : String) (content : ByteArray) : CommandM m Unit := do
  match ← ExceptT.lift (FileStore.writeFile name content) with
  | .ok () => return ()
  | .error fault => throw ⟨"cannot write " ++ name, [fault.message]⟩

/-- Runs a command to its end. -/
def exit (command : CommandM m String) : m Exit := do
  return Exit.ofResult (← command.run)

end CommandM

end Armlet
