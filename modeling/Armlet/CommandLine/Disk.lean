import Armlet.CommandLine.Path

/-!
# A disk in memory

Files in a working directory below `/tmp`, and in the directories that a system has
right below its root. No directory is ever made. In `/dev` stand a few devices, which
are files that do not simply keep what is written to them.

A directory can be neither read nor written. Which fault a path has is settled step
by step from its front, so that of two faults the first one is reported.
-/

namespace Armlet

/-- A directory. -/
inductive Directory where
  /-- The working directory. -/
  | working
  | root
  /-- A directory right below the root. -/
  | top (name : String)
  deriving DecidableEq, Repr

/-- A file, there or not. -/
structure Location where
  directory : Directory
  name : String
  deriving DecidableEq, Repr

/-- What is special about a file in `/dev`. -/
inductive Device where
  /-- Gives nothing and takes anything. -/
  | null
  /-- Has no space for anything. -/
  | full
  /-- Passes on what is written to it, one piece after the other. -/
  | stream
  deriving DecidableEq, Repr

/-- The files with their contents. -/
structure Disk where
  files : List (Location × ByteArray)

namespace Directory

/-- The directories right below the root. -/
def topNames : List String :=
  ["bin", "boot", "dev", "etc", "home", "lib", "media", "mnt", "opt", "proc", "root", "run",
   "sbin", "srv", "sys", "tmp", "usr", "var"]

/-- The directory a directory is in. The root is in itself. -/
def parent : Directory → Directory
  | working => top "tmp"
  | root | top _ => root

/-- The directory of a name in a directory. -/
def inner? (directory : Directory) (name : String) : Option Directory :=
  if directory = root ∧ name ∈ topNames then some (top name) else none

end Directory

namespace Location

/-- The device of the standard output. -/
def standardOutput : Location := ⟨.top "dev", "stdout"⟩

/-- The device of the standard error. -/
def standardError : Location := ⟨.top "dev", "stderr"⟩

/-- The device a file is, if it is one. Nothing comes from the standard input. -/
def device? : Location → Option Device
  | ⟨.top "dev", "null"⟩ | ⟨.top "dev", "stdin"⟩ => some .null
  | ⟨.top "dev", "full"⟩ => some .full
  | file => if file = standardOutput ∨ file = standardError then some .stream else none

end Location

namespace Disk

/-- A disk without files. -/
def empty : Disk := ⟨[]⟩

/-- The content of a file. A device is always there. -/
def content? (disk : Disk) (file : Location) : Option ByteArray :=
  (disk.files.lookup file).or (file.device?.map fun _ => .empty)

/-- Replaces a file or adds it. -/
def put (disk : Disk) (file : Location) (content : ByteArray) : Disk :=
  ⟨(file, content) :: disk.files.filter (·.1 ≠ file)⟩

/-- Writes to a file, as its device has it. -/
def store (disk : Disk) (file : Location) (content : ByteArray) : Except FileFault Disk :=
  match file.device? with
  | none => .ok (disk.put file content)
  | some .null => .ok disk
  | some .full => if content.isEmpty then .ok disk else .error .noSpace
  | some .stream => .ok (disk.put file (((disk.content? file).getD .empty) ++ content))

/-- The directory that steps lead to. -/
def follow (disk : Disk) (start : Directory) : List Step → Except FileFault Directory
  | [] => .ok start
  | .stay :: rest => disk.follow start rest
  | .up :: rest => disk.follow start.parent rest
  | .into name :: rest => do
    Path.checkName name
    match start.inner? name, disk.content? ⟨start, name⟩ with
    | some directory, _ => disk.follow directory rest
    | none, some _ => .error .notDirectory
    | none, none => .error .notFound

/-- The directory that the steps of a path lead to. -/
def directoryOf (disk : Disk) (path : Path) : Except FileFault Directory :=
  disk.follow (if path.fromRoot then .root else .working) path.way

/-- The content of the file that a path leads to. -/
def read (disk : Disk) (text : String) : Except FileFault ByteArray := do
  let path ← Path.ofText text
  let directory ← disk.directoryOf path
  match path.name with
  | none => .error .isDirectory
  | some name =>
    Path.checkName name
    match directory.inner? name, disk.content? ⟨directory, name⟩ with
    | some _, _ => .error .isDirectory
    | none, none => .error .notFound
    | none, some content => if path.slashed then .error .notDirectory else .ok content

/-- Writes the file that a path leads to. No file is ever called for with a slash at the end. -/
def write (disk : Disk) (text : String) (content : ByteArray) : Except FileFault Disk := do
  let path ← Path.ofText text
  let directory ← disk.directoryOf path
  match path.name with
  | none => .error .isDirectory
  | some name =>
    if path.slashed then .error .isDirectory
    else
      Path.checkName name
      if (directory.inner? name).isSome then .error .isDirectory
      else disk.store ⟨directory, name⟩ content

/-- The text that was written to a device. -/
def passedOn (disk : Disk) (device : Location) : String :=
  ((disk.content? device).bind String.fromUTF8?).getD ""

/-- Runs a command. What it writes to the output devices comes before what it prints at its end. -/
def run (disk : Disk) (command : StateM Disk Exit) : Exit × Disk :=
  let (exit, after) := StateT.run command disk
  ({ exit with
      out := after.passedOn .standardOutput ++ exit.out
      err := after.passedOn .standardError ++ exit.err }, after)

end Disk

instance : FileStore (StateM Disk) where
  readFile name := return (← get).read name
  writeFile name content := do
    match (← get).write name content with
    | .ok disk => set disk; return .ok ()
    | .error fault => return .error fault

end Armlet
