import Armlet.CommandLine.Assemble
import Armlet.CommandLine.Disassemble
import Armlet.CommandLine.Run

/-!
# The program

Three commands on the files of the system: `run`, `asm` and `disasm`.
-/

namespace Armlet

/-- A system error in the words of a command. Some of the error numbers come negated. -/
def FileFault.ofIOError : IO.Error → FileFault
  | .noFileOrDirectory .. => .notFound
  | e@(.inappropriateType _ number _) =>
    if number = 20 ∨ number = -20 then .notDirectory
    else if number = 21 ∨ number = -21 then .isDirectory
    else .other (toString e)
  | e@(.invalidArgument _ number _) =>
    if number = 36 ∨ number = -36 then .nameTooLong else .other (toString e)
  | e@(.resourceExhausted _ number _) =>
    if number = 28 ∨ number = -28 then .noSpace else .other (toString e)
  | e => .other (toString e)

instance : FileStore IO where
  readFile name := do
    try return .ok (← IO.FS.readBinFile name)
    catch e => return .error (.ofIOError e)
  writeFile name content := do
    try
      IO.FS.withFile name .write fun file => do
        file.write content
        file.flush
      return .ok ()
    catch e => return .error (.ofIOError e)

/-- Runs the command that the first word names on the words after it. -/
def dispatch : List String → IO Exit
  | "run" :: words => RunCommand.command words
  | "asm" :: words => AssembleCommand.command words
  | "disasm" :: words => DisassembleCommand.command words
  | _ => return .badArguments "armlet run|asm|disasm ARGUMENTS"

end Armlet

/-- Runs a command, prints what it says and exits with its code. -/
def main (args : List String) : IO UInt32 := do
  let exit ← Armlet.dispatch args
  (← IO.getStdout).putStr exit.out
  (← IO.getStderr).putStr exit.err
  return exit.code.toUInt32
