/-!
# Command line arguments

A command has options with a value, flags without one, and a fixed number of
plain arguments, in any order. An option is written `--name value` or
`--name=value`, or with its letter `-n value`, `-nvalue` or `-n=value`. After `--`
everything is a plain argument, and so is a single dash anywhere.

A value that is a word of its own does not start with a dash, unless it is a
single dash. No option or flag may be given twice. Whatever breaks these rules
makes the whole line invalid.
-/

namespace Armlet

/-- An option a command knows. -/
structure OptionSpec where
  name : String
  letter : Option Char
  takesValue : Bool
  deriving DecidableEq, Repr

/-- The arguments of a command, sorted by kind. -/
structure Arguments where
  /-- Options with their values, by name. -/
  options : List (String × String)
  flags : List String
  plain : List String
  deriving DecidableEq, Repr

namespace Arguments

/-- No arguments. -/
def empty : Arguments := ⟨[], [], []⟩

/-- Adds an option; a second one of the same name is refused. -/
def addOption? (a : Arguments) (name value : String) : Option Arguments :=
  if (a.options.lookup name).isSome then none
  else some { a with options := a.options ++ [(name, value)] }

/-- Adds a flag; a second one of the same name is refused. -/
def addFlag? (a : Arguments) (name : String) : Option Arguments :=
  if a.flags.contains name then none else some { a with flags := a.flags ++ [name] }

/-- Adds a plain argument. -/
def addPlain (a : Arguments) (value : String) : Arguments := { a with plain := a.plain ++ [value] }

/-- Splits `name=value`. Without an equals sign there is no value. -/
def splitValue (cs : List Char) : List Char × Option (List Char) :=
  match cs.dropWhile (· != '=') with
  | _ :: value => (cs.takeWhile (· != '='), some value)
  | [] => (cs, none)

/-- The value behind an option's letter, whose equals sign may be left out. -/
def letterValue : List Char → Option (List Char)
  | [] => none
  | '=' :: value => some value
  | value => some value

/-- Whether a word can be the value of the option before it. -/
def isValue (word : String) : Bool :=
  match word.toList with
  | '-' :: _ :: _ => false
  | _ => true

/-- The option a word names, and the value attached to it; `none` if it names none. -/
def option? (specs : List OptionSpec) (word : List Char) :
    Option (OptionSpec × Option (List Char)) :=
  match word with
  | '-' :: '-' :: rest =>
    let (name, value) := splitValue rest
    (specs.find? (·.name == String.ofList name)).map (·, value)
  | '-' :: letter :: rest =>
    (specs.find? (·.letter == some letter)).map (·, letterValue rest)
  | _ => none

/-- Reads the words of a command line, adding to what has been read before. -/
def parseFrom? (specs : List OptionSpec) (a : Arguments) : List String → Option Arguments
  | [] => some a
  | word :: rest =>
    if word = "--" then some (rest.foldl addPlain a)
    else if isValue word then parseFrom? specs (a.addPlain word) rest
    else
      match option? specs word.toList with
      | none => none
      | some (spec, attached) =>
        if spec.takesValue then
          match attached, rest with
          | some value, rest =>
            (a.addOption? spec.name (String.ofList value)).bind fun a => parseFrom? specs a rest
          | none, value :: rest =>
            if isValue value then
              (a.addOption? spec.name value).bind fun a => parseFrom? specs a rest
            else none
          | none, [] => none
        else if attached.isSome then none
        else (a.addFlag? spec.name).bind fun a => parseFrom? specs a rest

/-- Reads a command line. -/
def parse? (specs : List OptionSpec) (words : List String) : Option Arguments :=
  parseFrom? specs empty words

end Arguments

end Armlet
