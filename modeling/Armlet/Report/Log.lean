import Armlet.Assembler.Program
import Armlet.Instruction.Text
import Armlet.Machine.Event

/-!
# Log records

The written form of what can be observed: the events of the machine, and the
progress of an assembly. A record has a level, a message and named fields; all
fields are text.
-/

namespace Armlet

/-- How much attention a record deserves. -/
inductive LogLevel where
  | trace | debug | info
  deriving DecidableEq, Repr

/-- The level in writing. -/
def LogLevel.name : LogLevel → String
  | trace => "TRACE"
  | debug => "DEBUG"
  | info => "INFO"

/-- A line of the log. -/
structure LogRecord where
  level : LogLevel
  message : String
  fields : List (String × String)
  deriving DecidableEq, Repr

namespace Event

/-- An event of the machine in writing. -/
def record : Event → LogRecord
  | decoded pc raw instruction =>
    ⟨.trace, instruction.text,
      [("pc", Numeral.hex 8 pc.toNat), ("raw", Numeral.hex 8 raw.toNat)]⟩
  | conditionFailed cond pc =>
    ⟨.debug, "condition failed", [("cond", cond.label), ("pc", Numeral.hex 8 pc.toNat)]⟩
  | pin number on =>
    ⟨.info, if on then "gpio pin on" else "gpio pin off",
      [("on", if on then "true" else "false"), ("pin", Numeral.decimal number)]⟩
  | halted pc steps =>
    ⟨.debug, "halted", [("pc", Numeral.hex 8 pc.toNat), ("steps", Numeral.decimal steps)]⟩

end Event

namespace Layout

/-- The bindings of the first pass, and its result. -/
def records (layout : Layout) : List LogRecord :=
  let bound := layout.bindings.map fun (name, addr) =>
    ⟨.debug, "bind label", [("addr", Numeral.hex 4 addr.toNat), ("label", name)]⟩
  bound ++ [⟨.debug, "pass 1 done",
    [("end", Numeral.decimal layout.finish.toNat),
      ("labels", Numeral.decimal layout.labels.size)]⟩]

end Layout

namespace Listing

/-- The encoded lines of the second pass, and its result if it got to the end. -/
def records (listing : Listing) : List LogRecord :=
  let encoded := listing.lineWords.zipIdx.map fun (word, index) =>
    ⟨.trace, "", [("addr", Numeral.hex 4 (lineAddress index).toNat),
      ("word", Numeral.hex 8 word.toNat)]⟩
  match listing.failure with
  | some _ => encoded
  | none => encoded ++ [⟨.debug, "pass 2 done",
      [("lines", Numeral.decimal listing.lineWords.length),
        ("pool", Numeral.decimal listing.pool.words.length)]⟩]

end Listing

/-- The progress of an assembly in writing. -/
def Program.records (tokens : List Token) : List LogRecord :=
  let layout := Layout.ofTokens tokens
  layout.records ++ (Listing.ofTokens layout tokens).records

end Armlet
