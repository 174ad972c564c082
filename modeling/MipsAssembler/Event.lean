/-
The log of a run.

Events are data; `Event.level` says how much they matter and `Event.message` how they read.  A
threshold picks the events at or above a level.
-/
import MipsAssembler.Instruction
import MipsAssembler.Traced

namespace MipsAssembler

/-- Levels from the most to the least urgent. -/
inductive Level
  | error | warn | info | debug | trace
deriving DecidableEq, Repr

namespace Level

/-- The place of a level, the most urgent first. -/
def rank : Level → Nat
  | .error => 1
  | .warn => 2
  | .info => 3
  | .debug => 4
  | .trace => 5

/-- How a level is written. -/
def text : Level → String
  | .error => "ERROR"
  | .warn => "WARN"
  | .info => "INFO"
  | .debug => "DEBUG"
  | .trace => "TRACE"

end Level

/-- Something worth a line in the log. -/
inductive Event
  | tokenized (lines : Nat)
  | labelPlaced (name : String) (address : Nat)
  | lineRefused (lineNo : Nat) (error : Error)
  | laidOut (instructions labels : Nat)
  | instructionRefused (instruction : Instruction) (lineNo : Nat) (error : Error)
  | encoded (words relocations : Nat)
  | wroteExpanded (path : String)
  | wroteWords (words : Nat) (path : String)
  | failed (input : String) (lineNo : Nat) (error : Error)
  | stopped (chain : List String)
deriving DecidableEq, Repr

namespace Event

def level : Event → Level
  | .tokenized .. => .debug
  | .labelPlaced .. => .trace
  | .lineRefused .. => .debug
  | .laidOut .. => .debug
  | .instructionRefused .. => .debug
  | .encoded .. => .debug
  | .wroteExpanded .. => .info
  | .wroteWords .. => .info
  | .failed .. => .error
  | .stopped .. => .error

def message : Event → String
  | .tokenized lines => "tokenized " ++ Numeral.decimal lines ++ " line(s)"
  | .labelPlaced name address => "label " ++ name ++ " = 0x" ++ Numeral.hex address
  | .lineRefused lineNo error =>
    "pass one failed on line " ++ Numeral.decimal lineNo ++ ": " ++ error.message
  | .laidOut instructions labels =>
    "pass one placed " ++ Numeral.decimal instructions ++ " instruction(s), "
      ++ Numeral.decimal labels ++ " label(s)"
  | .instructionRefused instruction lineNo error =>
    "pass two failed on `" ++ instruction.render ++ "` (line " ++ Numeral.decimal lineNo ++ "): "
      ++ error.message
  | .encoded words relocations =>
    "pass two produced " ++ Numeral.decimal words ++ " word(s), " ++ Numeral.decimal relocations
      ++ " relocation(s)"
  | .wroteExpanded path => "wrote " ++ path
  | .wroteWords words path => "wrote " ++ Numeral.decimal words ++ " word(s) to " ++ path
  | .failed input lineNo error =>
    input ++ ":" ++ Numeral.decimal lineNo ++ ": " ++ error.message
  | .stopped chain => ": ".intercalate chain

/-- Whether a threshold lets the event through; without a threshold nothing passes. -/
def passes (threshold : Option Level) (e : Event) : Bool :=
  match threshold with
  | some level => e.level.rank ≤ level.rank
  | none => false

end Event

/-- A value with the log of its computation. -/
abbrev Logged := Traced Event

/-- Writes one event to the log. -/
def log (e : Event) : Logged Unit := Traced.emit e

end MipsAssembler
