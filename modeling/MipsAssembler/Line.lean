/-
Source lines.

A line is cut at its first `#`.  What is left may start with a label, a run of characters up to a
colon; the rest is split into words at blanks, commas and parentheses, so that `4($sp)` gives `4` and
`$sp`.  The first word is the mnemonic.  `Line.parse` gives nothing for a line without label and words.

`Source.parse` does this for every line of a text.  Lines are numbered from 1, and those that give
nothing keep their number.
-/
import MipsAssembler.Instruction
import MipsAssembler.Operand
import MipsAssembler.Text.Blank

namespace MipsAssembler

open Text (isBlank)

/-- A line with a label, an instruction, or both. -/
structure Line where
  lineNo : Nat
  label : Option String
  instruction : Option Instruction
deriving DecidableEq, Repr

namespace Line

/-- What stands in front of a comment. -/
def code (cs : List Char) : List Char := cs.takeWhile (· != '#')

/-- Whether `c` separates words. -/
def isSeparator (c : Char) : Bool := isBlank c || c == ',' || c == '(' || c == ')'

/-- The longest runs without a separator. -/
def words (cs : List Char) : List String :=
  ((cs.splitOnP isSeparator).filter (!·.isEmpty)).map String.ofList

/-- Whether `c` may stand in front of a label's colon. -/
def isRun (c : Char) : Bool := !isBlank c && c != ':'

/-- The run in front of a colon and what follows the colon, with blanks allowed around the run. -/
def splitLabel? (cs : List Char) : Option (List Char × List Char) :=
  match (cs.dropWhile isBlank).span isRun with
  | ([], _) => none
  | (run, rest) =>
    match rest.dropWhile isBlank with
    | ':' :: rest => some (run, rest)
    | _ => none

/-- The contents of a line; an ill-formed label is an error. -/
def parse (text : String) (lineNo : Nat) : Except Error (Option Line) :=
  let cs := code text.toList
  match splitLabel? cs with
  | some (run, rest) => do
    let label ← Operand.label (String.ofList run)
    return some ⟨lineNo, some label, Instruction.ofWords? (words rest)⟩
  | none =>
    return (Instruction.ofWords? (words cs)).map fun i => ⟨lineNo, none, some i⟩

end Line

namespace Source

/-- A line without the carriage return at its end. -/
def chomp (cs : List Char) : List Char :=
  if cs.getLast? = some '\r' then cs.dropLast else cs

/-- The lines of a text.  A line feed ends a line and takes a carriage return in front of it along;
text after the last line feed is a line if it is not empty. -/
def physicalLines (text : String) : List String :=
  let pieces := text.toList.splitOn '\n'
  let ended := pieces.dropLast.map chomp
  let last := (pieces.getLast?.toList).filter (!·.isEmpty)
  (ended ++ last).map String.ofList

/-- The lines of a text that hold something, or the first error with its line number. -/
def parse (text : String) : Except (Nat × Error) (List Line) :=
  ((physicalLines text).zipIdx 1).filterMapM fun (line, lineNo) =>
    (Line.parse line lineNo).mapError (lineNo, ·)

end Source

end MipsAssembler
