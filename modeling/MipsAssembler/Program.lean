/-
Whole programs, from text to assembly.

A program passes three stages: its lines are read, they are laid out, and the placed instructions are
assembled.  A program that fails in one stage never reaches the next, and the rejection says which
stage it was.

* `Program.layOut` — the first two stages;
* `Program.encode` — the third;
* `Program.assemble` — all three.
-/
import MipsAssembler.Assembly

namespace MipsAssembler

/-- The stages of a run. -/
inductive Stage
  | reading | layout | encoding
deriving DecidableEq, Repr

/-- What to say about a stage that failed. -/
def Stage.context : Stage → String
  | .reading => "couldn't tokenize program"
  | .layout => "pass one failed"
  | .encoding => "pass two failed"

/-- The failures of the stage that rejected a program. -/
structure Rejection where
  stage : Stage
  failures : List Failure
deriving DecidableEq, Repr

/-- The rejection in words, from the stage down to its failures. -/
def Rejection.chain (r : Rejection) : List String :=
  [r.stage.context, Failure.summary r.failures]

namespace Program

/-- The lines of a program; a line that cannot be read is the only failure. -/
def readLines (text : String) : Except Rejection (List Line) :=
  (Source.parse text).mapError fun (lineNo, error) =>
    { stage := .reading, failures := [{ index := lineNo - 1, lineNo, error }] }

/-- The layout of a program text. -/
def layOut (text : String) (options : Options) : ExceptT Rejection Logged Layout := do
  let lines ← ExceptT.mk (pure (readLines text))
  log (.tokenized lines.length)
  let layout ← (Layout.ofLines lines options).adapt (Rejection.mk .layout)
  log (.laidOut layout.instructions.size layout.labels.size)
  return layout

/-- The assembly of a finished layout. -/
def encode (layout : Layout) (options : Options) : ExceptT Rejection Logged Assembly :=
  (Assembly.ofPlaced layout.instructions.toList layout.labels options).adapt
    (Rejection.mk .encoding)

/-- The assembly of a program text. -/
def assemble (text : String) (options : Options) : ExceptT Rejection Logged Assembly := do
  let layout ← layOut text options
  let assembly ← encode layout options
  log (.encoded assembly.words.size assembly.relocations.size)
  return assembly

end Program

end MipsAssembler
