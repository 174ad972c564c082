/-
What a run does, as data.

Once the input is read, everything else follows from its text: the files to write, the listing to print
and the log, in order, and the trouble that ends the run if there is any.  `plan` gives this sequence.
Whoever carries it out stops at the first file that cannot be created.
-/
import MipsAssembler.CommandLine.Arguments
import MipsAssembler.Program

namespace MipsAssembler.CommandLine

/-- Why a run did not succeed. -/
inductive Trouble
  | unreadable (path : String) (reason : String)
  | badBase (error : Error)
  | rejected (rejection : Rejection)
  | unwritable (reason : String)
deriving DecidableEq, Repr

namespace Trouble

/-- The trouble in words, from the outermost cause inwards. -/
def chain : Trouble → List String
  | .unreadable path reason => ["couldn't read " ++ path, reason]
  | .badBase error => ["bad --base-address", error.message]
  | .rejected rejection => rejection.chain
  | .unwritable reason => [reason]

/-- The log entries that tell of the trouble with `input`. -/
def events (input : String) : Trouble → List Event
  | .rejected rejection => rejection.failures.map fun f => .failed input f.lineNo f.error
  | trouble => [.stopped trouble.chain]

end Trouble

/-- A step of a run that can be seen from outside. -/
inductive Action
  | write (path : String) (text : String)
  | print (text : String)
  | log (event : Event)
deriving DecidableEq, Repr

/-- The steps of a run, and how it ends when all of them succeed. -/
abbrev Plan := ExceptT Trouble (Traced Action)

/-- One step. -/
def act (a : Action) : Plan Unit := ExceptT.lift (Traced.emit a)

/-- The steps of a stage: its log, and its rejection if it has one. -/
def stage {α : Type} (x : ExceptT Rejection Logged α) : Plan α :=
  (ExceptT.mk (x.run.relabel Action.log)).adapt Trouble.rejected

/-- The path for a table beside an output. -/
def withExtension (path extension : String) : String := path ++ "." ++ extension

/-- The settings that the arguments ask for. -/
def Arguments.options (args : Arguments) : Except Error Options := do
  let options ← Options.withBase args.baseAddress
  return { options with keepGoing := args.keepGoing }

/-- Writes the expanded program, if a path for it is given. -/
def writeExpanded (args : Arguments) (layout : Layout) : Plan Unit :=
  match args.expanded with
  | some path => do
    act (.write path layout.render)
    act (.log (.wroteExpanded path))
  | none => return ()

/-- Writes the words and the tables that are asked for, or prints the listing. -/
def deliver (args : Arguments) (assembly : Assembly) : Plan Unit :=
  match args.output with
  | none => act (.print assembly.render)
  | some path => do
    act (.write path (Word.renderLines assembly.words.toList))
    act (.log (.wroteWords assembly.words.size path))
    if args.symbols then
      act (.write (withExtension path "sym") assembly.labels.render)
    if args.relocations then
      act (.write (withExtension path "rel") assembly.relocations.render)

/-- The steps of a run on an input whose text, or the reason why it cannot be read, is given. -/
def plan (args : Arguments) (source : Except String String) : Plan Unit := do
  let text ← ExceptT.mk (pure (source.mapError (Trouble.unreadable args.input)))
  let options ← ExceptT.mk (pure (args.options.mapError Trouble.badBase))
  let layout ← stage (Program.layOut text options)
  writeExpanded args layout
  let assembly ← stage (Program.encode layout options)
  deliver args assembly

end MipsAssembler.CommandLine
