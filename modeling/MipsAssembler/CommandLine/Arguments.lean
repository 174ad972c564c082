/-
The arguments of the command line.

Words are read from left to right.  An option takes its value from the same word (`--output=x`, `-ox`,
`-o=x`) or waits for the next word; a word that no option waits for is the input.  `--` ends the
options.

Design notes: an option that waits, and likewise the input, is settled only when the next option or
positional word starts, or at the end.  So a word that cannot be an argument at all is reported before
the value of the option in front of it, and every other fault in the order of the words.
-/
import MipsAssembler.Address

namespace MipsAssembler.CommandLine

/-- Why the arguments do not start a run. -/
inductive Usage
  | displayHelp
  | displayVersion
  | missingRequiredArgument
  | unknownArgument
  | invalidValue
  | valueValidation
  | argumentConflict
  | tooManyValues
deriving DecidableEq, Repr

/-- The exit status: asking for help or for the version is no fault. -/
def Usage.exitCode : Usage → Nat
  | .displayHelp => 0
  | .displayVersion => 0
  | _ => 2

/-- The arguments of a run. -/
structure Arguments where
  input : String
  output : Option String := none
  baseAddress : Word := 0
  keepGoing : Bool := false
  symbols : Bool := false
  relocations : Bool := false
  expanded : Option String := none
deriving DecidableEq, Repr

/-- Arguments that take a value. -/
inductive Slot
  | input | output | baseAddress | expanded
deriving DecidableEq, Repr

/-- Arguments without a value. -/
inductive Flag
  | keepGoing | symbols | relocations | help | version
deriving DecidableEq, Repr

/-- What a long option names. -/
def longOption? : String → Option (Slot ⊕ Flag)
  | "output" => some (.inl .output)
  | "base-address" => some (.inl .baseAddress)
  | "expanded" => some (.inl .expanded)
  | "keep-going" => some (.inr .keepGoing)
  | "symbols" => some (.inr .symbols)
  | "relocations" => some (.inr .relocations)
  | "help" => some (.inr .help)
  | "version" => some (.inr .version)
  | _ => none

/-- The arguments that are settled so far. -/
structure Draft where
  input : Option String := none
  output : Option String := none
  baseAddress : Option Word := none
  expanded : Option String := none
  keepGoing : Bool := false
  symbols : Bool := false
  relocations : Bool := false
deriving DecidableEq, Repr

namespace Draft

/-- A path that is given once and is not empty. -/
def path (old : Option String) (value : String) : Except Usage (Option String) :=
  if old.isSome then .error .argumentConflict
  else if value.isEmpty then .error .invalidValue
  else .ok (some value)

/-- A base address that is given once and can be read. -/
def address (old : Option Word) (value : String) : Except Usage (Option Word) :=
  if old.isSome then .error .argumentConflict
  else match Address.parse value with
    | .ok base => .ok (some base)
    | .error _ => .error .valueValidation

/-- Settles an argument with its value. -/
def fill (d : Draft) (slot : Slot) (value : String) : Except Usage Draft :=
  match slot with
  | .input => do return { d with input := ← path d.input value }
  | .output => do return { d with output := ← path d.output value }
  | .baseAddress => do return { d with baseAddress := ← address d.baseAddress value }
  | .expanded => do return { d with expanded := ← path d.expanded value }

/-- Settles an argument without a value. -/
def raise (d : Draft) : Flag → Except Usage Draft
  | .help => .error .displayHelp
  | .version => .error .displayVersion
  | .keepGoing =>
    if d.keepGoing then .error .argumentConflict else .ok { d with keepGoing := true }
  | .symbols =>
    if d.symbols then .error .argumentConflict else .ok { d with symbols := true }
  | .relocations =>
    if d.relocations then .error .argumentConflict else .ok { d with relocations := true }

/-- The finished arguments: there is an input, and tables are only asked for beside an output. -/
def finish (d : Draft) : Except Usage Arguments :=
  match d.input with
  | none => .error .missingRequiredArgument
  | some input =>
    if (d.symbols || d.relocations) && d.output.isNone then .error .missingRequiredArgument
    else .ok {
      input
      output := d.output
      baseAddress := d.baseAddress.getD 0
      keepGoing := d.keepGoing
      symbols := d.symbols
      relocations := d.relocations
      expanded := d.expanded }

end Draft

/-- The arguments read so far: an argument may wait to be settled, with or without its value. -/
structure Reading where
  draft : Draft := {}
  waiting : Option (Slot × Option String) := none
  hasInput : Bool := false
  optionsOver : Bool := false
deriving DecidableEq, Repr

namespace Reading

/-- Settles the argument that waits. -/
def settle (r : Reading) : Except Usage Reading :=
  match r.waiting with
  | none => .ok r
  | some (_, none) => .error .invalidValue
  | some (slot, some value) => do
    return { r with draft := ← r.draft.fill slot value, waiting := none }

/-- An option whose value comes with the next word. -/
def await (r : Reading) (slot : Slot) : Except Usage Reading := do
  let r ← r.settle
  return { r with waiting := some (slot, none) }

/-- An option with its value in the same word. -/
def attach (r : Reading) (slot : Slot) (value : String) : Except Usage Reading := do
  let r ← r.settle
  return { r with draft := ← r.draft.fill slot value }

/-- A flag. -/
def raise (r : Reading) (flag : Flag) : Except Usage Reading := do
  let r ← r.settle
  return { r with draft := ← r.draft.raise flag }

/-- A long option, without its dashes. -/
def long (r : Reading) (cs : List Char) : Except Usage Reading :=
  let name := String.ofList (cs.takeWhile (· != '='))
  match longOption? name, cs.dropWhile (· != '=') with
  | none, _ => .error .unknownArgument
  | some (.inl slot), [] => r.await slot
  | some (.inl slot), _ :: value => r.attach slot (String.ofList value)
  | some (.inr flag), [] => r.raise flag
  | some (.inr _), _ :: _ => .error .tooManyValues

/-- A group of short options, without its dash. -/
def short (r : Reading) : List Char → Except Usage Reading
  | 'h' :: _ => r.raise .help
  | 'V' :: _ => r.raise .version
  | ['o'] => r.await .output
  | 'o' :: '=' :: value => r.attach .output (String.ofList value)
  | 'o' :: value => r.attach .output (String.ofList value)
  | _ => .error .unknownArgument

/-- A positional word. -/
def positional (r : Reading) (word : String) : Except Usage Reading :=
  if r.hasInput then .error .unknownArgument
  else do
    let r ← r.settle
    return { r with waiting := some (.input, some word), hasInput := true }

/-- A word that is no option: the value of an option that waits for one, or else positional. -/
def plain (r : Reading) (word : String) : Except Usage Reading :=
  match r.waiting with
  | some (slot, none) => .ok { r with waiting := some (slot, some word) }
  | _ => r.positional word

/-- Reads one more word. -/
def word (r : Reading) (w : String) : Except Usage Reading :=
  if r.optionsOver then r.positional w
  else match w.toList with
    | ['-', '-'] => .ok { r with optionsOver := true }
    | '-' :: '-' :: cs => r.long cs
    | '-' :: c :: cs => r.short (c :: cs)
    | _ => r.plain w

end Reading

/-- The arguments that a list of words gives. -/
def Arguments.parse (words : List String) : Except Usage Arguments := do
  let r ← words.foldlM Reading.word {}
  let r ← r.settle
  r.draft.finish

end MipsAssembler.CommandLine
