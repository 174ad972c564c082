/-
The layout of a program: which instruction goes to which address, and which address each label names.

Lines are taken in order.  A line's instruction is expanded, each resulting instruction takes the next
four bytes, and the line's label names the address where the line starts.

* `Layout.takeLine` — an attempt to take a line, which works on the layout;
* `Layout.ofLines` — the layout of a list of lines.

Design notes: addresses are natural numbers, and the next address may be one past the last word of the
address space; `Address.check` refuses to put anything there.  The label of a line is entered before its
instructions are, but behind everything in the line that can be refused.
-/
import MipsAssembler.Address
import MipsAssembler.Line
import MipsAssembler.Options
import MipsAssembler.Pass
import MipsAssembler.Pseudo
import MipsAssembler.SymbolTable

namespace MipsAssembler

/-- An expanded instruction with its address and the line that it came from. -/
structure Placed where
  instruction : Instruction
  address : Nat
  lineNo : Nat
deriving DecidableEq, Repr

/-- Gives consecutive addresses from `address` on to instructions of one line. -/
def Placed.ofInstructions (lineNo : Nat) (address : Nat) :
    List Instruction → Except Error (List Placed)
  | [] => .ok []
  | i :: is => do
    let address ← Address.check address
    let rest ← ofInstructions lineNo (address + 4) is
    return ⟨i, address, lineNo⟩ :: rest

/-- The instructions that a line stands for; without an instruction there are none. -/
def Line.expand (line : Line) : Except Error (List Instruction) :=
  match line.instruction with
  | some i => i.expand
  | none => .ok []

/-- A program with its addresses. -/
structure Layout where
  /-- The address after the last instruction. -/
  next : Nat
  instructions : Array Placed := #[]
  /-- How many instructions each line gave. -/
  wordCounts : Array Nat := #[]
  labels : SymbolTable := .empty .distinct
deriving DecidableEq, Repr

namespace Layout

/-- What is taken of a line: its instructions with their addresses, and its label with its own. -/
structure Piece where
  placed : List Placed
  label : Option Symbol
deriving DecidableEq, Repr

/-- The layout of no lines. -/
def start (base : Word) : Layout := { next := base.toNat }

/-- Enters a label for the next address. -/
def enterLabel (name : String) : Attempt Layout Symbol := do
  let l ← get
  let address ← .ofExcept (Address.check l.next)
  let s ← .ofExcept (l.labels.entryFor name address)
  set { l with labels := l.labels.push s }
  return s

/-- Enters the label of a line, if it has one. -/
def enterLabelOf (line : Line) : Attempt Layout (Option Symbol) :=
  match line.label with
  | some name => some <$> enterLabel name
  | none => return none

/-- Takes a line. -/
def takeLine (line : Line) : Attempt Layout Piece := do
  let instructions ← .ofExcept line.expand
  let placed ← .ofExcept (Placed.ofInstructions line.lineNo (← get).next instructions)
  let label ← enterLabelOf line
  modify fun l => { l with instructions := l.instructions ++ placed }
  modify fun l => { l with next := l.next + 4 * placed.length }
  return { placed, label }

/-- Counts the words of a line; a refused line has none. -/
def countWords (outcome : Except Error Piece) (l : Layout) : Layout :=
  match outcome with
  | .ok p => { l with wordCounts := l.wordCounts.push p.placed.length }
  | .error _ => { l with wordCounts := l.wordCounts.push 0 }

/-- The pass that lays out lines. -/
def pass : Pass Layout Line Piece where
  take := takeLine
  tally := countWords
  lineNo := Line.lineNo
  accepted p := p.label.toList.map fun s => .labelPlaced s.name s.address
  refused line e := .lineRefused line.lineNo e

/-- The layout of a list of lines. -/
def ofLines (lines : List Line) (options : Options) : ExceptT (List Failure) Logged Layout :=
  pass.run options.keepGoing lines (start options.base)

/-- The expanded program as a source text. -/
def render (l : Layout) : String :=
  Instruction.renderLines (l.instructions.toList.map Placed.instruction)

end Layout

end MipsAssembler
