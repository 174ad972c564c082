/-
Assembled programs and their listing.

* `Assembly.ofPlaced` — the words and relocation sites of placed instructions;
* `Assembly.render` — the listing: words, labels and relocation sites, each under its own heading.
-/
import MipsAssembler.Emission
import MipsAssembler.Layout

namespace MipsAssembler

/-- Words as eight hexadecimal digits, one line each. -/
def Word.renderLines (words : List Word) : String :=
  String.join (words.map fun w => Numeral.paddedHex 8 w.toNat ++ "\n")

/-- The result of a successful run. -/
structure Assembly where
  words : Array Word := #[]
  labels : SymbolTable
  relocations : SymbolTable := .empty .repeating
deriving DecidableEq, Repr

namespace Assembly

/-- An assembly with one more instruction. -/
def add (a : Assembly) (e : Emission) : Assembly where
  words := a.words.push e.word
  labels := a.labels
  relocations := a.relocations.pushIfAny e.relocation

/-- Takes a placed instruction: its word and its relocation site. -/
def takePlaced (p : Placed) : Attempt Assembly Emission := do
  let a ← get
  let e ← .ofExcept (p.instruction.emit p.address a.labels a.relocations)
  modify (·.add e)
  return e

/-- The pass that assembles placed instructions against a finished label table. -/
def pass : Pass Assembly Placed Emission where
  take := takePlaced
  lineNo := Placed.lineNo
  accepted _ := []
  refused p e := .instructionRefused p.instruction p.lineNo e

/-- The assembly of placed instructions. -/
def ofPlaced (instructions : List Placed) (labels : SymbolTable) (options : Options) :
    ExceptT (List Failure) Logged Assembly :=
  pass.run options.keepGoing instructions { labels }

/-- The section of words. -/
def renderText (words : List Word) : String := ".text\n" ++ Word.renderLines words

/-- The section of labels. -/
def renderLabels (labels : SymbolTable) : String := ".symbol\n" ++ labels.render

/-- The section of relocation sites. -/
def renderRelocations (relocations : SymbolTable) : String :=
  ".relocation\n" ++ relocations.render

/-- The listing of an assembly. -/
def render (a : Assembly) : String :=
  renderText a.words.toList ++ renderLabels a.labels ++ renderRelocations a.relocations

end Assembly

end MipsAssembler
