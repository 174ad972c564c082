/-
The three kinds of operand: registers, numbers and labels.

Each reader either gives the value that the operand spells or refuses the operand as a whole.

* a register is one of the sixty-four spellings of `Register`;
* a number is an optional sign and then `0x` with hexadecimal digits, or decimal digits, with a value
  between two bounds that the position fixes;
* a label is a letter or underscore and then letters, digits and underscores, all ASCII.
-/
import MipsAssembler.Error

namespace MipsAssembler.Operand

/-- Whether `c` may start a label. -/
def isLabelStart (c : Char) : Bool := c.isAlpha || c == '_'

/-- Whether `c` may stand inside a label. -/
def isLabelPart (c : Char) : Bool := c.isAlphanum || c == '_'

/-- Whether a list of characters is a label. -/
def isLabel : List Char → Bool
  | [] => false
  | c :: cs => isLabelStart c && cs.all isLabelPart

/-- The value of an unsigned literal. -/
def magnitude? : List Char → Option Nat
  | '0' :: 'x' :: cs => Numeral.value? 16 cs
  | '0' :: 'X' :: cs => Numeral.value? 16 cs
  | cs => Numeral.value? 10 cs

/-- The value of a literal with at most one sign. -/
def literal? : List Char → Option Int
  | '-' :: cs => (magnitude? cs).map fun n => -(n : Int)
  | '+' :: cs => (magnitude? cs).map fun n => (n : Int)
  | cs => (magnitude? cs).map fun n => (n : Int)

/-- The register that an operand spells. -/
def register (s : String) : Except Error Register :=
  match Register.ofSpelling? s with
  | some r => .ok r
  | none => .error (.invalidOperand s)

/-- The number that an operand spells, between `lower` and `upper` inclusive. -/
def number (s : String) (lower upper : Int) : Except Error Int :=
  match literal? s.toList with
  | some v => if lower ≤ v ∧ v ≤ upper then .ok v else .error (.invalidOperand s)
  | none => .error (.invalidOperand s)

/-- The label that an operand spells. -/
def label (s : String) : Except Error String :=
  if isLabel s.toList then .ok s else .error (.invalidOperand s)

end MipsAssembler.Operand
