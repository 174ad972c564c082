/-
Instructions as they are written: a mnemonic and its operands, none of them checked yet.
-/
import MipsAssembler.Error

namespace MipsAssembler

/-- A machine instruction or pseudo-instruction of a source text. -/
structure Instruction where
  mnemonic : String
  operands : List String
deriving DecidableEq, Repr

namespace Instruction

/-- The instruction that a list of words spells, if there are any. -/
def ofWords? : List String → Option Instruction
  | [] => none
  | mnemonic :: operands => some ⟨mnemonic, operands⟩

/-- The mnemonic and the operands with single spaces between them. -/
def render (i : Instruction) : String := " ".intercalate (i.mnemonic :: i.operands)

/-- Several instructions, one line each. -/
def renderLines (is : List Instruction) : String :=
  String.join (is.map fun i => i.render ++ "\n")

end Instruction

end MipsAssembler
