/-
What can be wrong with a program.

An `Error` is the cause of one failure and `Error.message` its wording.  A `Failure` ties an error to
the place where it arose, and a list of failures is the outcome of a pass that did not succeed.
-/
import MipsAssembler.Op

namespace MipsAssembler

/-- Why a line, an instruction or a table entry is refused. -/
inductive Error
  | misalignedAddress (address : Nat)
  | duplicateName (name : String)
  | notFound (name : String)
  | invalidArity (mnemonic : String) (expected found : Nat)
  | invalidOperand (operand : String)
  | unresolvedLabel (name : String)
  | unreachableBranch (address target : Nat)
  | unknownInstruction (mnemonic : String)
  | addressOverflow (address : Nat)
  | allocationFailure
deriving DecidableEq, Repr

namespace Error

def message : Error → String
  | .misalignedAddress address =>
    "address " ++ Numeral.decimal address ++ " is not a multiple of 4"
  | .duplicateName name => "name '" ++ name ++ "' already exists in table"
  | .notFound name => "couldn't find symbol " ++ name
  | .invalidArity mnemonic expected found =>
    mnemonic ++ " expects " ++ Numeral.decimal expected ++ " operand(s), found "
      ++ Numeral.decimal found
  | .invalidOperand operand => "invalid operand `" ++ operand ++ "`"
  | .unresolvedLabel name => "branch target " ++ name ++ " is not defined"
  | .unreachableBranch address target =>
    "branch target " ++ Numeral.decimal target ++ " is out of range from "
      ++ Numeral.decimal address
  | .unknownInstruction mnemonic => "unknown instruction `" ++ mnemonic ++ "`"
  | .addressOverflow address =>
    "program runs past the end of the address space at 0x" ++ Numeral.hex address
  | .allocationFailure => "allocation failed"

/-- A fatal error ends a pass at once; any other belongs to one line or instruction. -/
def isFatal : Error → Bool
  | .allocationFailure => true
  | _ => false

/-- An operation without a word is blamed on its operands. -/
def ofEncode (e : EncodeError) : Error := .invalidOperand e.message

end Error

/-- An error with the position of its item in the stream that the pass walked, and with the number of
the source line that the item came from. -/
structure Failure where
  index : Nat
  lineNo : Nat
  error : Error
deriving DecidableEq, Repr

def Failure.message (f : Failure) : String :=
  "line " ++ Numeral.decimal f.lineNo ++ ": " ++ f.error.message

/-- One line for a whole list of failures. -/
def Failure.summary (failures : List Failure) : String :=
  Numeral.decimal failures.length ++ " instruction(s) failed to assemble"

end MipsAssembler
