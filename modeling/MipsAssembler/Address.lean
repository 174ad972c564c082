/-
Addresses: the address space and how an address is written on the command line.

Addresses are natural numbers.  `Address.check` lets those through that lie in the address space, and
`Address.parse` reads decimal digits, or hexadecimal digits after `0x`, with at most one plus sign in
front of the digits.

Design notes: the digits are read from the left, and the first of them that is no digit, or that takes
the value out of the address space, decides which error is given.
-/
import MipsAssembler.Error

namespace MipsAssembler.Address

/-- How many bytes can be addressed. -/
def limit : Nat := 0x100000000

/-- The address of the last word. -/
def lastWord : Nat := limit - 4

/-- Lets an address through if it lies in the address space. -/
def check (address : Nat) : Except Error Nat :=
  if address < limit then .ok address else .error (.addressOverflow lastWord)

/-- Why a text is no address. -/
inductive TextError
  | empty
  | invalidDigit
  | tooLarge
deriving DecidableEq, Repr

def TextError.message : TextError → String
  | .empty => "cannot parse integer from empty string"
  | .invalidDigit => "invalid digit found in string"
  | .tooLarge => "number too large to fit in target type"

/-- The address that `acc` becomes when the digits `cs` are written after it. -/
def extend (base : Nat) (acc : Nat) : List Char → Except TextError Nat
  | [] => .ok acc
  | c :: cs =>
    match Numeral.digit? base c with
    | none => .error .invalidDigit
    | some d =>
      if acc * base + d < limit then extend base (acc * base + d) cs else .error .tooLarge

/-- The address that one or more digits write, with at most one plus sign in front. -/
def ofDigits (base : Nat) : List Char → Except TextError Nat
  | [] => .error .empty
  | ['+'] => .error .invalidDigit
  | '+' :: cs => extend base 0 cs
  | cs => extend base 0 cs

/-- The address that a text writes. -/
def parse (s : String) : Except TextError Word :=
  let address := match s.toList with
    | '0' :: 'x' :: cs => ofDigits 16 cs
    | '0' :: 'X' :: cs => ofDigits 16 cs
    | cs => ofDigits 10 cs
  address.map (BitVec.ofNat 32)

/-- What to say about a text that is no address. -/
def complaint (s : String) (e : TextError) : String := "bad address `" ++ s ++ "`: " ++ e.message

end MipsAssembler.Address
