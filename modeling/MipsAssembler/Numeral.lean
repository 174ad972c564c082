/-
Digits in a base between 2 and 16.

* `Numeral.digit?` — the value of one digit character, in either case;
* `Numeral.value?` — the value of a whole numeral, `none` unless there is a digit and every character
  is one;
* `Numeral.decimal`, `Numeral.hex`, `Numeral.paddedHex` — how numbers are written.

Design notes: numerals are lists of characters.  Leading zeros are allowed when reading and never
written, except for padding.
-/
namespace MipsAssembler.Numeral

/-- The value of `c` as a digit of any base up to 16. -/
def digitValue? (c : Char) : Option Nat :=
  if '0' ≤ c ∧ c ≤ '9' then some (c.toNat - '0'.toNat)
  else if 'a' ≤ c ∧ c ≤ 'f' then some (c.toNat - 'a'.toNat + 10)
  else if 'A' ≤ c ∧ c ≤ 'F' then some (c.toNat - 'A'.toNat + 10)
  else none

/-- The value of `c` as a digit of `base`. -/
def digit? (base : Nat) (c : Char) : Option Nat :=
  (digitValue? c).filter (· < base)

/-- The number that `acc` becomes when the digits `cs` are written after it. -/
def extend? (base : Nat) (acc : Nat) : List Char → Option Nat
  | [] => some acc
  | c :: cs =>
    match digit? base c with
    | some d => extend? base (acc * base + d) cs
    | none => none

/-- The number that a numeral of one or more digits stands for. -/
def value? (base : Nat) : List Char → Option Nat
  | [] => none
  | cs => extend? base 0 cs

/-- `n` in base ten. -/
def decimal (n : Nat) : String := String.ofList (Nat.toDigits 10 n)

/-- `n` in base sixteen, in lower case. -/
def hex (n : Nat) : String := String.ofList (Nat.toDigits 16 n)

/-- `n` in base sixteen with zeros in front up to `width` digits. -/
def paddedHex (width n : Nat) : String :=
  String.ofList (List.leftpad width '0' (Nat.toDigits 16 n))

/-- `v` in base ten, with a minus sign when it is negative. -/
def signed (v : Int) : String :=
  if v < 0 then "-" ++ decimal v.natAbs else decimal v.natAbs

end MipsAssembler.Numeral
