/-
Pseudo-instructions and the machine instructions that they stand for.

`Instruction.expand` replaces a pseudo-instruction and leaves any other instruction alone.  Only the
number of operands and the constant of `li` are checked here; registers and labels pass through as
they are written.

Design notes: `div` is a machine instruction with two operands and a pseudo-instruction with three.
A constant within sixteen signed bits takes one instruction, any other is loaded in halves.
-/
import MipsAssembler.Instruction
import MipsAssembler.Operand

namespace MipsAssembler

/-- The pseudo-instructions. -/
inductive Pseudo
  | li | move | blt | bgt | traddu | swpr | mul | div | rem
deriving DecidableEq, Repr

namespace Pseudo

/-- Every pseudo-instruction. -/
def all : List Pseudo := [.li, .move, .blt, .bgt, .traddu, .swpr, .mul, .div, .rem]

/-- How a pseudo-instruction is written. -/
def text : Pseudo → String
  | .li => "li"
  | .move => "move"
  | .blt => "blt"
  | .bgt => "bgt"
  | .traddu => "traddu"
  | .swpr => "swpr"
  | .mul => "mul"
  | .div => "div"
  | .rem => "rem"

/-- The pseudo-instruction that `s` writes. -/
def ofText? (s : String) : Option Pseudo := all.find? (·.text == s)

/-- How many operands a pseudo-instruction takes. -/
def arity : Pseudo → Nat
  | .li => 2
  | .move => 2
  | .blt => 3
  | .bgt => 3
  | .traddu => 3
  | .swpr => 2
  | .mul => 3
  | .div => 3
  | .rem => 3

/-- The operand that names the zero register. -/
def zero : String := Register.zero.name

/-- The operand that names the scratch register. -/
def scratch : String := Register.scratch.name

/-- The instructions that load `value`, a number that fits a word with or without a sign. -/
def load (rt : String) (value : Int) : List Instruction :=
  if -0x8000 ≤ value ∧ value ≤ 0x7FFF then
    [⟨"addiu", [rt, zero, Numeral.signed value]⟩]
  else
    let bits := (value % 0x100000000).toNat
    [⟨"lui", [rt, Numeral.decimal (bits / 0x10000)]⟩,
      ⟨"ori", [rt, rt, Numeral.decimal (bits % 0x10000)]⟩]

/-- The machine instructions for a pseudo-instruction with these operands. -/
def expand : Pseudo → List String → Except Error (List Instruction)
  | .li, [rt, imm] => do
    let value ← Operand.number imm (-0x80000000) 0xFFFFFFFF
    return load rt value
  | .move, [rd, rs] => .ok [⟨"addu", [rd, rs, zero]⟩]
  | .blt, [rs, rt, label] =>
    .ok [⟨"slt", [scratch, rs, rt]⟩, ⟨"bne", [scratch, zero, label]⟩]
  | .bgt, [rs, rt, label] =>
    .ok [⟨"slt", [scratch, rt, rs]⟩, ⟨"bne", [scratch, zero, label]⟩]
  | .traddu, [rd, rs, rt] => .ok [⟨"addu", [rd, rd, rs]⟩, ⟨"addu", [rd, rd, rt]⟩]
  | .swpr, [rs, rt] =>
    .ok [⟨"addu", [scratch, rs, zero]⟩, ⟨"addu", [rs, rt, zero]⟩, ⟨"addu", [rt, scratch, zero]⟩]
  | .mul, [rd, rs, rt] => .ok [⟨"mult", [rs, rt]⟩, ⟨"mflo", [rd]⟩]
  | .div, [rs, rt] => .ok [⟨"div", [rs, rt]⟩]
  | .div, [rd, rs, rt] => .ok [⟨"div", [rs, rt]⟩, ⟨"mflo", [rd]⟩]
  | .rem, [rd, rs, rt] => .ok [⟨"div", [rs, rt]⟩, ⟨"mfhi", [rd]⟩]
  | p, operands => .error (.invalidArity p.text p.arity operands.length)

end Pseudo

/-- The machine instructions that an instruction stands for. -/
def Instruction.expand (i : Instruction) : Except Error (List Instruction) :=
  match Pseudo.ofText? i.mnemonic with
  | some p => p.expand i.operands
  | none => .ok [i]

end MipsAssembler
