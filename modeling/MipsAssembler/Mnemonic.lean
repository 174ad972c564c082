/-
The twenty-eight machine mnemonics, grouped by operand format.

Each group is a type of its own, so that an operation can only carry a code of its format.  A
`Mnemonic` is a code of any group: it has a text, the opcode and function code that select it in a
word, and the number of operands that it takes.
-/
import MipsAssembler.Word

namespace MipsAssembler

/-- Operations on two registers with a register result. -/
inductive RegRegCode
  | addu | subu | and | or | xor | nor | slt | sltu
deriving DecidableEq, Repr

/-- Shifts by a constant amount. -/
inductive ShiftCode
  | sll | srl | sra
deriving DecidableEq, Repr

/-- Jumps to a register. -/
inductive JumpRegCode
  | jr
deriving DecidableEq, Repr

/-- Operations on two registers with their result in `hi` and `lo`. -/
inductive MulDivCode
  | mult | div
deriving DecidableEq, Repr

/-- Moves from `hi` or `lo`. -/
inductive MoveFromCode
  | mfhi | mflo
deriving DecidableEq, Repr

/-- Operations with a 16-bit constant. -/
inductive ImmediateCode
  | addiu | ori | lui
deriving DecidableEq, Repr

/-- Loads and stores. -/
inductive MemoryCode
  | lb | lw | lbu | sb | sw
deriving DecidableEq, Repr

/-- Conditional branches. -/
inductive BranchCode
  | beq | bne
deriving DecidableEq, Repr

/-- Jumps to an absolute target. -/
inductive JumpCode
  | j | jal
deriving DecidableEq, Repr

/-- A code of any format. -/
inductive Mnemonic
  | regReg (code : RegRegCode)
  | shift (code : ShiftCode)
  | jumpReg (code : JumpRegCode)
  | mulDiv (code : MulDivCode)
  | moveFrom (code : MoveFromCode)
  | immediate (code : ImmediateCode)
  | memory (code : MemoryCode)
  | branch (code : BranchCode)
  | jump (code : JumpCode)
deriving DecidableEq, Repr

/-! ### Codes in a word

The first five formats share opcode 0 and are told apart by their function code; the others have an
opcode of their own. -/

def RegRegCode.funct : RegRegCode → Nat
  | .addu => 0x21
  | .subu => 0x23
  | .and => 0x24
  | .or => 0x25
  | .xor => 0x26
  | .nor => 0x27
  | .slt => 0x2A
  | .sltu => 0x2B

def ShiftCode.funct : ShiftCode → Nat
  | .sll => 0x00
  | .srl => 0x02
  | .sra => 0x03

def JumpRegCode.funct : JumpRegCode → Nat
  | .jr => 0x08

def MulDivCode.funct : MulDivCode → Nat
  | .mult => 0x18
  | .div => 0x1A

def MoveFromCode.funct : MoveFromCode → Nat
  | .mfhi => 0x10
  | .mflo => 0x12

def ImmediateCode.opcode : ImmediateCode → Nat
  | .addiu => 0x09
  | .ori => 0x0D
  | .lui => 0x0F

def MemoryCode.opcode : MemoryCode → Nat
  | .lb => 0x20
  | .lw => 0x23
  | .lbu => 0x24
  | .sb => 0x28
  | .sw => 0x2B

def BranchCode.opcode : BranchCode → Nat
  | .beq => 0x04
  | .bne => 0x05

def JumpCode.opcode : JumpCode → Nat
  | .j => 0x02
  | .jal => 0x03

namespace Mnemonic

/-- Every mnemonic, format by format. -/
def all : List Mnemonic :=
  [.regReg .addu, .regReg .subu, .regReg .and, .regReg .or, .regReg .xor, .regReg .nor,
    .regReg .slt, .regReg .sltu, .shift .sll, .shift .srl, .shift .sra, .jumpReg .jr,
    .mulDiv .mult, .mulDiv .div, .moveFrom .mfhi, .moveFrom .mflo, .immediate .addiu,
    .immediate .ori, .immediate .lui, .memory .lb, .memory .lw, .memory .lbu, .memory .sb,
    .memory .sw, .branch .beq, .branch .bne, .jump .j, .jump .jal]

/-- Whether the opcode, and for opcode 0 the function code, of `f` select `m`. -/
def selectedBy (m : Mnemonic) (f : Fields) : Bool :=
  match m with
  | .regReg code => f.opcode == 0 && f.funct == code.funct
  | .shift code => f.opcode == 0 && f.funct == code.funct
  | .jumpReg code => f.opcode == 0 && f.funct == code.funct
  | .mulDiv code => f.opcode == 0 && f.funct == code.funct
  | .moveFrom code => f.opcode == 0 && f.funct == code.funct
  | .immediate code => f.opcode == code.opcode
  | .memory code => f.opcode == code.opcode
  | .branch code => f.opcode == code.opcode
  | .jump code => f.opcode == code.opcode

/-- The mnemonic that the fields of a word select. -/
def ofFields? (f : Fields) : Option Mnemonic := all.find? (·.selectedBy f)

/-! ### Mnemonics in a source text -/

/-- How the mnemonic is written, always in lower case. -/
def text : Mnemonic → String
  | .regReg .addu => "addu"
  | .regReg .subu => "subu"
  | .regReg .and => "and"
  | .regReg .or => "or"
  | .regReg .xor => "xor"
  | .regReg .nor => "nor"
  | .regReg .slt => "slt"
  | .regReg .sltu => "sltu"
  | .shift .sll => "sll"
  | .shift .srl => "srl"
  | .shift .sra => "sra"
  | .jumpReg .jr => "jr"
  | .mulDiv .mult => "mult"
  | .mulDiv .div => "div"
  | .moveFrom .mfhi => "mfhi"
  | .moveFrom .mflo => "mflo"
  | .immediate .addiu => "addiu"
  | .immediate .ori => "ori"
  | .immediate .lui => "lui"
  | .memory .lb => "lb"
  | .memory .lw => "lw"
  | .memory .lbu => "lbu"
  | .memory .sb => "sb"
  | .memory .sw => "sw"
  | .branch .beq => "beq"
  | .branch .bne => "bne"
  | .jump .j => "j"
  | .jump .jal => "jal"

/-- The mnemonic that `s` writes. -/
def ofText? (s : String) : Option Mnemonic := all.find? (·.text == s)

/-- How many operands the mnemonic takes. -/
def arity : Mnemonic → Nat
  | .regReg _ => 3
  | .shift _ => 3
  | .jumpReg _ => 1
  | .mulDiv _ => 2
  | .moveFrom _ => 1
  | .immediate .lui => 2
  | .immediate _ => 3
  | .memory _ => 3
  | .branch _ => 3
  | .jump _ => 1

end Mnemonic

end MipsAssembler
