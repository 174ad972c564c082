/-
Machine operations and their words.

* `Op.encode` — the word of an operation, or the reason why it has none: a shift amount or a jump
  target that is too wide for its field;
* `Op.decode` — the operation that a word stands for, if its codes name one.  Bits that the format
  does not use are ignored.
-/
import MipsAssembler.Mnemonic
import MipsAssembler.Register

namespace MipsAssembler

/-- A machine operation with its operands. -/
inductive Op
  | regReg (code : RegRegCode) (rd rs rt : Register)
  | shift (code : ShiftCode) (rd rt : Register) (shamt : Nat)
  | jumpReg (code : JumpRegCode) (rs : Register)
  | mulDiv (code : MulDivCode) (rs rt : Register)
  | moveFrom (code : MoveFromCode) (rd : Register)
  | immediate (code : ImmediateCode) (rt rs : Register) (imm : BitVec 16)
  | memory (code : MemoryCode) (rt base : Register) (offset : BitVec 16)
  | branch (code : BranchCode) (rs rt : Register) (offset : BitVec 16)
  | jump (code : JumpCode) (target : Nat)
deriving DecidableEq, Repr

/-- Why an operation has no word. -/
inductive EncodeError
  | shiftOutOfRange (shamt : Nat)
  | targetOutOfRange (target : Nat)
deriving DecidableEq, Repr

def EncodeError.message : EncodeError → String
  | .shiftOutOfRange shamt =>
    "shift amount " ++ Numeral.decimal shamt ++ " does not fit in 5 bits"
  | .targetOutOfRange target =>
    "jump target 0x" ++ Numeral.hex target ++ " does not fit in 26 bits"

namespace Op

/-- The mnemonic of an operation. -/
def mnemonic : Op → Mnemonic
  | .regReg code .. => .regReg code
  | .shift code .. => .shift code
  | .jumpReg code .. => .jumpReg code
  | .mulDiv code .. => .mulDiv code
  | .moveFrom code .. => .moveFrom code
  | .immediate code .. => .immediate code
  | .memory code .. => .memory code
  | .branch code .. => .branch code
  | .jump code .. => .jump code

/-- The word of an operation; unused fields are zero. -/
def encode : Op → Except EncodeError Word
  | .regReg code rd rs rt =>
    .ok (Word.registerForm rs.number rt.number rd.number 0 code.funct)
  | .shift code rd rt shamt =>
    if shamt < 32 then .ok (Word.registerForm 0 rt.number rd.number shamt code.funct)
    else .error (.shiftOutOfRange shamt)
  | .jumpReg code rs => .ok (Word.registerForm rs.number 0 0 0 code.funct)
  | .mulDiv code rs rt => .ok (Word.registerForm rs.number rt.number 0 0 code.funct)
  | .moveFrom code rd => .ok (Word.registerForm 0 0 rd.number 0 code.funct)
  | .immediate code rt rs imm => .ok (Word.immediateForm code.opcode rs.number rt.number imm)
  | .memory code rt base offset =>
    .ok (Word.immediateForm code.opcode base.number rt.number offset)
  | .branch code rs rt offset => .ok (Word.immediateForm code.opcode rs.number rt.number offset)
  | .jump code target =>
    if target < 0x4000000 then .ok (Word.jumpForm code.opcode target)
    else .error (.targetOutOfRange target)

/-- The operation that `m` makes of the fields of a word. -/
def ofFields (m : Mnemonic) (f : Fields) : Op :=
  match m with
  | .regReg code => .regReg code (.ofField f.rd) (.ofField f.rs) (.ofField f.rt)
  | .shift code => .shift code (.ofField f.rd) (.ofField f.rt) f.shamt
  | .jumpReg code => .jumpReg code (.ofField f.rs)
  | .mulDiv code => .mulDiv code (.ofField f.rs) (.ofField f.rt)
  | .moveFrom code => .moveFrom code (.ofField f.rd)
  | .immediate code => .immediate code (.ofField f.rt) (.ofField f.rs) f.imm
  | .memory code => .memory code (.ofField f.rt) (.ofField f.rs) f.imm
  | .branch code => .branch code (.ofField f.rs) (.ofField f.rt) f.imm
  | .jump code => .jump code f.target

/-- The operation that `w` stands for. -/
def decode (w : Word) : Option Op :=
  (Mnemonic.ofFields? w.fields).map (ofFields · w.fields)

end Op

end MipsAssembler
