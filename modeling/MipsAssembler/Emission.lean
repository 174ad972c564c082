/-
From one placed instruction to its word.

An instruction is checked from left to right: its mnemonic, the number of its operands, then each
operand.  A branch reads its target from the label table.  A jump leaves its target open: its word has
target zero, and the name that it jumps to becomes a relocation site at the jump's own address.

* `Mnemonic.resolve` — the operation that a mnemonic makes of its operands;
* `Instruction.emit` — the word and the relocation site.
-/
import MipsAssembler.Instruction
import MipsAssembler.Operand
import MipsAssembler.SymbolTable

namespace MipsAssembler

/-- The distance in words from the instruction after `address` to `target`, as a branch encodes it. -/
def branchOffset (address target : Nat) : Except Error (BitVec 16) :=
  let delta : Int := target - (address + 4)
  if delta % 4 ≠ 0 then
    .error (.misalignedAddress (if target % 4 ≠ 0 then target else address))
  else if -0x8000 ≤ delta / 4 ∧ delta / 4 ≤ 0x7FFF then .ok (BitVec.ofInt 16 (delta / 4))
  else .error (.unreachableBranch address target)

/-- The address of the label that a branch names. -/
def branchTarget (labels : SymbolTable) (name : String) : Except Error Nat :=
  (labels.lookup name).mapError fun _ => .unresolvedLabel name

open Operand in
/-- The operation that `m` makes of its operands at `address`. -/
def Mnemonic.resolve (m : Mnemonic) (operands : List String) (address : Nat)
    (labels : SymbolTable) : Except Error Op :=
  match m, operands with
  | .regReg code, [rd, rs, rt] => do
    return .regReg code (← register rd) (← register rs) (← register rt)
  | .shift code, [rd, rt, shamt] => do
    return .shift code (← register rd) (← register rt) (← number shamt 0 31).toNat
  | .jumpReg code, [rs] => do
    return .jumpReg code (← register rs)
  | .mulDiv code, [rs, rt] => do
    return .mulDiv code (← register rs) (← register rt)
  | .moveFrom code, [rd] => do
    return .moveFrom code (← register rd)
  | .immediate .addiu, [rt, rs, imm] => do
    return .immediate .addiu (← register rt) (← register rs)
      (BitVec.ofInt 16 (← number imm (-0x80000000) 0x7FFFFFFF))
  | .immediate .ori, [rt, rs, imm] => do
    return .immediate .ori (← register rt) (← register rs)
      (BitVec.ofInt 16 (← number imm 0 0xFFFF))
  | .immediate .lui, [rt, imm] => do
    return .immediate .lui (← register rt) .zero
      (BitVec.ofInt 16 (← number imm (-0x80000000) 0xFFFFFFFF))
  | .memory code, [rt, offset, base] => do
    let rt ← register rt
    let offset ← number offset (-0x8000) 0x7FFF
    return .memory code rt (← register base) (BitVec.ofInt 16 offset)
  | .branch code, [rs, rt, name] => do
    let rs ← register rs
    let rt ← register rt
    let target ← branchTarget labels (← label name)
    return .branch code rs rt (← branchOffset address target)
  | .jump code, [name] => do
    let _ ← label name
    return .jump code 0
  | m, operands => .error (.invalidArity m.text m.arity operands.length)

/-- What one instruction gives: its word and, for a jump, a relocation site. -/
structure Emission where
  word : Word
  relocation : Option Symbol
deriving DecidableEq, Repr

/-- The word of an instruction at `address`, with the relocation site that is to be entered. -/
def Instruction.emit (i : Instruction) (address : Nat) (labels relocations : SymbolTable) :
    Except Error Emission :=
  match Mnemonic.ofText? i.mnemonic with
  | none => .error (.unknownInstruction i.mnemonic)
  | some m => do
    let op ← m.resolve i.operands address labels
    let word ← op.encode.mapError Error.ofEncode
    match m, i.operands with
    | .jump _, [name] =>
      let site ← relocations.entryFor name address
      return { word, relocation := some site }
    | _, _ => return { word, relocation := none }

end MipsAssembler
