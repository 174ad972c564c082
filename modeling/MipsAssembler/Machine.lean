/-
What words do: a machine with registers and without memory.

`Machine.exec` gives the effect of one operation and `Machine.run` that of a list of words in order.
Loads and stores have no effect to speak of without a memory, so they, like words that decode to
nothing, end a run with `none`.

Design notes: register zero reads as zero whatever is written to it.  Every operation but a branch or
jump that is taken moves on to the next word; there are no delay slots.  A division by zero leaves `hi`
and `lo` as they are.
-/
import MipsAssembler.Op

namespace MipsAssembler

/-- The state of the machine. -/
structure Machine where
  registers : Register → Word
  hi : Word
  lo : Word
  pc : Word

namespace Machine

/-- What a register reads as. -/
def get (m : Machine) (r : Register) : Word := if r = .zero then 0 else m.registers r

/-- Writes a register. -/
def set (m : Machine) (r : Register) (w : Word) : Machine :=
  { m with registers := fun r' => if r' = r then w else m.registers r' }

/-- Moves on to the next word. -/
def next (m : Machine) : Machine := { m with pc := m.pc + 4 }

/-- The address that a branch at the current word leads to. -/
def branchAddress (m : Machine) (offset : BitVec 16) : Word :=
  m.pc + 4 + 4 * offset.signExtend 32

/-- The address that a jump at the current word leads to, in the same part of the address space. -/
def jumpAddress (m : Machine) (target : Nat) : Word :=
  BitVec.ofNat 32 ((m.pc + 4).toNat / 0x10000000 * 0x10000000 + 4 * target)

def alu : RegRegCode → Word → Word → Word
  | .addu, s, t => s + t
  | .subu, s, t => s - t
  | .and, s, t => s &&& t
  | .or, s, t => s ||| t
  | .xor, s, t => s ^^^ t
  | .nor, s, t => ~~~(s ||| t)
  | .slt, s, t => if s.slt t then 1 else 0
  | .sltu, s, t => if s.ult t then 1 else 0

def shifted : ShiftCode → Word → Nat → Word
  | .sll, t, shamt => t <<< shamt
  | .srl, t, shamt => t >>> shamt
  | .sra, t, shamt => t.sshiftRight shamt

/-- The product of signed words fills `hi` and `lo`; a quotient toward zero goes to `lo` and its
remainder to `hi`. -/
def mulDiv (m : Machine) : MulDivCode → Word → Word → Machine
  | .mult, s, t =>
    let product := BitVec.ofInt 64 (s.toInt * t.toInt)
    { m with hi := product.extractLsb' 32 32, lo := product.extractLsb' 0 32 }
  | .div, s, t => if t = 0 then m else { m with hi := s.srem t, lo := s.sdiv t }

def immediate : ImmediateCode → Word → BitVec 16 → Word
  | .addiu, s, imm => s + imm.signExtend 32
  | .ori, s, imm => s ||| imm.setWidth 32
  | .lui, _, imm => imm.setWidth 32 <<< 16

def taken : BranchCode → Word → Word → Bool
  | .beq, s, t => s == t
  | .bne, s, t => s != t

/-- The effect of one operation. -/
def exec (m : Machine) : Op → Option Machine
  | .regReg code rd rs rt => some (m.set rd (alu code (m.get rs) (m.get rt))).next
  | .shift code rd rt shamt => some (m.set rd (shifted code (m.get rt) shamt)).next
  | .jumpReg .jr rs => some { m with pc := m.get rs }
  | .mulDiv code rs rt => some (m.mulDiv code (m.get rs) (m.get rt)).next
  | .moveFrom .mfhi rd => some (m.set rd m.hi).next
  | .moveFrom .mflo rd => some (m.set rd m.lo).next
  | .immediate code rt rs imm => some (m.set rt (immediate code (m.get rs) imm)).next
  | .memory .. => none
  | .branch code rs rt offset =>
    if taken code (m.get rs) (m.get rt) then some { m with pc := m.branchAddress offset }
    else some m.next
  | .jump .j target => some { m with pc := m.jumpAddress target }
  | .jump .jal target =>
    some { m.set (.ofField 31) (m.pc + 4) with pc := m.jumpAddress target }

/-- The effect of words, one after the other. -/
def run (m : Machine) : List Word → Option Machine
  | [] => some m
  | w :: ws => do
    let op ← Op.decode w
    let m ← m.exec op
    m.run ws

/-! ### Reading after writing -/

@[simp] theorem get_zero (m : Machine) : m.get .zero = 0 := by
  simp [get]

theorem get_set (m : Machine) (r r' : Register) (w : Word) :
    (m.set r w).get r' = if r' = .zero then 0 else if r' = r then w else m.get r' := by
  by_cases h : r' = .zero <;> simp [get, set, h]

@[simp] theorem get_next (m : Machine) (r : Register) : m.next.get r = m.get r := rfl

end Machine

end MipsAssembler
