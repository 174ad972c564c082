/-
Machine words and the places of their fields.

A word is read in one of three forms, all with the opcode in the top six bits:

* the register form — opcode 0, then `rs`, `rt`, `rd`, a shift amount and a function code;
* the immediate form — opcode, `rs`, `rt` and a 16-bit immediate;
* the jump form — opcode and a 26-bit target.

`registerForm`, `immediateForm` and `jumpForm` build words, `fields` reads every field of a word
whatever its form.

Design notes: fields are natural numbers and the forms are sums of products with powers of two, so
that facts about overlapping forms are linear arithmetic.  A builder keeps only the low bits of an
argument that is too wide for its field.
-/
namespace MipsAssembler

/-- A 32-bit machine word. -/
abbrev Word := BitVec 32

/-- The fields of a word in all three forms at once. -/
structure Fields where
  opcode : Nat
  rs : Nat
  rt : Nat
  rd : Nat
  shamt : Nat
  funct : Nat
  imm : BitVec 16
  target : Nat
deriving DecidableEq, Repr

/-- The immediate as a two's complement number. -/
def Fields.signedImm (f : Fields) : Int := f.imm.toInt

namespace Word

/-- The register form with opcode 0. -/
def registerForm (rs rt rd shamt funct : Nat) : Word :=
  BitVec.ofNat 32
    (rs % 32 * 0x200000 + rt % 32 * 0x10000 + rd % 32 * 0x800
      + shamt % 32 * 0x40 + funct % 64)

/-- The immediate form. -/
def immediateForm (opcode rs rt : Nat) (imm : BitVec 16) : Word :=
  BitVec.ofNat 32
    (opcode % 64 * 0x4000000 + rs % 32 * 0x200000 + rt % 32 * 0x10000 + imm.toNat)

/-- The jump form. -/
def jumpForm (opcode target : Nat) : Word :=
  BitVec.ofNat 32 (opcode % 64 * 0x4000000 + target % 0x4000000)

/-- Every field of `w`, each read from its own place. -/
def fields (w : Word) : Fields where
  opcode := w.toNat / 0x4000000
  rs := w.toNat / 0x200000 % 32
  rt := w.toNat / 0x10000 % 32
  rd := w.toNat / 0x800 % 32
  shamt := w.toNat / 0x40 % 32
  funct := w.toNat % 64
  imm := BitVec.ofNat 16 w.toNat
  target := w.toNat % 0x4000000

/-! ### The forms as numbers

The fields of a form do not overlap, so its number is the plain sum and never wraps. -/

theorem toNat_registerForm (rs rt rd shamt funct : Nat) :
    (registerForm rs rt rd shamt funct).toNat =
      rs % 32 * 0x200000 + rt % 32 * 0x10000 + rd % 32 * 0x800
        + shamt % 32 * 0x40 + funct % 64 := by
  rw [registerForm, BitVec.toNat_ofNat]
  omega

theorem toNat_immediateForm (opcode rs rt : Nat) (imm : BitVec 16) :
    (immediateForm opcode rs rt imm).toNat =
      opcode % 64 * 0x4000000 + rs % 32 * 0x200000 + rt % 32 * 0x10000 + imm.toNat := by
  rw [immediateForm, BitVec.toNat_ofNat]
  omega

theorem toNat_jumpForm (opcode target : Nat) :
    (jumpForm opcode target).toNat = opcode % 64 * 0x4000000 + target % 0x4000000 := by
  rw [jumpForm, BitVec.toNat_ofNat]
  omega

end Word

end MipsAssembler
