/-
The forms of a word against its fields.

Each builder puts its arguments, cut to the width of their fields, in the places where `Word.fields`
reads them, and a word is rebuilt from the fields of its form:

* `registerForm_fields`, `immediateForm_fields`, `jumpForm_fields` — the form of the fields of `w` is
  `w` itself, for the register form provided that the opcode is 0;
* `getLsbD_registerForm` — the register form, bit by bit.

Design notes: a field is a quotient and a remainder of the word's number, so the facts about single
fields are linear arithmetic.  Bits are only needed where parts of a word are cleared.
-/
import MipsAssembler.Word

namespace MipsAssembler.Word

/-! ### Fields of a form -/

section RegisterForm

variable (rs rt rd shamt funct : Nat)

@[simp] theorem opcode_registerForm :
    (registerForm rs rt rd shamt funct).fields.opcode = 0 := by
  simp only [fields, toNat_registerForm]
  omega

@[simp] theorem rs_registerForm :
    (registerForm rs rt rd shamt funct).fields.rs = rs % 32 := by
  simp only [fields, toNat_registerForm]
  omega

@[simp] theorem rt_registerForm :
    (registerForm rs rt rd shamt funct).fields.rt = rt % 32 := by
  simp only [fields, toNat_registerForm]
  omega

@[simp] theorem rd_registerForm :
    (registerForm rs rt rd shamt funct).fields.rd = rd % 32 := by
  simp only [fields, toNat_registerForm]
  omega

@[simp] theorem shamt_registerForm :
    (registerForm rs rt rd shamt funct).fields.shamt = shamt % 32 := by
  simp only [fields, toNat_registerForm]
  omega

@[simp] theorem funct_registerForm :
    (registerForm rs rt rd shamt funct).fields.funct = funct % 64 := by
  simp only [fields, toNat_registerForm]
  omega

end RegisterForm

section ImmediateForm

variable (opcode rs rt : Nat) (imm : BitVec 16)

@[simp] theorem opcode_immediateForm :
    (immediateForm opcode rs rt imm).fields.opcode = opcode % 64 := by
  have himm : imm.toNat < 0x10000 := imm.isLt
  simp only [fields, toNat_immediateForm]
  omega

@[simp] theorem rs_immediateForm :
    (immediateForm opcode rs rt imm).fields.rs = rs % 32 := by
  have himm : imm.toNat < 0x10000 := imm.isLt
  simp only [fields, toNat_immediateForm]
  omega

@[simp] theorem rt_immediateForm :
    (immediateForm opcode rs rt imm).fields.rt = rt % 32 := by
  have himm : imm.toNat < 0x10000 := imm.isLt
  simp only [fields, toNat_immediateForm]
  omega

@[simp] theorem imm_immediateForm :
    (immediateForm opcode rs rt imm).fields.imm = imm := by
  have himm : imm.toNat < 0x10000 := imm.isLt
  apply BitVec.eq_of_toNat_eq
  simp only [fields, toNat_immediateForm, BitVec.toNat_ofNat]
  omega

end ImmediateForm

@[simp] theorem opcode_jumpForm (opcode target : Nat) :
    (jumpForm opcode target).fields.opcode = opcode % 64 := by
  simp only [fields, toNat_jumpForm]
  omega

@[simp] theorem target_jumpForm (opcode target : Nat) :
    (jumpForm opcode target).fields.target = target % 0x4000000 := by
  simp only [fields, toNat_jumpForm]
  omega

/-! ### The form of the fields -/

theorem registerForm_fields {w : Word} (h : w.fields.opcode = 0) :
    registerForm w.fields.rs w.fields.rt w.fields.rd w.fields.shamt w.fields.funct = w := by
  have hw : w.toNat < 0x100000000 := w.isLt
  apply BitVec.eq_of_toNat_eq
  simp only [fields] at h
  simp only [toNat_registerForm, fields]
  omega

theorem immediateForm_fields (w : Word) :
    immediateForm w.fields.opcode w.fields.rs w.fields.rt w.fields.imm = w := by
  have hw : w.toNat < 0x100000000 := w.isLt
  apply BitVec.eq_of_toNat_eq
  simp only [toNat_immediateForm, fields, BitVec.toNat_ofNat]
  omega

theorem jumpForm_fields (w : Word) : jumpForm w.fields.opcode w.fields.target = w := by
  have hw : w.toNat < 0x100000000 := w.isLt
  apply BitVec.eq_of_toNat_eq
  simp only [toNat_jumpForm, fields]
  omega

/-- Every field of a word but its immediate is below the bound of its width. -/
theorem fields_lt (w : Word) :
    w.fields.rs < 32 ∧ w.fields.rt < 32 ∧ w.fields.rd < 32 ∧ w.fields.shamt < 32 ∧
      w.fields.funct < 64 ∧ w.fields.target < 0x4000000 := by
  simp only [fields]
  omega

/-! ### Bits of the register form -/

/-- Bit `i` of the register form is a bit of the field that holds the place. -/
theorem getLsbD_registerForm (rs rt rd shamt funct i : Nat) :
    (registerForm rs rt rd shamt funct).getLsbD i =
      if i < 6 then (funct % 64).testBit i
      else if i < 11 then (shamt % 32).testBit (i - 6)
      else if i < 16 then (rd % 32).testBit (i - 11)
      else if i < 21 then (rt % 32).testBit (i - 16)
      else if i < 26 then (rs % 32).testBit (i - 21)
      else false := by
  -- The sum of products as nested shifts, the lowest field outermost.
  have hnest : (registerForm rs rt rd shamt funct).toNat =
      2 ^ 6 * (2 ^ 5 * (2 ^ 5 * (2 ^ 5 * (rs % 32) + rt % 32) + rd % 32) + shamt % 32)
        + funct % 64 := by
    rw [toNat_registerForm]
    omega
  rw [← BitVec.testBit_toNat, hnest]
  rw [Nat.testBit_two_pow_mul_add _ (show funct % 64 < 2 ^ 6 by omega)]
  rw [Nat.testBit_two_pow_mul_add _ (show shamt % 32 < 2 ^ 5 by omega)]
  rw [Nat.testBit_two_pow_mul_add _ (show rd % 32 < 2 ^ 5 by omega)]
  rw [Nat.testBit_two_pow_mul_add _ (show rt % 32 < 2 ^ 5 by omega)]
  have hrs : 26 ≤ i → (rs % 32).testBit (i - 21) = false := by
    intro hi
    have hpow : 2 ^ 5 ≤ 2 ^ (i - 21) := Nat.pow_le_pow_right (by omega) (by omega)
    exact Nat.testBit_lt_two_pow (by omega)
  grind

/-- The bits of a word with opcode 0, by the fields that they belong to. -/
theorem getLsbD_eq_of_opcode_eq_zero {w : Word} (h : w.fields.opcode = 0) (i : Nat) :
    w.getLsbD i =
      if i < 6 then w.fields.funct.testBit i
      else if i < 11 then w.fields.shamt.testBit (i - 6)
      else if i < 16 then w.fields.rd.testBit (i - 11)
      else if i < 21 then w.fields.rt.testBit (i - 16)
      else if i < 26 then w.fields.rs.testBit (i - 21)
      else false := by
  obtain ⟨hrs, hrt, hrd, hshamt, hfunct, _⟩ := w.fields_lt
  have hbits := getLsbD_registerForm w.fields.rs w.fields.rt w.fields.rd w.fields.shamt
    w.fields.funct i
  rw [registerForm_fields h, Nat.mod_eq_of_lt hrs, Nat.mod_eq_of_lt hrt, Nat.mod_eq_of_lt hrd,
    Nat.mod_eq_of_lt hshamt, Nat.mod_eq_of_lt hfunct] at hbits
  exact hbits

end MipsAssembler.Word
