/-
Words packed with shifts and masks.

The fields of a form lie side by side, so a form is just as well built by masking each argument, shifting
it to its place and or-ing everything, and a field is read by shifting the word back and masking it:

* `packRegister`, `packImmediate`, `packJump` — the three forms in shifts and masks, `unpack` — the fields;
* `toNat_shiftIn`, `toNat_shiftOut`, `toNat_or` — masks are remainders, shifts are products and quotients,
  and or-ing words without a common bit adds them;
* `forms_invert_fields` — a form gives back its arguments, cut to the width of their fields, and a word is
  rebuilt from the fields of its form.

Design notes: two words have no common bit if one is a multiple of a power of two and the other is below
it.  The forms are or-ed from the highest field down, so this covers every or in them.
-/
import Mathlib
import MipsAssembler.Proofs.WordForms

namespace MipsAssembler.Word

/-! ### Shifts and masks -/

section Shifts

variable {width place a b : Nat} {v w : Word}

/-- The low `width` bits of `v`, moved up to `place`. -/
def shiftIn (width place : Nat) (v : Word) : Word := (v &&& BitVec.ofNat 32 (2 ^ width - 1)) <<< place

/-- The `width` bits of `w` from `place` on, moved down. -/
def shiftOut (width place : Nat) (w : Word) : Word := (w >>> place) &&& BitVec.ofNat 32 (2 ^ width - 1)

/-- A mask of the low bits leaves a remainder. -/
theorem toNat_and_mask (hwidth : width ≤ 32) (v : Word) :
    (v &&& BitVec.ofNat 32 (2 ^ width - 1)).toNat = v.toNat % 2 ^ width := by
  have hpow : 2 ^ width ≤ 2 ^ 32 := Nat.pow_le_pow_right (by omega) hwidth
  have hpos : 0 < 2 ^ width := Nat.two_pow_pos width
  rw [BitVec.toNat_and, BitVec.toNat_ofNat, Nat.mod_eq_of_lt (by omega), Nat.and_two_pow_sub_one_eq_mod]

theorem toNat_shiftIn (h : width + place ≤ 32) (v : Word) :
    (shiftIn width place v).toNat = v.toNat % 2 ^ width * 2 ^ place := by
  have hfits : v.toNat % 2 ^ width * 2 ^ place < 2 ^ 32 := by
    calc v.toNat % 2 ^ width * 2 ^ place
        < 2 ^ width * 2 ^ place :=
          Nat.mul_lt_mul_of_pos_right (Nat.mod_lt _ (Nat.two_pow_pos _)) (Nat.two_pow_pos _)
      _ = 2 ^ (width + place) := (Nat.pow_add _ _ _).symm
      _ ≤ 2 ^ 32 := Nat.pow_le_pow_right (by omega) h
  rw [shiftIn, BitVec.toNat_shiftLeft, toNat_and_mask (by omega), Nat.shiftLeft_eq,
    Nat.mod_eq_of_lt hfits]

theorem toNat_shiftOut (h : width ≤ 32) (place : Nat) (w : Word) :
    (shiftOut width place w).toNat = w.toNat / 2 ^ place % 2 ^ width := by
  rw [shiftOut, toNat_and_mask h, BitVec.toNat_ushiftRight, Nat.shiftRight_eq_div_pow]

/-- Or-ing adds, if one word has no bits below `place` and the other has no others. -/
theorem toNat_or (hv : v.toNat = a) (hw : w.toNat = b) (place : Nat) (ha : 2 ^ place ∣ a)
    (hb : b < 2 ^ place) : (v ||| w).toNat = a + b := by
  obtain ⟨high, rfl⟩ := ha
  rw [BitVec.toNat_or, hv, hw, Nat.two_pow_add_eq_or_of_lt hb]

end Shifts

/-! ### Forms and fields in shifts and masks -/

/-- The register form in shifts and masks. -/
def packRegister (rs rt rd shamt funct : Word) : Word :=
  shiftIn 5 21 rs ||| shiftIn 5 16 rt ||| shiftIn 5 11 rd ||| shiftIn 5 6 shamt ||| shiftIn 6 0 funct

/-- The immediate form in shifts and masks. -/
def packImmediate (opcode rs rt : Word) (imm : BitVec 16) : Word :=
  shiftIn 6 26 opcode ||| shiftIn 5 21 rs ||| shiftIn 5 16 rt ||| imm.setWidth 32

/-- The jump form in shifts and masks. -/
def packJump (opcode target : Word) : Word := shiftIn 6 26 opcode ||| shiftIn 26 0 target

/-- Every field of `w`, read with shifts and masks. -/
def unpack (w : Word) : Fields where
  opcode := (w >>> 26).toNat
  rs := (shiftOut 5 21 w).toNat
  rt := (shiftOut 5 16 w).toNat
  rd := (shiftOut 5 11 w).toNat
  shamt := (shiftOut 5 6 w).toNat
  funct := (shiftOut 6 0 w).toNat
  imm := (shiftOut 16 0 w).setWidth 16
  target := (shiftOut 26 0 w).toNat

theorem packRegister_eq (rs rt rd shamt funct : Word) :
    packRegister rs rt rd shamt funct =
      registerForm rs.toNat rt.toNat rd.toNat shamt.toNat funct.toNat := by
  have hrs := toNat_shiftIn (show 5 + 21 ≤ 32 by omega) rs
  have hrt := toNat_shiftIn (show 5 + 16 ≤ 32 by omega) rt
  have hrd := toNat_shiftIn (show 5 + 11 ≤ 32 by omega) rd
  have hshamt := toNat_shiftIn (show 5 + 6 ≤ 32 by omega) shamt
  have hfunct := toNat_shiftIn (show 6 + 0 ≤ 32 by omega) funct
  -- Every field lies below the ones that are or-ed before it.
  have hupToRt := toNat_or hrs hrt 21 (by omega) (by omega)
  have hupToRd := toNat_or hupToRt hrd 16 (by omega) (by omega)
  have hupToShamt := toNat_or hupToRd hshamt 11 (by omega) (by omega)
  have hall := toNat_or hupToShamt hfunct 6 (by omega) (by omega)
  apply BitVec.eq_of_toNat_eq
  rw [toNat_registerForm]
  exact hall.trans (by omega)

theorem packImmediate_eq (opcode rs rt : Word) (imm : BitVec 16) :
    packImmediate opcode rs rt imm = immediateForm opcode.toNat rs.toNat rt.toNat imm := by
  have himm : imm.toNat < 0x10000 := imm.isLt
  have hopcode := toNat_shiftIn (show 6 + 26 ≤ 32 by omega) opcode
  have hrs := toNat_shiftIn (show 5 + 21 ≤ 32 by omega) rs
  have hrt := toNat_shiftIn (show 5 + 16 ≤ 32 by omega) rt
  have hwide : (imm.setWidth 32).toNat = imm.toNat := by
    rw [BitVec.toNat_setWidth]
    omega
  -- The fields are joined from the highest one down, and no two of them share a bit.
  have hupToRs := toNat_or hopcode hrs 26 (by omega) (by omega)
  have hupToRt := toNat_or hupToRs hrt 21 (by omega) (by omega)
  have hall := toNat_or hupToRt hwide 16 (by omega) (by omega)
  apply BitVec.eq_of_toNat_eq
  rw [toNat_immediateForm]
  exact hall.trans (by omega)

theorem packJump_eq (opcode target : Word) :
    packJump opcode target = jumpForm opcode.toNat target.toNat := by
  have hopcode := toNat_shiftIn (show 6 + 26 ≤ 32 by omega) opcode
  have htarget := toNat_shiftIn (show 26 + 0 ≤ 32 by omega) target
  have hall := toNat_or hopcode htarget 26 (by omega) (by omega)
  apply BitVec.eq_of_toNat_eq
  rw [toNat_jumpForm]
  exact hall.trans (by omega)

theorem unpack_eq (w : Word) : unpack w = w.fields := by
  have hopcode : (w >>> 26).toNat = w.toNat / 0x4000000 := by
    rw [BitVec.toNat_ushiftRight, Nat.shiftRight_eq_div_pow]
  have himm : (shiftOut 16 0 w).setWidth 16 = BitVec.ofNat 16 w.toNat := by
    apply BitVec.eq_of_toNat_eq
    rw [BitVec.toNat_setWidth, toNat_shiftOut (by omega), BitVec.toNat_ofNat]
    omega
  simp only [unpack, fields, hopcode, himm, toNat_shiftOut (show 5 ≤ 32 by omega),
    toNat_shiftOut (show 6 ≤ 32 by omega), toNat_shiftOut (show 26 ≤ 32 by omega), Nat.pow_zero,
    Nat.div_one, Nat.reducePow]

/-! ### Forms and fields are inverse -/

/-- The immediate is read as two's complement: from the middle on it stands for a negative number. -/
theorem signedImm_eq (f : Fields) :
    f.signedImm = if f.imm.toNat < 2 ^ 15 then (f.imm.toNat : Int) else f.imm.toNat - 2 ^ 16 := by
  rw [Fields.signedImm, BitVec.toInt_eq_toNat_cond]
  split <;> split <;> omega

/-- Only words with opcode 0 have a register form. -/
theorem registerForm_fields_iff (w : Word) :
    registerForm w.fields.rs w.fields.rt w.fields.rd w.fields.shamt w.fields.funct = w ↔
      w.fields.opcode = 0 := by
  constructor
  · intro h
    rw [← h, opcode_registerForm]
  · exact registerForm_fields

/-- **Forms and fields are inverse.**  A form gives every argument back as the field that it goes to, cut
to the width of that field, and the immediate as it is.  A word is the immediate form and the jump form of
its own fields, and their register form exactly if its opcode is 0.  All of this is shifting and masking:
the forms of words are their packings, and the fields of a word are what unpacking reads. -/
theorem forms_invert_fields :
    (∀ rs rt rd shamt funct : Nat,
      let f := (registerForm rs rt rd shamt funct).fields
      f.opcode = 0 ∧ f.rs = rs % 2 ^ 5 ∧ f.rt = rt % 2 ^ 5 ∧ f.rd = rd % 2 ^ 5 ∧
        f.shamt = shamt % 2 ^ 5 ∧ f.funct = funct % 2 ^ 6) ∧
    (∀ (opcode rs rt : Nat) (imm : BitVec 16),
      let f := (immediateForm opcode rs rt imm).fields
      f.opcode = opcode % 2 ^ 6 ∧ f.rs = rs % 2 ^ 5 ∧ f.rt = rt % 2 ^ 5 ∧ f.imm = imm ∧
        f.signedImm = if imm.toNat < 2 ^ 15 then (imm.toNat : Int) else imm.toNat - 2 ^ 16) ∧
    (∀ opcode target : Nat,
      let f := (jumpForm opcode target).fields
      f.opcode = opcode % 2 ^ 6 ∧ f.target = target % 2 ^ 26) ∧
    (∀ w : Word,
      let f := w.fields
      immediateForm f.opcode f.rs f.rt f.imm = w ∧ jumpForm f.opcode f.target = w ∧
        (registerForm f.rs f.rt f.rd f.shamt f.funct = w ↔ f.opcode = 0)) ∧
    (∀ rs rt rd shamt funct : Word,
      registerForm rs.toNat rt.toNat rd.toNat shamt.toNat funct.toNat =
        packRegister rs rt rd shamt funct) ∧
    (∀ (opcode rs rt : Word) (imm : BitVec 16),
      immediateForm opcode.toNat rs.toNat rt.toNat imm = packImmediate opcode rs rt imm) ∧
    (∀ opcode target : Word, jumpForm opcode.toNat target.toNat = packJump opcode target) ∧
    ∀ w : Word, w.fields = unpack w := by
  refine ⟨?_, ?_, ?_, ?_, fun _ _ _ _ _ => (packRegister_eq _ _ _ _ _).symm,
    fun _ _ _ _ => (packImmediate_eq _ _ _ _).symm, fun _ _ => (packJump_eq _ _).symm,
    fun w => (unpack_eq w).symm⟩
  · intro rs rt rd shamt funct
    exact ⟨opcode_registerForm .., rs_registerForm .., rt_registerForm .., rd_registerForm ..,
      shamt_registerForm .., funct_registerForm ..⟩
  · intro opcode rs rt imm f
    have himm : f.imm = imm := imm_immediateForm ..
    refine ⟨opcode_immediateForm .., rs_immediateForm .., rt_immediateForm .., himm, ?_⟩
    rw [← himm]
    exact signedImm_eq f
  · intro opcode target
    exact ⟨opcode_jumpForm .., target_jumpForm ..⟩
  · intro w
    exact ⟨immediateForm_fields w, jumpForm_fields w, registerForm_fields_iff w⟩

end MipsAssembler.Word
