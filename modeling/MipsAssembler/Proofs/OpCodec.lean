/-
Operations and words: `Op.encode` and `Op.decode` undo each other.

* `decode_eq_some_iff` — a word decodes to an operation exactly when it carries the operation's
  opcode and function code and its fields hold the operands;
* `decode_of_encode` — the word of an operation decodes to that operation;
* `encode_of_decode` — an operation that was decoded has a word, the decoded one with the bits
  cleared that the format does not use.

Design notes: the opcode and, under opcode 0, the function code of a word make up its selector.  No
two mnemonics share a selector, so the first mnemonic that a word selects is the only one, and the
order in which formats are tried does not matter.
-/
import MipsAssembler.Op
import MipsAssembler.Proofs.WordForms

namespace MipsAssembler

/-! ### Selectors -/

/-- The opcode of a word and, under opcode 0, its function code. -/
def Fields.selector (f : Fields) : Nat × Option Nat :=
  (f.opcode, if f.opcode = 0 then some f.funct else none)

namespace Mnemonic

/-- The opcode and function code that select a mnemonic. -/
def selector : Mnemonic → Nat × Option Nat
  | .regReg code => (0, some code.funct)
  | .shift code => (0, some code.funct)
  | .jumpReg code => (0, some code.funct)
  | .mulDiv code => (0, some code.funct)
  | .moveFrom code => (0, some code.funct)
  | .immediate code => (code.opcode, none)
  | .memory code => (code.opcode, none)
  | .branch code => (code.opcode, none)
  | .jump code => (code.opcode, none)

theorem mem_all (m : Mnemonic) : m ∈ all := by
  cases m with
  | _ code => cases code <;> decide

/-- No two mnemonics share a selector. -/
theorem selector_injective {m m' : Mnemonic} (h : m.selector = m'.selector) : m = m' := by
  -- There are 28 mnemonics, so all pairs can be tried.
  have hall : ∀ m ∈ all, ∀ m' ∈ all, m.selector = m'.selector → m = m' := by decide
  exact hall m m.mem_all m' m'.mem_all h

theorem selectedBy_iff {m : Mnemonic} {f : Fields} :
    m.selectedBy f ↔ f.selector = m.selector := by
  cases m with
  | _ code => cases code <;> grind [selectedBy, selector, Fields.selector, RegRegCode.funct,
      ShiftCode.funct, JumpRegCode.funct, MulDivCode.funct, MoveFromCode.funct,
      ImmediateCode.opcode, MemoryCode.opcode, BranchCode.opcode, JumpCode.opcode]

theorem selector_of_ofFields? {f : Fields} {m : Mnemonic} (h : ofFields? f = some m) :
    f.selector = m.selector := by
  rw [ofFields?] at h
  have hm := List.find?_some h
  exact selectedBy_iff.mp hm

/-- The mnemonic found for a word is the one with the word's selector. -/
theorem ofFields?_eq_some_iff {f : Fields} {m : Mnemonic} :
    ofFields? f = some m ↔ f.selector = m.selector := by
  refine ⟨selector_of_ofFields?, fun h => ?_⟩
  obtain ⟨m', hm'⟩ : ∃ m', ofFields? f = some m' := by
    rw [← Option.isSome_iff_exists, ofFields?, List.find?_isSome]
    exact ⟨m, m.mem_all, selectedBy_iff.mpr h⟩
  rw [hm', selector_injective (h.symm.trans (selector_of_ofFields? hm'))]

end Mnemonic

/-! ### Registers in fields -/

@[simp] theorem Register.number_ofField (field : Nat) :
    (Register.ofField field).number.val = field % 32 := rfl

@[simp] theorem Register.ofField_number_mod (r : Register) :
    Register.ofField (r.number.val % 32) = r := by
  have hnum : Fin.ofNat 32 (r.number.val % 32) = r.number := by
    apply Fin.ext
    rw [Fin.val_ofNat]
    omega
  rw [Register.ofField, hnum]

namespace Op

/-! ### Decoding -/

@[simp] theorem mnemonic_ofFields (m : Mnemonic) (f : Fields) : (ofFields m f).mnemonic = m := by
  cases m <;> rfl

/-- A word stands for `op` exactly when it has the selector of `op` and holds its operands. -/
theorem decode_eq_some_iff {w : Word} {op : Op} :
    decode w = some op ↔
      w.fields.selector = op.mnemonic.selector ∧ ofFields op.mnemonic w.fields = op := by
  rw [decode, Option.map_eq_some_iff]
  constructor
  · rintro ⟨m, hm, rfl⟩
    rw [mnemonic_ofFields]
    exact ⟨Mnemonic.ofFields?_eq_some_iff.mp hm, rfl⟩
  · rintro ⟨hsel, hop⟩
    exact ⟨op.mnemonic, Mnemonic.ofFields?_eq_some_iff.mpr hsel, hop⟩

/-! ### The word of an operation -/

/-- The operations without a word: those with a shift amount or a jump target that is too wide. -/
theorem encode_eq_error_iff {op : Op} :
    (∃ e, op.encode = .error e) ↔
      (∃ code rd rt shamt, op = .shift code rd rt shamt ∧ 31 < shamt) ∨
        ∃ code target, op = .jump code target ∧ 0x4000000 ≤ target := by
  cases op with
  | shift code rd rt shamt =>
    simp only [encode]
    split
    · simp
      omega
    · simp only [Except.error.injEq, exists_eq', true_iff]
      exact .inl ⟨code, rd, rt, shamt, rfl, by omega⟩
  | jump code target =>
    simp only [encode]
    split
    · simp
      omega
    · simp only [Except.error.injEq, exists_eq', true_iff]
      exact .inr ⟨code, target, rfl, by omega⟩
  | _ => simp [encode]

/-- The word of an operation has the selector of the operation. -/
theorem selector_of_encode {op : Op} {w : Word} (h : op.encode = .ok w) :
    w.fields.selector = op.mnemonic.selector := by
  cases op with
  | regReg code rd rs rt =>
    obtain rfl := Except.ok.inj h
    cases code <;> simp [Fields.selector, mnemonic, Mnemonic.selector, RegRegCode.funct]
  | shift code rd rt shamt =>
    -- An amount that does not fit is refused, and there is no word to speak of.
    simp only [encode] at h
    split at h
    · obtain rfl := Except.ok.inj h
      cases code <;> simp [Fields.selector, mnemonic, Mnemonic.selector, ShiftCode.funct]
    · cases h
  | jumpReg code rs =>
    obtain rfl := Except.ok.inj h
    cases code
    simp [Fields.selector, mnemonic, Mnemonic.selector, JumpRegCode.funct]
  | mulDiv code rs rt =>
    obtain rfl := Except.ok.inj h
    cases code <;> simp [Fields.selector, mnemonic, Mnemonic.selector, MulDivCode.funct]
  | moveFrom code rd =>
    obtain rfl := Except.ok.inj h
    cases code <;> simp [Fields.selector, mnemonic, Mnemonic.selector, MoveFromCode.funct]
  | immediate code rt rs imm =>
    obtain rfl := Except.ok.inj h
    cases code <;> simp [Fields.selector, mnemonic, Mnemonic.selector, ImmediateCode.opcode]
  | memory code rt base offset =>
    obtain rfl := Except.ok.inj h
    cases code <;> simp [Fields.selector, mnemonic, Mnemonic.selector, MemoryCode.opcode]
  | branch code rs rt offset =>
    obtain rfl := Except.ok.inj h
    cases code <;> simp [Fields.selector, mnemonic, Mnemonic.selector, BranchCode.opcode]
  | jump code target =>
    simp only [encode] at h
    split at h
    · obtain rfl := Except.ok.inj h
      cases code <;> simp [Fields.selector, mnemonic, Mnemonic.selector, JumpCode.opcode]
    · cases h

/-- The fields of the word of an operation hold its operands. -/
theorem ofFields_of_encode {op : Op} {w : Word} (h : op.encode = .ok w) :
    ofFields op.mnemonic w.fields = op := by
  cases op with
  | shift code rd rt shamt =>
    -- The amount was found to be less than the modulus of its field.
    simp only [encode] at h
    split at h
    case isTrue hlt =>
      obtain rfl := Except.ok.inj h
      simp [mnemonic, ofFields, Nat.mod_eq_of_lt hlt]
    case isFalse => cases h
  | jump code target =>
    simp only [encode] at h
    split at h
    case isTrue hlt =>
      obtain rfl := Except.ok.inj h
      simp [mnemonic, ofFields, Nat.mod_eq_of_lt hlt]
    case isFalse => cases h
  | _ =>
    obtain rfl := Except.ok.inj h
    simp [mnemonic, ofFields]

theorem decode_of_encode {op : Op} {w : Word} (h : op.encode = .ok w) : decode w = some op :=
  decode_eq_some_iff.mpr ⟨selector_of_encode h, ofFields_of_encode h⟩

end Op

/-! ### Bits that a format does not use -/

namespace Op

/-- The bits of a word that the format of an operation does not use, as inclusive ranges. -/
def unusedRanges : Op → List (Nat × Nat)
  | .regReg .. => [(6, 10)]
  | .shift .. => [(21, 25)]
  | .jumpReg .. => [(6, 20)]
  | .mulDiv .. => [(6, 15)]
  | .moveFrom .. => [(6, 10), (16, 25)]
  | .immediate .. => []
  | .memory .. => []
  | .branch .. => []
  | .jump .. => []

/-- Whether the format of an operation leaves bit `i` of its word unused. -/
def isUnused (op : Op) (i : Nat) : Bool :=
  op.unusedRanges.any fun (first, last) => first ≤ i && i ≤ last

end Op

theorem Fields.selector_eq_some_iff {f : Fields} {funct : Nat} :
    f.selector = (0, some funct) ↔ f.opcode = 0 ∧ f.funct = funct := by
  rw [selector, Prod.mk.injEq]
  constructor
  · rintro ⟨h0, hf⟩
    rw [if_pos h0, Option.some_inj] at hf
    exact ⟨h0, hf⟩
  · rintro ⟨h0, rfl⟩
    exact ⟨h0, if_pos h0⟩

theorem Fields.opcode_of_selector {f : Fields} {opcode : Nat} {funct? : Option Nat}
    (h : f.selector = (opcode, funct?)) : f.opcode = opcode :=
  congrArg Prod.fst h

namespace Op

/-- The decoded operation is read off the fields by the mnemonic with the selector of the word. -/
theorem exists_of_decode {w : Word} {op : Op} (h : decode w = some op) :
    ∃ m : Mnemonic, w.fields.selector = m.selector ∧ ofFields m w.fields = op :=
  ⟨op.mnemonic, decode_eq_some_iff.mp h⟩

/-- An operation that a word stands for has a word: the same one with the unused bits cleared. -/
theorem encode_of_decode {w : Word} {op : Op} (h : decode w = some op) :
    ∃ w', op.encode = .ok w' ∧ ∀ i, w'.getLsbD i = (w.getLsbD i && !op.isUnused i) := by
  obtain ⟨m, hsel, rfl⟩ := exists_of_decode h
  obtain ⟨hrs, hrt, hrd, hshamt, hfunct, htarget⟩ := w.fields_lt
  cases m with
  -- In the register form both words are compared field by field; a cleared field is zero.
  | regReg code | jumpReg code | mulDiv code | moveFrom code =>
    obtain ⟨h0, hcode⟩ := Fields.selector_eq_some_iff.mp hsel
    refine ⟨_, rfl, fun i => ?_⟩
    rw [Word.getLsbD_registerForm, Word.getLsbD_eq_of_opcode_eq_zero h0, ← hcode]
    grind [isUnused, unusedRanges, ofFields, Register.number_ofField]
  | shift code =>
    obtain ⟨h0, hcode⟩ := Fields.selector_eq_some_iff.mp hsel
    refine ⟨_, if_pos hshamt, fun i => ?_⟩
    rw [Word.getLsbD_registerForm, Word.getLsbD_eq_of_opcode_eq_zero h0, ← hcode]
    grind [isUnused, unusedRanges, ofFields, Register.number_ofField]
  -- The other forms use every bit, so the word comes back as it was.
  | immediate code | memory code | branch code =>
    refine ⟨w, ?_, by simp [isUnused, unusedRanges, ofFields]⟩
    simp only [ofFields, encode, Register.number_ofField, Nat.mod_eq_of_lt hrs,
      Nat.mod_eq_of_lt hrt, ← Fields.opcode_of_selector hsel, Word.immediateForm_fields]
  | jump code =>
    refine ⟨w, ?_, by simp [isUnused, unusedRanges, ofFields]⟩
    simp only [ofFields, encode, if_pos htarget, ← Fields.opcode_of_selector hsel,
      Word.jumpForm_fields]

/-- **Operations and words correspond.**  An operation is without a word only if its shift amount or
jump target is too wide; its word stands for it and belongs to no other operation; and a word that
stands for an operation turns, once the unused bits are cleared, into a word that is its own
encoding. -/
theorem encode_decode_correspond (op : Op) (w : Word) :
    ((∃ e, op.encode = .error e) ↔
      (∃ code rd rt shamt, op = .shift code rd rt shamt ∧ 31 < shamt) ∨
        ∃ code target, op = .jump code target ∧ 0x4000000 ≤ target) ∧
    (op.encode = .ok w →
      decode w = some op ∧ ∀ op' : Op, op'.encode = .ok w → op' = op) ∧
    (decode w = some op →
      ∃ w', op.encode = .ok w' ∧ (∀ i, w'.getLsbD i = (w.getLsbD i && !op.isUnused i)) ∧
        decode w' = some op ∧ ∀ op' : Op, decode w' = some op' → op'.encode = .ok w') := by
  refine ⟨encode_eq_error_iff, fun h => ⟨decode_of_encode h, fun op' h' => ?_⟩, fun h => ?_⟩
  · -- Decoding takes back both operations that have the same word.
    have hsome : some op' = some op := (decode_of_encode h').symm.trans (decode_of_encode h)
    exact Option.some_inj.mp hsome
  · obtain ⟨w', hw', hbits⟩ := encode_of_decode h
    have hdecode : decode w' = some op := decode_of_encode hw'
    refine ⟨w', hw', hbits, hdecode, fun op' h' => ?_⟩
    obtain rfl := Option.some_inj.mp (hdecode.symm.trans h')
    exact hw'

/-- `addu $10, $8, $9` with stray bits in the place of the shift amount, and without them. -/
theorem stray_shift_amount_is_cleared :
    decode 0x010957E1#32 = some (.regReg .addu ⟨10⟩ ⟨8⟩ ⟨9⟩) ∧
      (∃ w', (Op.regReg .addu ⟨10⟩ ⟨8⟩ ⟨9⟩).encode = .ok w' ∧
        decode w' = some (.regReg .addu ⟨10⟩ ⟨8⟩ ⟨9⟩)) ∧
      (Op.regReg .addu ⟨10⟩ ⟨8⟩ ⟨9⟩).encode = .ok 0x01095021#32 ∧
      decode 0x01095021#32 = some (.regReg .addu ⟨10⟩ ⟨8⟩ ⟨9⟩) := by
  have h : decode 0x010957E1#32 = some (.regReg .addu ⟨10⟩ ⟨8⟩ ⟨9⟩) := by decide
  have hclean : (Op.regReg .addu ⟨10⟩ ⟨8⟩ ⟨9⟩).encode = .ok 0x01095021#32 := by rfl
  obtain ⟨w', hw', -, hdecode, -⟩ := (encode_decode_correspond _ _).2.2 h
  obtain ⟨hstands, -⟩ := (encode_decode_correspond _ _).2.1 hclean
  exact ⟨h, ⟨w', hw', hdecode⟩, hclean, hstands⟩

end Op

end MipsAssembler
