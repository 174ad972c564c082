/-
Operations that are written down and assembled again.

An operation can be written in many ways: each register by its name or its numeral, each number in base
ten or sixteen and with a sign or without, and the place that a branch leads to by any label that stands
there.  All of them give the word of the operation:

* `Op.IsWritten` — the ways to write the operands of an operation;
* `Op.operands` — one of them, with registers by name and numbers in base ten;
* `Op.IsWritten.standsFor` — an instruction that writes an operation stands for it;
* `Op.written_is_reassembled` — its word is that of the operation, whatever sites were entered before.

Design notes: `Op.IsWritten` says what a text is for and not how it is read, so it knows nothing of the
bounds between which numbers are accepted.  That no bound is too narrow is what the proofs show.  Two
kinds of operation cannot be written: `lui` has no operand for a second register, and the target of a
jump is left open (`Op.HasText`).
-/
import MipsAssembler.Proofs.Execution
import MipsAssembler.Proofs.Relocations

namespace MipsAssembler

namespace Op

/-- Whether the operands of an instruction at `address` write those of an operation. -/
inductive IsWritten (address : Nat) (labels : SymbolTable) : Op → List String → Prop
  | regReg {code rd rs rt d s t} :
    rd.IsSpelled d → rs.IsSpelled s → rt.IsSpelled t →
      IsWritten address labels (.regReg code rd rs rt) [d, s, t]
  | shift {code rd rt d t n} {shamt : Nat} :
    rd.IsSpelled d → rt.IsSpelled t → Operand.Writes shamt n.toList →
      IsWritten address labels (.shift code rd rt shamt) [d, t, n]
  | jumpReg {code rs s} :
    rs.IsSpelled s → IsWritten address labels (.jumpReg code rs) [s]
  | mulDiv {code rs rt s t} :
    rs.IsSpelled s → rt.IsSpelled t → IsWritten address labels (.mulDiv code rs rt) [s, t]
  | moveFrom {code rd d} :
    rd.IsSpelled d → IsWritten address labels (.moveFrom code rd) [d]
  -- The constant of `addiu` may be written with its sign or as the sixteen bits that it is.
  | addiu {rt rs imm t s n} {v : Int} :
    rt.IsSpelled t → rs.IsSpelled s → v = imm.toNat ∨ v = imm.toInt →
      Operand.Writes v n.toList → IsWritten address labels (.immediate .addiu rt rs imm) [t, s, n]
  | ori {rt rs imm t s n} :
    rt.IsSpelled t → rs.IsSpelled s → Operand.Writes imm.toNat n.toList →
      IsWritten address labels (.immediate .ori rt rs imm) [t, s, n]
  | lui {rt imm t n} :
    rt.IsSpelled t → Operand.Writes imm.toNat n.toList →
      IsWritten address labels (.immediate .lui rt .zero imm) [t, n]
  | memory {code rt base offset t n b} :
    rt.IsSpelled t → Operand.Writes offset.toInt n.toList → base.IsSpelled b →
      IsWritten address labels (.memory code rt base offset) [t, n, b]
  | branch {code rs rt offset s t name} {target : Nat} :
    rs.IsSpelled s → rt.IsSpelled t → Operand.isLabel name.toList →
      labels.lookup name = .ok target → (address : Int) + 4 + 4 * offset.toInt = target →
      IsWritten address labels (.branch code rs rt offset) [s, t, name]
  | jump {code name} :
    Operand.isLabel name.toList → IsWritten address labels (.jump code 0) [name]

/-- Whether an operation can be written at all. -/
def HasText : Op → Prop
  | .immediate .lui _ rs _ => rs = .zero
  | .jump _ target => target = 0
  | _ => True

/-- Whether `name` is a label for the place that an operation at `address` leads to. -/
def LeadsTo (address : Nat) (labels : SymbolTable) (name : String) : Op → Prop
  | .branch _ _ _ offset => Operand.isLabel name.toList ∧
    ∃ target, labels.lookup name = .ok target ∧ (address : Int) + 4 + 4 * offset.toInt = (target : Nat)
  | .jump _ _ => Operand.isLabel name.toList
  | _ => True

/-- The operands of an operation, with registers by name, numbers in base ten, and `name` for the place
that it leads to. -/
def operands (name : String) : Op → List String
  | .regReg _ rd rs rt => [rd.name, rs.name, rt.name]
  | .shift _ rd rt shamt => [rd.name, rt.name, Numeral.decimal shamt]
  | .jumpReg _ rs => [rs.name]
  | .mulDiv _ rs rt => [rs.name, rt.name]
  | .moveFrom _ rd => [rd.name]
  | .immediate .addiu rt rs imm => [rt.name, rs.name, Numeral.signed imm.toInt]
  | .immediate .ori rt rs imm => [rt.name, rs.name, Numeral.decimal imm.toNat]
  | .immediate .lui rt _ imm => [rt.name, Numeral.decimal imm.toNat]
  | .memory _ rt base offset => [rt.name, Numeral.signed offset.toInt, base.name]
  | .branch _ rs rt _ => [rs.name, rt.name, name]
  | .jump _ _ => [name]

variable {address : Nat} {labels : SymbolTable} {op : Op}

theorem isWritten_operands {name : String} (htext : op.HasText)
    (hname : op.LeadsTo address labels name) : op.IsWritten address labels (op.operands name) := by
  cases op with
  | regReg => exact .regReg (.inl rfl) (.inl rfl) (.inl rfl)
  | shift => exact .shift (.inl rfl) (.inl rfl) (Operand.writes_decimal _)
  | jumpReg => exact .jumpReg (.inl rfl)
  | mulDiv => exact .mulDiv (.inl rfl) (.inl rfl)
  | moveFrom => exact .moveFrom (.inl rfl)
  | immediate code =>
    cases code with
    | addiu => exact .addiu (.inl rfl) (.inl rfl) (.inr rfl) (Operand.writes_signed _)
    | ori => exact .ori (.inl rfl) (.inl rfl) (Operand.writes_decimal _)
    | lui =>
      -- `lui` has no operand for its source register, which therefore has to be the zero register.
      obtain rfl : _ = Register.zero := htext
      exact .lui (.inl rfl) (Operand.writes_decimal _)
  | memory => exact .memory (.inl rfl) (Operand.writes_signed _) (.inl rfl)
  | branch =>
    obtain ⟨hlabel, target, htarget, hoffset⟩ := hname
    exact .branch (.inl rfl) (.inl rfl) hlabel htarget hoffset
  | jump =>
    obtain rfl : _ = 0 := htext
    exact .jump hname

end Op

/-! ### Reading what was written -/

theorem ofInt_toNat_sixteen (imm : BitVec 16) : BitVec.ofInt 16 (imm.toNat : Int) = imm := by
  rw [BitVec.ofInt_natCast, BitVec.ofNat_toNat, BitVec.setWidth_eq]

namespace Op

variable {address : Nat} {labels : SymbolTable} {op : Op} {w : Word} {operands : List String}

/-- An instruction that writes an operation stands for it, unless it is a jump. -/
theorem IsWritten.standsFor (h : op.IsWritten address labels operands) (hw : op.encode = .ok w)
    (hjump : ∀ code, op.mnemonic ≠ .jump code) :
    Instruction.StandsFor ⟨op.mnemonic.text, operands⟩ address labels op := by
  cases h with
  | regReg hd hs ht => exact Instruction.standsFor_regReg address labels _ hd hs ht
  | jumpReg hs => exact Instruction.standsFor_jumpReg address labels _ hs
  | mulDiv hs ht => exact Instruction.standsFor_mulDiv address labels _ hs ht
  | moveFrom hd => exact Instruction.standsFor_moveFrom address labels _ hd
  | @shift code _ _ _ _ _ shamt hd ht hn =>
    -- An operation with a word has a shift amount of five bits.
    have hlt : shamt < 32 := by
      by_contra hge
      rw [encode, if_neg hge] at hw
      cases hw
    have hnumber : Operand.number _ 0 31 = .ok (shamt : Int) :=
      Operand.number_of_writes hn (by omega) (by omega)
    exact Instruction.standsFor_shift address labels code hd ht hnumber
  | @addiu _ _ imm _ _ _ v ht hs hv hn =>
    have hlt : imm.toNat < 0x10000 := imm.isLt
    have hlower : -0x8000 ≤ imm.toInt := BitVec.le_toInt imm
    have hupper : imm.toInt < 0x8000 := BitVec.toInt_lt
    have hbits : BitVec.ofInt 16 v = imm := by
      rcases hv with rfl | rfl
      · exact ofInt_toNat_sixteen imm
      · exact BitVec.ofInt_toInt
    have hnumber : Operand.number _ (-0x80000000) 0x7FFFFFFF = .ok v :=
      Operand.number_of_writes hn (by omega) (by omega)
    have hstands := Instruction.standsFor_addiu address labels ht hs hnumber
    rwa [hbits] at hstands
  | @ori _ _ imm _ _ _ ht hs hn =>
    have hlt : imm.toNat < 0x10000 := imm.isLt
    have hnumber : Operand.number _ 0 0xFFFF = .ok (imm.toNat : Int) :=
      Operand.number_of_writes hn (by omega) (by omega)
    have hstands := Instruction.standsFor_ori address labels ht hs hnumber
    rwa [ofInt_toNat_sixteen] at hstands
  | @lui _ imm _ _ ht hn =>
    have hlt : imm.toNat < 0x10000 := imm.isLt
    have hnumber : Operand.number _ (-0x80000000) 0xFFFFFFFF = .ok (imm.toNat : Int) :=
      Operand.number_of_writes hn (by omega) (by omega)
    have hstands := Instruction.standsFor_lui address labels ht hnumber
    rwa [ofInt_toNat_sixteen] at hstands
  | @memory code _ _ offset _ _ _ ht hn hb =>
    have hlower : -0x8000 ≤ offset.toInt := BitVec.le_toInt offset
    have hupper : offset.toInt < 0x8000 := BitVec.toInt_lt
    have hnumber : Operand.number _ (-0x8000) 0x7FFF = .ok offset.toInt :=
      Operand.number_of_writes hn hlower (by omega)
    have hstands := Instruction.standsFor_memory address labels code ht hnumber hb
    rwa [BitVec.ofInt_toInt] at hstands
  | branch hs ht hname htarget hoffset =>
    exact Instruction.standsFor_branch address labels _ hs ht hname htarget hoffset
  | jump => exact absurd rfl (hjump _)

/-- **What is written is reassembled.**  An operation with a word, other than `lui` with a second
register and a jump whose target is known, can be written as an instruction.  However that is done, at
an address of a word the instruction gives the word of the operation, whatever sites were entered
before. -/
theorem written_is_reassembled (op : Op) (w : Word) (address : Nat)
    (labels relocations : SymbolTable) (hw : op.encode = .ok w) (htext : op.HasText)
    (haddress : address % 4 = 0) (hmode : relocations.mode = .repeating) :
    (∀ name, op.LeadsTo address labels name →
      op.IsWritten address labels (op.operands name)) ∧
    ∀ operands, op.IsWritten address labels operands →
      (Instruction.emit ⟨op.mnemonic.text, operands⟩ address labels relocations).map Emission.word =
        .ok w := by
  refine ⟨fun name => isWritten_operands htext, fun operands h => ?_⟩
  by_cases hjump : ∃ code, op.mnemonic = .jump code
  · -- Jumps need a table of sites and leave their target open; all others stand for their operation.
    obtain ⟨code, hcode⟩ := hjump
    cases h with
    | jump hname =>
      obtain rfl := Mnemonic.jump.inj hcode
      obtain rfl := Except.ok.inj
        (hw.symm.trans (mapError_eq_ok_iff.mp (Instruction.encode_jump _)))
      rw [mnemonic, Instruction.emit_jump_label hname haddress hmode]
      rfl
    | _ => cases hcode
  · have hstands := h.standsFor hw fun code hcode => hjump ⟨code, hcode⟩
    rw [hstands.emit_of_encode hw]
    rfl

/-- A constant of sixteen ones with its sign in base sixteen, without it in base ten, and as it is
printed. -/
theorem written_is_reassembled_minus_one :
    let op : Op := .immediate .addiu ⟨8⟩ .zero 0xFFFF#16
    let labels : SymbolTable := .empty .distinct
    let sites : SymbolTable := ⟨.repeating, #[⟨"f", 0⟩]⟩
    op.encode = .ok 0x2408FFFF#32 ∧
      op.operands "" = ["$t0", "$zero", "-1"] ∧
      op.IsWritten 4 labels ["$t0", "$zero", "-1"] ∧
      (Instruction.emit ⟨"addiu", ["$8", "$zero", "-0x01"]⟩ 4 labels sites).map Emission.word =
        .ok 0x2408FFFF#32 ∧
      (Instruction.emit ⟨"addiu", ["$t0", "$0", "+65535"]⟩ 4 labels sites).map Emission.word =
        .ok 0x2408FFFF#32 := by
  intro op labels sites
  have hw : op.encode = .ok 0x2408FFFF#32 := rfl
  obtain ⟨hprinted, hwritten⟩ := written_is_reassembled op _ 4 labels sites hw trivial rfl rfl
  have hone : Numeral.Writes 16 1 ['0', '1'] :=
    .snoc (n := 0) (d := 1) (.digit (by omega) (.inl rfl)) (by omega) (.inl rfl)
  have hminus : Operand.Writes (-1) "-0x01".toList := .minus (.hex hone)
  have hplus : Operand.Writes 65535 "+65535".toList :=
    .plus (.decimal (Numeral.writes_toDigits (by omega) 65535))
  refine ⟨hw, by rfl, hprinted "" trivial, hwritten _ ?_, hwritten _ ?_⟩
  · exact .addiu (.inr (by rfl)) (.inl rfl) (.inr rfl) hminus
  · exact .addiu (.inl rfl) (.inr (by rfl)) (.inl rfl) hplus

end Op

end MipsAssembler
