/-
What the word of an instruction stands for.

`Op.IsSpelled` relates an operation to the operands of an instruction, one rule for each operand
format: which operand names which register, what becomes of a number, and where a branch leads.  It
speaks of the operands as text, not of how they are read.

* `Mnemonic.isSpelled_of_resolve` — the operation that a mnemonic makes of its operands is spelled
  by them;
* `Instruction.exists_of_emit` — where the word of an instruction comes from;
* `Instruction.emit_decodes` — the word decodes to an operation that the instruction spells.
-/
import MipsAssembler.Emission
import MipsAssembler.Proofs.OpCodec
import MipsAssembler.Proofs.Outcome
import MipsAssembler.Proofs.Spelling

namespace MipsAssembler

/-- Whether the operands of an instruction at `address` spell the operands of an operation. -/
inductive Op.IsSpelled (address : Nat) (labels : SymbolTable) : Op → List String → Prop
  | regReg {code rd rs rt d s t} :
    rd.IsSpelled d → rs.IsSpelled s → rt.IsSpelled t →
      IsSpelled address labels (.regReg code rd rs rt) [d, s, t]
  | shift {code rd rt d t n} {shamt : Nat} :
    rd.IsSpelled d → rt.IsSpelled t → Operand.literal? n.toList = some (shamt : Int) →
      IsSpelled address labels (.shift code rd rt shamt) [d, t, n]
  | jumpReg {code rs s} :
    rs.IsSpelled s → IsSpelled address labels (.jumpReg code rs) [s]
  | mulDiv {code rs rt s t} :
    rs.IsSpelled s → rt.IsSpelled t → IsSpelled address labels (.mulDiv code rs rt) [s, t]
  | moveFrom {code rd d} :
    rd.IsSpelled d → IsSpelled address labels (.moveFrom code rd) [d]
  -- The constants of `addiu` and `lui` are cut to sixteen bits, that of `ori` fits.
  | addiu {rt rs imm t s n} {v : Int} :
    rt.IsSpelled t → rs.IsSpelled s → Operand.literal? n.toList = some v →
      (imm.toNat : Int) = v % 0x10000 →
      IsSpelled address labels (.immediate .addiu rt rs imm) [t, s, n]
  | ori {rt rs imm t s n} :
    rt.IsSpelled t → rs.IsSpelled s → Operand.literal? n.toList = some (imm.toNat : Int) →
      IsSpelled address labels (.immediate .ori rt rs imm) [t, s, n]
  | lui {rt imm t n} {v : Int} :
    rt.IsSpelled t → Operand.literal? n.toList = some v → (imm.toNat : Int) = v % 0x10000 →
      IsSpelled address labels (.immediate .lui rt .zero imm) [t, n]
  | memory {code rt base offset t n b} :
    rt.IsSpelled t → Operand.literal? n.toList = some offset.toInt → base.IsSpelled b →
      IsSpelled address labels (.memory code rt base offset) [t, n, b]
  | branch {code rs rt offset s t name} {target : Nat} :
    rs.IsSpelled s → rt.IsSpelled t → Operand.isLabel name.toList →
      labels.lookup name = .ok target → (address : Int) + 4 + 4 * offset.toInt = target →
      IsSpelled address labels (.branch code rs rt offset) [s, t, name]
  | jump {code name} :
    Operand.isLabel name.toList → IsSpelled address labels (.jump code 0) [name]

/-! ### Numbers in fields -/

theorem toNat_ofInt_sixteen (v : Int) : ((BitVec.ofInt 16 v).toNat : Int) = v % 0x10000 := by
  rw [BitVec.toNat_ofInt]
  omega

theorem toInt_ofInt_sixteen {v : Int} (hlower : -0x8000 ≤ v) (hupper : v ≤ 0x7FFF) :
    (BitVec.ofInt 16 v).toInt = v := by
  rw [BitVec.toInt_ofInt]
  exact Int.bmod_eq_of_le (by omega) (by omega)

/-- A branch offset leads from the instruction after the branch to the target, and there is one
exactly when some offset does. -/
theorem branchOffset_eq_ok_iff {address target : Nat} {offset : BitVec 16} :
    branchOffset address target = .ok offset ↔
      (address : Int) + 4 + 4 * offset.toInt = target := by
  have hlower : -0x8000 ≤ offset.toInt := BitVec.le_toInt offset
  have hupper : offset.toInt < 0x8000 := BitVec.toInt_lt
  simp only [branchOffset]
  constructor
  · intro h
    split at h
    · cases h
    · split at h
      · obtain rfl := Except.ok.inj h
        rw [toInt_ofInt_sixteen (by omega) (by omega)]
        omega
      · cases h
  · intro h
    -- An offset of sixteen bits is in range by itself.
    have hdelta : (target : Int) - (address + 4) = 4 * offset.toInt := by omega
    rw [hdelta, if_neg (by omega), Int.mul_ediv_cancel_left _ (by omega), if_pos (by omega),
      BitVec.ofInt_toInt]

/-- A branch offset is missed for want of alignment, and the error then names an address that is to
blame, or for the distance. -/
theorem branchOffset_eq_error_iff {address target : Nat} {e : Error} :
    branchOffset address target = .error e ↔
      (((target : Int) - address - 4) % 4 ≠ 0 ∧
        e = .misalignedAddress (if target % 4 ≠ 0 then target else address)) ∨
      (((target : Int) - address - 4) % 4 = 0 ∧
        ¬(-32768 ≤ ((target : Int) - address - 4) / 4 ∧ ((target : Int) - address - 4) / 4 ≤ 32767) ∧
        e = .unreachableBranch address target) := by
  have hdelta : (target : Int) - (address + 4) = target - address - 4 := by omega
  simp only [branchOffset, hdelta]
  split
  case isTrue haligned =>
    rw [Except.error.injEq, eq_comm]
    exact ⟨fun he => .inl ⟨haligned, he⟩, fun h => h.elim And.right (absurd ·.1 haligned)⟩
  -- The distance is a whole number of words, so only its size can be wrong.
  case isFalse haligned =>
    rw [Decidable.not_not] at haligned
    split
    case isTrue hreach => simp [haligned, hreach]
    case isFalse hreach =>
      rw [Except.error.injEq, eq_comm]
      exact ⟨fun he => .inr ⟨haligned, hreach, he⟩, fun h => h.elim (absurd haligned ·.1) (·.2.2)⟩

theorem branchTarget_eq_ok_iff {labels : SymbolTable} {name : String} {target : Nat} :
    branchTarget labels name = .ok target ↔ labels.lookup name = .ok target :=
  mapError_eq_ok_iff

/-! ### From operands to operations -/

theorem Mnemonic.text_of_ofText? {s : String} {m : Mnemonic} (h : ofText? s = some m) :
    m.text = s := by
  rw [ofText?] at h
  have hm := List.find?_some h
  simpa using hm

/-- A mnemonic makes an operation of its own kind, and one that the operands spell. -/
theorem Mnemonic.isSpelled_of_resolve {m : Mnemonic} {operands : List String} {address : Nat}
    {labels : SymbolTable} {op : Op} (h : m.resolve operands address labels = .ok op) :
    op.mnemonic = m ∧ op.IsSpelled address labels operands := by
  unfold Mnemonic.resolve at h
  -- One case for each operand format; `h` then lists what the readers gave, from left to right.
  split at h <;>
    simp only [bind_eq_ok_iff, pure_eq_ok_iff, Operand.register_eq_ok_iff,
      Operand.number_eq_ok_iff, Operand.label_eq_ok_iff, branchTarget_eq_ok_iff,
      branchOffset_eq_ok_iff, reduceCtorEq] at h
  case h_1 code d s t =>
    obtain ⟨rd, hd, rs, hs, rt, ht, rfl⟩ := h
    exact ⟨rfl, .regReg hd hs ht⟩
  case h_2 code d t n =>
    obtain ⟨rd, hd, rt, ht, v, ⟨hv, hlower, -⟩, rfl⟩ := h
    refine ⟨rfl, .shift hd ht ?_⟩
    rw [hv, Int.toNat_of_nonneg hlower]
  case h_3 code s =>
    obtain ⟨rs, hs, rfl⟩ := h
    exact ⟨rfl, .jumpReg hs⟩
  case h_4 code s t =>
    obtain ⟨rs, hs, rt, ht, rfl⟩ := h
    exact ⟨rfl, .mulDiv hs ht⟩
  case h_5 code d =>
    obtain ⟨rd, hd, rfl⟩ := h
    exact ⟨rfl, .moveFrom hd⟩
  case h_6 t s n =>
    obtain ⟨rt, ht, rs, hs, v, ⟨hv, -, -⟩, rfl⟩ := h
    exact ⟨rfl, .addiu ht hs hv (toNat_ofInt_sixteen v)⟩
  case h_7 t s n =>
    obtain ⟨rt, ht, rs, hs, v, ⟨hv, hlower, hupper⟩, rfl⟩ := h
    refine ⟨rfl, .ori ht hs ?_⟩
    rw [hv, toNat_ofInt_sixteen, Int.emod_eq_of_lt hlower (by omega)]
  case h_8 t n =>
    obtain ⟨rt, ht, v, ⟨hv, -, -⟩, rfl⟩ := h
    exact ⟨rfl, .lui ht hv (toNat_ofInt_sixteen v)⟩
  case h_9 code t n b =>
    obtain ⟨rt, ht, v, ⟨hv, hlower, hupper⟩, base, hbase, rfl⟩ := h
    refine ⟨rfl, .memory ht ?_ hbase⟩
    rw [hv, toInt_ofInt_sixteen hlower hupper]
  case h_10 code s t name =>
    obtain ⟨rs, hs, rt, ht, _, ⟨hname, rfl⟩, target, htarget, offset, hoffset, rfl⟩ := h
    exact ⟨rfl, .branch hs ht hname htarget hoffset⟩
  case h_11 code name =>
    obtain ⟨_, ⟨hname, -⟩, rfl⟩ := h
    exact ⟨rfl, .jump hname⟩

/-- An operation that a mnemonic makes of its operands always has a word: the readers keep shift
amounts in range, and jump targets are left open. -/
theorem Mnemonic.exists_encode_of_resolve {m : Mnemonic} {operands : List String} {address : Nat}
    {labels : SymbolTable} {op : Op} (h : m.resolve operands address labels = .ok op) :
    ∃ w, op.encode = .ok w := by
  obtain ⟨rfl, hspelled⟩ := isSpelled_of_resolve h
  cases hspelled with
  | shift hd ht hn =>
    simp only [Op.mnemonic, resolve, bind_eq_ok_iff, pure_eq_ok_iff,
      Operand.number_eq_ok_iff] at h
    obtain ⟨_, -, _, -, v, ⟨-, -, hupper⟩, hop⟩ := h
    obtain ⟨-, -, -, rfl⟩ := Op.shift.inj hop
    exact ⟨_, if_pos (by omega)⟩
  | _ => exact ⟨_, rfl⟩

namespace Instruction

/-- An instruction with a word has a known mnemonic, and the word is that of the operation which
the mnemonic makes of the operands. -/
theorem exists_of_emit {i : Instruction} {address : Nat} {labels relocations : SymbolTable}
    {e : Emission} (h : i.emit address labels relocations = .ok e) :
    ∃ m op, Mnemonic.ofText? i.mnemonic = some m ∧
      m.resolve i.operands address labels = .ok op ∧ op.encode = .ok e.word := by
  unfold emit at h
  split at h
  case h_1 => cases h
  case h_2 m hm =>
    simp only [bind_eq_ok_iff, mapError_eq_ok_iff] at h
    obtain ⟨op, hop, word, hword, hrest⟩ := h
    refine ⟨m, op, hm, hop, ?_⟩
    -- Jumps enter a relocation site besides; the word is the same in both branches.
    split at hrest <;> simp only [bind_eq_ok_iff, pure_eq_ok_iff] at hrest
    · obtain ⟨site, -, rfl⟩ := hrest
      exact hword
    · obtain rfl := hrest
      exact hword

/-- **The word of an instruction says what the instruction says.**  It decodes to an operation whose
encoding it is, which carries the code that the mnemonic names, and whose fields hold the values of
the operands, each in its place. -/
theorem emit_decodes (i : Instruction) (address : Nat) (labels relocations : SymbolTable)
    (e : Emission) (h : i.emit address labels relocations = .ok e) :
    ∃ op, Op.decode e.word = some op ∧ op.encode = .ok e.word ∧ op.mnemonic.text = i.mnemonic ∧
      op.IsSpelled address labels i.operands := by
  obtain ⟨m, op, hm, hop, hword⟩ := exists_of_emit h
  obtain ⟨rfl, hspelled⟩ := Mnemonic.isSpelled_of_resolve hop
  exact ⟨op, Op.decode_of_encode hword, hword, Mnemonic.text_of_ofText? hm, hspelled⟩

/-- A branch backwards to address 0, with one register by name and one by numeral. -/
theorem emit_decodes_branch_back :
    ∃ e, (⟨"beq", ["$t0", "$9", "loop"]⟩ : Instruction).emit 8 ⟨.distinct, #[⟨"loop", 0⟩]⟩
        (.empty .repeating) = .ok e ∧
      ∃ op, Op.decode e.word = some op ∧ op.encode = .ok e.word ∧ op.mnemonic.text = "beq" ∧
        op.IsSpelled 8 ⟨.distinct, #[⟨"loop", 0⟩]⟩ ["$t0", "$9", "loop"] := by
  have h : (⟨"beq", ["$t0", "$9", "loop"]⟩ : Instruction).emit 8 ⟨.distinct, #[⟨"loop", 0⟩]⟩
      (.empty .repeating) = .ok ⟨0x1109FFFD#32, none⟩ := by rfl
  exact ⟨_, h, emit_decodes _ _ _ _ _ h⟩

end Instruction

end MipsAssembler
