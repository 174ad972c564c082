/-
What a source instruction does when its words are executed.

An instruction of the source is expanded, its parts get words at consecutive addresses, and the machine
executes the words in order.  `Instruction.Runs` says that all of this succeeds and what then holds of
the machine.  It is proved in two steps that know nothing of each other:

* `Instruction.StandsFor` — an instruction has a word at an address, and the word decodes to a given
  operation; there is one lemma for each operand format, that of jumps apart;
* `Instruction.runs_of_standsForAll` — to run the words of instructions is to execute the operations
  that they stand for.

Design notes: none of the instructions here is a jump, so no relocation site is entered and every word
is the same whatever the relocation table holds.
-/
import Mathlib.Data.List.Forall2
import MipsAssembler.Machine
import MipsAssembler.Proofs.Translation
import MipsAssembler.Proofs.WrittenNumbers
import MipsAssembler.Pseudo

namespace MipsAssembler

/-! ### Operations in order -/

namespace Machine

/-- The effect of operations, one after the other. -/
def execAll (m : Machine) : List Op → Option Machine
  | [] => some m
  | op :: ops => m.exec op >>= fun m' => m'.execAll ops

theorem run_cons_of_decode {w : Word} {op : Op} (h : Op.decode w = some op) (m : Machine)
    (ws : List Word) : m.run (w :: ws) = m.exec op >>= fun m' => m'.run ws := by
  rw [run, h]
  rfl

end Machine

namespace Instruction

/-- The words of instructions at consecutive addresses from `address` on. -/
def emitAll (labels : SymbolTable) : (address : Nat) → List Instruction → Except Error (List Word)
  | _, [] => .ok []
  | address, i :: is => do
    let e ← i.emit address labels (.empty .repeating)
    let ws ← emitAll labels (address + 4) is
    return e.word :: ws

/-- Whether `i` at `address` takes the machine from `m` to a state with the property `post`: `i` can be
expanded, the resulting instructions have words, and the words run to their end. -/
def Runs (i : Instruction) (address : Nat) (labels : SymbolTable) (m : Machine)
    (post : Machine → Prop) : Prop :=
  ∃ is ws m', i.expand = .ok is ∧ emitAll labels address is = .ok ws ∧ m.run ws = some m' ∧ post m'

/-! ### From instructions to operations -/

/-- Whether the word of `i` at `address` is one word for all relocation tables, without a relocation
site, and decodes to `op`. -/
def StandsFor (i : Instruction) (address : Nat) (labels : SymbolTable) (op : Op) : Prop :=
  ∃ w, (∀ relocations, i.emit address labels relocations = .ok ⟨w, none⟩) ∧ Op.decode w = some op

/-- Whether instructions at consecutive addresses stand for operations, one for one. -/
inductive StandsForAll (labels : SymbolTable) : Nat → List Instruction → List Op → Prop
  | nil {address} : StandsForAll labels address [] []
  | cons {address i is op ops} :
    i.StandsFor address labels op → StandsForAll labels (address + 4) is ops →
      StandsForAll labels address (i :: is) (op :: ops)

/-- Instructions that stand for operations have words, and to run these is to execute those. -/
theorem emitAll_of_standsForAll {labels : SymbolTable} {address : Nat} {is : List Instruction}
    {ops : List Op} (h : StandsForAll labels address is ops) :
    ∃ ws, emitAll labels address is = .ok ws ∧ ∀ m : Machine, m.run ws = m.execAll ops := by
  induction h with
  | nil => exact ⟨[], rfl, fun m => rfl⟩
  | cons hi _ ih =>
    obtain ⟨w, hemit, hdecode⟩ := hi
    obtain ⟨ws, hws, hrun⟩ := ih
    refine ⟨w :: ws, ?_, fun m => ?_⟩
    · rw [emitAll, hemit, hws]
      rfl
    · rw [Machine.run_cons_of_decode hdecode, Machine.execAll]
      simp only [hrun]

/-- Instructions that stand for operations at every address may be placed anywhere. -/
theorem standsForAll_of_forall₂ (labels : SymbolTable) {is : List Instruction} {ops : List Op}
    (h : List.Forall₂ (fun i op => ∀ address labels, i.StandsFor address labels op) is ops) :
    ∀ address, StandsForAll labels address is ops := by
  induction h with
  | nil => exact fun address => .nil
  | cons hi _ ih => exact fun address => .cons (hi address labels) (ih (address + 4))

theorem exists_emit_of_forall₂ {is : List Instruction} {ops : List Op}
    (h : List.Forall₂ (fun i op => ∀ address labels, i.StandsFor address labels op) is ops) :
    ∀ i ∈ is, ∀ address labels relocations, ∃ e, i.emit address labels relocations = .ok e := by
  induction h with
  | nil => exact fun i hi => absurd hi List.not_mem_nil
  | cons hi _ ih =>
    intro i hmem address labels relocations
    rcases List.mem_cons.mp hmem with rfl | hmem
    · obtain ⟨w, hemit, -⟩ := hi address labels
      exact ⟨_, hemit relocations⟩
    · exact ih i hmem address labels relocations

theorem runs_of_standsForAll {i : Instruction} {address : Nat} {labels : SymbolTable}
    {is : List Instruction} {ops : List Op} {m m' : Machine} {post : Machine → Prop}
    (hexpand : i.expand = .ok is) (hstands : StandsForAll labels address is ops)
    (hexec : m.execAll ops = some m') (hpost : post m') : i.Runs address labels m post := by
  obtain ⟨ws, hws, hrun⟩ := emitAll_of_standsForAll hstands
  exact ⟨is, ws, m', hexpand, hws, (hrun m).trans hexec, hpost⟩

theorem Runs.imp {i : Instruction} {address : Nat} {labels : SymbolTable} {m : Machine}
    {post post' : Machine → Prop} (h : i.Runs address labels m post)
    (himp : ∀ m', post m' → post' m') : i.Runs address labels m post' := by
  obtain ⟨is, ws, m', hexpand, hws, hrun, hpost⟩ := h
  exact ⟨is, ws, m', hexpand, hws, hrun, himp m' hpost⟩

/-- An instruction takes the machine to one state only, so what holds of its outcome holds of one and
the same state. -/
theorem Runs.both {i : Instruction} {address : Nat} {labels : SymbolTable} {m : Machine}
    {post post' : Machine → Prop} (h : i.Runs address labels m post)
    (h' : i.Runs address labels m post') : ∃ m', post m' ∧ post' m' := by
  obtain ⟨is, ws, m', hexpand, hws, hrun, hpost⟩ := h
  obtain ⟨is', ws', m'', hexpand', hws', hrun', hpost'⟩ := h'
  obtain rfl := Except.ok.inj (hexpand.symm.trans hexpand')
  obtain rfl := Except.ok.inj (hws.symm.trans hws')
  obtain rfl := Option.some_inj.mp (hrun.symm.trans hrun')
  exact ⟨m', hpost, hpost'⟩

/-- An instruction that is no jump stands for the operation that its mnemonic makes of its operands. -/
theorem standsFor_of_resolve {i : Instruction} {m : Mnemonic} {address : Nat}
    {labels : SymbolTable} {op : Op} (hm : Mnemonic.ofText? i.mnemonic = some m)
    (hjump : ∀ code, m ≠ .jump code) (hop : m.resolve i.operands address labels = .ok op) :
    i.StandsFor address labels op := by
  obtain ⟨w, hw⟩ := Mnemonic.exists_encode_of_resolve hop
  refine ⟨w, fun relocations => ?_, Op.decode_of_encode hw⟩
  rw [emit, hm]
  refine bind_eq_ok_iff.mpr ⟨op, hop, bind_eq_ok_iff.mpr ⟨w, mapError_eq_ok_iff.mpr hw, ?_⟩⟩
  cases m with
  | jump code => exact absurd rfl (hjump code)
  | _ => rfl

/-- The word of an instruction is that of the operation which it stands for. -/
theorem StandsFor.emit_of_encode {i : Instruction} {address : Nat} {labels : SymbolTable} {op : Op}
    {w : Word} (h : i.StandsFor address labels op) (hw : op.encode = .ok w)
    (relocations : SymbolTable) : i.emit address labels relocations = .ok ⟨w, none⟩ := by
  obtain ⟨w', hemit, hdecode⟩ := h
  obtain ⟨m, op', -, -, hw'⟩ := exists_of_emit (hemit relocations)
  obtain rfl := Option.some_inj.mp ((Op.decode_of_encode hw').symm.trans hdecode)
  obtain rfl := Except.ok.inj (hw'.symm.trans hw)
  exact hemit relocations

/-! ### One lemma for each format -/

section Formats

variable {rd rs rt : Register} {d s t n name : String} (address : Nat) (labels : SymbolTable)

theorem standsFor_regReg (code : RegRegCode) (hd : rd.IsSpelled d) (hs : rs.IsSpelled s)
    (ht : rt.IsSpelled t) :
    StandsFor ⟨(Mnemonic.regReg code).text, [d, s, t]⟩ address labels (.regReg code rd rs rt) := by
  rw [← Operand.register_eq_ok_iff] at hd hs ht
  refine standsFor_of_resolve (m := .regReg code) (by cases code <;> rfl) nofun ?_
  simp only [Mnemonic.resolve, hd, hs, ht]
  rfl

theorem standsFor_shift {v : Int} (code : ShiftCode) (hd : rd.IsSpelled d) (ht : rt.IsSpelled t)
    (hn : Operand.number n 0 31 = .ok v) :
    StandsFor ⟨(Mnemonic.shift code).text, [d, t, n]⟩ address labels
      (.shift code rd rt v.toNat) := by
  rw [← Operand.register_eq_ok_iff] at hd ht
  refine standsFor_of_resolve (m := .shift code) (by cases code <;> rfl) nofun ?_
  simp only [Mnemonic.resolve, hd, ht, hn]
  rfl

theorem standsFor_jumpReg (code : JumpRegCode) (hs : rs.IsSpelled s) :
    StandsFor ⟨(Mnemonic.jumpReg code).text, [s]⟩ address labels (.jumpReg code rs) := by
  rw [← Operand.register_eq_ok_iff] at hs
  refine standsFor_of_resolve (m := .jumpReg code) (by cases code; rfl) nofun ?_
  simp only [Mnemonic.resolve, hs]
  rfl

theorem standsFor_mulDiv (code : MulDivCode) (hs : rs.IsSpelled s) (ht : rt.IsSpelled t) :
    StandsFor ⟨(Mnemonic.mulDiv code).text, [s, t]⟩ address labels (.mulDiv code rs rt) := by
  rw [← Operand.register_eq_ok_iff] at hs ht
  refine standsFor_of_resolve (m := .mulDiv code) (by cases code <;> rfl) nofun ?_
  simp only [Mnemonic.resolve, hs, ht]
  rfl

theorem standsFor_moveFrom (code : MoveFromCode) (hd : rd.IsSpelled d) :
    StandsFor ⟨(Mnemonic.moveFrom code).text, [d]⟩ address labels (.moveFrom code rd) := by
  rw [← Operand.register_eq_ok_iff] at hd
  refine standsFor_of_resolve (m := .moveFrom code) (by cases code <;> rfl) nofun ?_
  simp only [Mnemonic.resolve, hd]
  rfl

theorem standsFor_addiu {v : Int} (ht : rt.IsSpelled t) (hs : rs.IsSpelled s)
    (hn : Operand.number n (-0x80000000) 0x7FFFFFFF = .ok v) :
    StandsFor ⟨"addiu", [t, s, n]⟩ address labels
      (.immediate .addiu rt rs (BitVec.ofInt 16 v)) := by
  rw [← Operand.register_eq_ok_iff] at ht hs
  refine standsFor_of_resolve (m := .immediate .addiu) rfl nofun ?_
  simp only [Mnemonic.resolve, ht, hs, hn]
  rfl

theorem standsFor_ori {v : Int} (ht : rt.IsSpelled t) (hs : rs.IsSpelled s)
    (hn : Operand.number n 0 0xFFFF = .ok v) :
    StandsFor ⟨"ori", [t, s, n]⟩ address labels (.immediate .ori rt rs (BitVec.ofInt 16 v)) := by
  rw [← Operand.register_eq_ok_iff] at ht hs
  refine standsFor_of_resolve (m := .immediate .ori) rfl nofun ?_
  simp only [Mnemonic.resolve, ht, hs, hn]
  rfl

theorem standsFor_lui {v : Int} (ht : rt.IsSpelled t)
    (hn : Operand.number n (-0x80000000) 0xFFFFFFFF = .ok v) :
    StandsFor ⟨"lui", [t, n]⟩ address labels
      (.immediate .lui rt .zero (BitVec.ofInt 16 v)) := by
  rw [← Operand.register_eq_ok_iff] at ht
  refine standsFor_of_resolve (m := .immediate .lui) rfl nofun ?_
  simp only [Mnemonic.resolve, ht, hn]
  rfl

theorem standsFor_memory {v : Int} {base : Register} {b : String} (code : MemoryCode)
    (ht : rt.IsSpelled t) (hn : Operand.number n (-0x8000) 0x7FFF = .ok v)
    (hb : base.IsSpelled b) :
    StandsFor ⟨(Mnemonic.memory code).text, [t, n, b]⟩ address labels
      (.memory code rt base (BitVec.ofInt 16 v)) := by
  rw [← Operand.register_eq_ok_iff] at ht hb
  refine standsFor_of_resolve (m := .memory code) (by cases code <;> rfl) nofun ?_
  simp only [Mnemonic.resolve, ht, hn, hb]
  rfl

theorem standsFor_branch {target : Nat} {offset : BitVec 16} (code : BranchCode)
    (hs : rs.IsSpelled s) (ht : rt.IsSpelled t) (hname : Operand.isLabel name.toList)
    (htarget : labels.lookup name = .ok target)
    (hoffset : (address : Int) + 4 + 4 * offset.toInt = target) :
    StandsFor ⟨(Mnemonic.branch code).text, [s, t, name]⟩ address labels
      (.branch code rs rt offset) := by
  rw [← Operand.register_eq_ok_iff] at hs ht
  rw [← branchTarget_eq_ok_iff] at htarget
  rw [← branchOffset_eq_ok_iff] at hoffset
  have hlabel : Operand.label name = .ok name := Operand.label_eq_ok_iff.mpr ⟨hname, rfl⟩
  refine standsFor_of_resolve (m := .branch code) (by cases code <;> rfl) nofun ?_
  refine bind_eq_ok_iff.mpr ⟨rs, hs, bind_eq_ok_iff.mpr ⟨rt, ht, ?_⟩⟩
  refine bind_eq_ok_iff.mpr ⟨name, hlabel, bind_eq_ok_iff.mpr ⟨target, htarget, ?_⟩⟩
  exact bind_eq_ok_iff.mpr ⟨offset, hoffset, rfl⟩

end Formats

end Instruction

end MipsAssembler
