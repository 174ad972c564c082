/-
Which errors the steps of an assembler end in.

A reader refuses its operand as a whole, and every other step adds only the few errors that it finds
itself.  So what is true of the few is true of every error of a step:

* `Pseudo.expand_failsOnly`, `Layout.piece_failsOnly` — the errors of a line;
* `Mnemonic.resolve_failsOnly`, `Instruction.emit_failsOnly` — the errors of an instruction;
* `Layout.neverFatal_pass`, `Assembly.neverFatal_pass` — none of them is fatal, so both passes look at
  every item if they are told to keep going.
-/
import MipsAssembler.Proofs.AssemblyForm
import MipsAssembler.Proofs.LayoutForm
import MipsAssembler.Proofs.PassReport
import MipsAssembler.Proofs.Translation

namespace MipsAssembler

/-! ### Operands -/

namespace Operand

theorem register_failsOnly (s : String) : FailsOnly (· = .invalidOperand s) (register s) := by
  rw [register]
  split
  · exact failsOnly_ok _
  · exact failsOnly_error rfl

theorem number_failsOnly (s : String) (lower upper : Int) :
    FailsOnly (· = .invalidOperand s) (number s lower upper) := by
  rw [number]
  split
  · split
    · exact failsOnly_ok _
    · exact failsOnly_error rfl
  · exact failsOnly_error rfl

theorem label_failsOnly (s : String) : FailsOnly (· = .invalidOperand s) (label s) := by
  rw [label]
  split
  · exact failsOnly_ok _
  · exact failsOnly_error rfl

end Operand

variable {P : Error → Prop}

/-! ### Lines -/

theorem SymbolTable.entryFor_failsOnly {t : SymbolTable} {name : String} {address : Nat}
    (haddress : address % 4 ≠ 0 → P (.misalignedAddress address))
    (hname : t.mode = .distinct → P (.duplicateName name)) :
    FailsOnly P (t.entryFor name address) := by
  rw [entryFor]
  split
  case isTrue hmisaligned => exact failsOnly_error (haddress hmisaligned)
  case isFalse =>
    split
    case isTrue htaken => exact failsOnly_error (hname htaken.1)
    case isFalse => exact failsOnly_ok _

theorem Address.check_failsOnly (h : P (.addressOverflow lastWord)) (address : Nat) :
    FailsOnly P (check address) := by
  rw [check]
  split
  · exact failsOnly_ok _
  · exact failsOnly_error h

theorem Placed.ofInstructions_failsOnly (h : P (.addressOverflow Address.lastWord)) (lineNo : Nat)
    (is : List Instruction) : ∀ address, FailsOnly P (ofInstructions lineNo address is) := by
  induction is with
  | nil =>
    intro address
    exact failsOnly_ok _
  | cons i is ih =>
    intro address
    exact (Address.check_failsOnly h address).bind fun _ => (ih _).bind fun _ => failsOnly_ok _

theorem Pseudo.expand_failsOnly {p : Pseudo} {operands : List String}
    (harity : P (.invalidArity p.text p.arity operands.length))
    (hoperand : ∀ s ∈ operands, P (.invalidOperand s)) : FailsOnly P (p.expand operands) := by
  unfold expand
  split
  case h_1 rt imm =>
    have himm := (Operand.number_failsOnly imm (-0x80000000) 0xFFFFFFFF).imp
      fun e he => he ▸ hoperand imm (by simp)
    exact himm.bind fun _ => failsOnly_ok _
  case h_11 => exact failsOnly_error harity
  all_goals exact failsOnly_ok _

namespace Layout

variable {l : Layout} {line : Line}

theorem labelEntry_failsOnly (hspace : P (.addressOverflow Address.lastWord))
    (hentry : ∀ name, line.label = some name → FailsOnly P (l.labels.entryFor name l.next)) :
    FailsOnly P (l.labelEntry line) := by
  rw [labelEntry]
  split
  case h_1 name hname =>
    refine (Address.check_failsOnly hspace l.next).bind_of_eq_ok ?_
    intro address haddress
    obtain ⟨-, rfl⟩ := Address.check_eq_ok_iff.mp haddress
    exact (hentry name hname).map _
  case h_2 => exact failsOnly_ok _

/-- A line is refused for its expansion, for want of room, or for its label. -/
theorem piece_failsOnly (hexpand : FailsOnly P line.expand)
    (hspace : P (.addressOverflow Address.lastWord))
    (hentry : ∀ name, line.label = some name → FailsOnly P (l.labels.entryFor name l.next)) :
    FailsOnly P (l.piece line) := by
  rw [piece]
  refine hexpand.bind fun is => ?_
  refine (Placed.ofInstructions_failsOnly hspace line.lineNo is l.next).bind fun placed => ?_
  exact (labelEntry_failsOnly hspace hentry).bind fun _ => failsOnly_ok _

end Layout

/-! ### Instructions -/

theorem branchOffset_failsOnly {address target : Nat} (haddress : address % 4 = 0)
    (htarget : target % 4 = 0) :
    FailsOnly (· = .unreachableBranch address target) (branchOffset address target) := by
  intro e he
  rcases branchOffset_eq_error_iff.mp he with ⟨hmisaligned, -⟩ | ⟨-, -, rfl⟩
  · omega
  · rfl

namespace Mnemonic

variable {m : Mnemonic} {operands : List String} {address : Nat} {labels : SymbolTable}

/-- The number of operands is looked at before any of them. -/
theorem resolve_of_ne_arity (h : operands.length ≠ m.arity) :
    m.resolve operands address labels = .error (.invalidArity m.text m.arity operands.length) := by
  unfold resolve
  split
  case h_12 => rfl
  all_goals exact absurd rfl h

/-- Operands are refused for their number, one by one, or for where the label of a branch is. -/
theorem resolve_failsOnly
    (harity : operands.length ≠ m.arity → P (.invalidArity m.text m.arity operands.length))
    (hoperand : ∀ s ∈ operands, P (.invalidOperand s))
    (hlabel : ∀ name ∈ operands, P (.unresolvedLabel name))
    (hoffset : ∀ name target, labels.lookup name = .ok target →
      FailsOnly P (branchOffset address target)) :
    FailsOnly P (m.resolve operands address labels) := by
  -- The readers blame the operand that they are given, which is one of the operands.
  have hregister : ∀ s ∈ operands, FailsOnly P (Operand.register s) := by
    intro s hs
    exact (Operand.register_failsOnly s).imp fun e he => he ▸ hoperand s hs
  have hnumber : ∀ s ∈ operands, ∀ lower upper, FailsOnly P (Operand.number s lower upper) := by
    intro s hs lower upper
    exact (Operand.number_failsOnly s lower upper).imp fun e he => he ▸ hoperand s hs
  have hname : ∀ s ∈ operands, FailsOnly P (Operand.label s) := by
    intro s hs
    exact (Operand.label_failsOnly s).imp fun e he => he ▸ hoperand s hs
  by_cases hcount : operands.length = m.arity
  · -- One case for each operand format, with one reader for each operand from left to right.
    cases m with
    | regReg code =>
      obtain ⟨d, s, t, rfl⟩ := List.length_eq_three.mp hcount
      exact (hregister d (by simp)).bind fun _ => (hregister s (by simp)).bind fun _ =>
        (hregister t (by simp)).bind fun _ => failsOnly_ok _
    | shift code =>
      obtain ⟨d, t, n, rfl⟩ := List.length_eq_three.mp hcount
      exact (hregister d (by simp)).bind fun _ => (hregister t (by simp)).bind fun _ =>
        (hnumber n (by simp) _ _).bind fun _ => failsOnly_ok _
    | jumpReg code =>
      obtain ⟨s, rfl⟩ := List.length_eq_one_iff.mp hcount
      exact (hregister s (by simp)).bind fun _ => failsOnly_ok _
    | mulDiv code =>
      obtain ⟨s, t, rfl⟩ := List.length_eq_two.mp hcount
      exact (hregister s (by simp)).bind fun _ => (hregister t (by simp)).bind
        fun _ => failsOnly_ok _
    | moveFrom code =>
      obtain ⟨d, rfl⟩ := List.length_eq_one_iff.mp hcount
      exact (hregister d (by simp)).bind fun _ => failsOnly_ok _
    | immediate code =>
      cases code with
      | lui =>
        obtain ⟨t, n, rfl⟩ := List.length_eq_two.mp hcount
        exact (hregister t (by simp)).bind fun _ => (hnumber n (by simp) _ _).bind
          fun _ => failsOnly_ok _
      | addiu =>
        obtain ⟨t, s, n, rfl⟩ := List.length_eq_three.mp hcount
        exact (hregister t (by simp)).bind fun _ => (hregister s (by simp)).bind fun _ =>
          (hnumber n (by simp) _ _).bind fun _ => failsOnly_ok _
      | ori =>
        obtain ⟨t, s, n, rfl⟩ := List.length_eq_three.mp hcount
        exact (hregister t (by simp)).bind fun _ => (hregister s (by simp)).bind fun _ =>
          (hnumber n (by simp) _ _).bind fun _ => failsOnly_ok _
    | memory code =>
      obtain ⟨t, n, b, rfl⟩ := List.length_eq_three.mp hcount
      exact (hregister t (by simp)).bind fun _ => (hnumber n (by simp) _ _).bind fun _ =>
        (hregister b (by simp)).bind fun _ => failsOnly_ok _
    | branch code =>
      obtain ⟨s, t, name, rfl⟩ := List.length_eq_three.mp hcount
      refine (hregister s (by simp)).bind fun _ => (hregister t (by simp)).bind fun _ => ?_
      refine (hname name (by simp)).bind_of_eq_ok fun name' hname' => ?_
      -- A label reads as itself, so what is looked up was written.
      obtain ⟨-, rfl⟩ := Operand.label_eq_ok_iff.mp hname'
      have htarget : FailsOnly P (branchTarget labels name) :=
        failsOnly_mapError _ fun _ => hlabel name (by simp)
      refine htarget.bind_of_eq_ok fun target hlookup => ?_
      exact (hoffset name target (mapError_eq_ok_iff.mp hlookup)).bind fun _ => failsOnly_ok _
    | jump code =>
      obtain ⟨name, rfl⟩ := List.length_eq_one_iff.mp hcount
      exact (hname name (by simp)).bind fun _ => failsOnly_ok _
  · rw [resolve_of_ne_arity hcount]
    exact failsOnly_error (harity hcount)

end Mnemonic

/-- Once its mnemonic is known, an instruction is refused for its operands, and a jump also where a table of
sites does not take it. -/
theorem Instruction.emit_failsOnly_of_ofText? {i : Instruction} {m : Mnemonic} {address : Nat}
    {labels relocations : SymbolTable} (hm : Mnemonic.ofText? i.mnemonic = some m)
    (hresolve : FailsOnly P (m.resolve i.operands address labels))
    (hsite : ∀ code, m = .jump code → ∀ name, FailsOnly P (relocations.entryFor name address)) :
    FailsOnly P (i.emit address labels relocations) := by
  rw [emit, hm]
  refine hresolve.bind_of_eq_ok fun op hop => ?_
  obtain ⟨w, hw⟩ := Mnemonic.exists_encode_of_resolve hop
  rw [hw]
  refine (failsOnly_ok w).bind fun word => ?_
  split
  case h_1 code name _ => exact (hsite code rfl name).bind fun _ => failsOnly_ok _
  case h_2 => exact failsOnly_ok _

theorem Instruction.emit_failsOnly {i : Instruction} {address : Nat}
    {labels relocations : SymbolTable}
    (hunknown : Mnemonic.ofText? i.mnemonic = none → P (.unknownInstruction i.mnemonic))
    (hresolve : ∀ m, Mnemonic.ofText? i.mnemonic = some m →
      FailsOnly P (m.resolve i.operands address labels))
    (hsite : ∀ name, FailsOnly P (relocations.entryFor name address)) :
    FailsOnly P (i.emit address labels relocations) := by
  cases hm : Mnemonic.ofText? i.mnemonic with
  | none =>
    rw [emit, hm]
    exact failsOnly_error (hunknown hm)
  | some m => exact emit_failsOnly_of_ofText? hm (hresolve m hm) fun _ _ => hsite

/-! ### No error is fatal -/

theorem mild_entryFor (t : SymbolTable) (name : String) (address : Nat) :
    Mild (t.entryFor name address) :=
  SymbolTable.entryFor_failsOnly (fun _ => rfl) fun _ => rfl

theorem mild_expand (line : Line) : Mild line.expand := by
  rw [Line.expand]
  split
  · rw [Instruction.expand]
    split
    · exact Pseudo.expand_failsOnly rfl fun _ _ => rfl
    · exact failsOnly_ok _
  · exact failsOnly_ok _

theorem mild_branchOffset (address target : Nat) : Mild (branchOffset address target) := by
  intro e he
  rcases branchOffset_eq_error_iff.mp he with ⟨-, rfl⟩ | ⟨-, -, rfl⟩ <;> rfl

theorem mild_emit (i : Instruction) (address : Nat) (labels relocations : SymbolTable) :
    Mild (i.emit address labels relocations) := by
  refine Instruction.emit_failsOnly (fun _ => rfl) ?_
    fun name => mild_entryFor relocations name address
  intro m _
  exact Mnemonic.resolve_failsOnly (fun _ => rfl) (fun _ _ => rfl) (fun _ _ => rfl)
    fun _ target _ => mild_branchOffset address target

theorem Layout.neverFatal_pass : pass.NeverFatal := by
  intro l line
  rw [look_pass]
  exact piece_failsOnly (mild_expand line) rfl fun _ _ => mild_entryFor l.labels _ _

theorem Assembly.neverFatal_pass : pass.NeverFatal := by
  intro a p
  rw [look_pass]
  exact mild_emit p.instruction p.address _ _

end MipsAssembler
