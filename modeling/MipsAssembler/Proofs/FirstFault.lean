/-
Which of several faults is reported.

An instruction may have many things wrong with it at once, and is refused for one of them.  Which one it is
follows from an order of checks that is the same for every operand format:

* `Position`, `Mnemonic.positions` — what each operand has to be, from left to right;
* `Position.FirstRefused` — the leftmost operand that is not what it has to be;
* `Mnemonic.PlaceFault` — what can be wrong with the place that a branch or a jump names;
* `Instruction.FirstFault` — the one fault that counts: the mnemonic, then the number of operands, then the
  operands from left to right, and then the place;
* `Instruction.emit_reports_first_fault` — this fault is reported, and without one there is a word.

Design notes: every operand format is a chain of readers, one for each position, with the look at the place
behind them.  `Reports` says which errors such a chain ends in, and `Reports.cons` puts one more reader in
front, so that a format is settled by naming its readers.
-/
import Mathlib
import MipsAssembler.Proofs.ErrorKinds
import MipsAssembler.Proofs.Execution
import MipsAssembler.Proofs.LineGrammar
import MipsAssembler.Proofs.NumberReaders
import MipsAssembler.Proofs.Relocations
import MipsAssembler.Proofs.TableHistory

namespace MipsAssembler

/-! ### Positions -/

/-- What an operand has to be. -/
inductive Position
  | register
  | number (lower upper : Int)
  | label
deriving DecidableEq, Repr

/-- Whether an operand is what its position asks for. -/
def Position.Accepts : Position → String → Prop
  | .register, s => ∃ r : Register, r.IsSpelled s
  | .number lower upper, s => ∃ v, Operand.Writes v s.toList ∧ lower ≤ v ∧ v ≤ upper
  | .label, s => Line.IsName s.toList

/-- The positions of the operands of a mnemonic. -/
def Mnemonic.positions : Mnemonic → List Position
  | .regReg _ => [.register, .register, .register]
  | .shift _ => [.register, .register, .number 0 31]
  | .jumpReg _ => [.register]
  | .mulDiv _ => [.register, .register]
  | .moveFrom _ => [.register]
  | .immediate .addiu => [.register, .register, .number (-0x80000000) 0x7FFFFFFF]
  | .immediate .ori => [.register, .register, .number 0 0xFFFF]
  | .immediate .lui => [.register, .number (-0x80000000) 0xFFFFFFFF]
  | .memory _ => [.register, .number (-0x8000) 0x7FFF, .register]
  | .branch _ => [.register, .register, .label]
  | .jump _ => [.label]

/-- Whether every operand is what its position asks for. -/
def Mnemonic.Accepts (m : Mnemonic) (operands : List String) : Prop :=
  List.Forall₂ Position.Accepts m.positions operands

/-- Whether `s` is the leftmost operand that is not what its position asks for. -/
inductive Position.FirstRefused : List Position → List String → String → Prop
  | here {p : Position} {ps : List Position} {s : String} {operands : List String} :
    ¬p.Accepts s → FirstRefused (p :: ps) (s :: operands) s
  | later {p : Position} {ps : List Position} {s t : String} {operands : List String} :
    p.Accepts s → FirstRefused ps operands t → FirstRefused (p :: ps) (s :: operands) t

/-! ### Faults -/

/-- What can be wrong with the place that a branch or a jump names, where the operands are what they have
to be. -/
inductive Mnemonic.PlaceFault (address : Nat) (labels relocations : SymbolTable) :
    Mnemonic → List String → Error → Prop
  | unresolved {code : BranchCode} {rs rt name : String} :
    ¬labels.hasName name →
      PlaceFault address labels relocations (.branch code) [rs, rt, name] (.unresolvedLabel name)
  | branchAddress {code : BranchCode} {rs rt name : String} :
    labels.hasName name → address % 4 ≠ 0 →
      PlaceFault address labels relocations (.branch code) [rs, rt, name] (.misalignedAddress address)
  | reach {code : BranchCode} {rs rt name : String} {target : Nat} :
    labels.lookup name = .ok target → address % 4 = 0 →
      ¬(-32768 ≤ ((target : Int) - address - 4) / 4 ∧ ((target : Int) - address - 4) / 4 ≤ 32767) →
      PlaceFault address labels relocations (.branch code) [rs, rt, name]
        (.unreachableBranch address target)
  | jumpAddress {code : JumpCode} {name : String} :
    address % 4 ≠ 0 →
      PlaceFault address labels relocations (.jump code) [name] (.misalignedAddress address)
  | repeated {code : JumpCode} {name : String} :
    address % 4 = 0 → relocations.mode = .distinct → relocations.hasName name →
      PlaceFault address labels relocations (.jump code) [name] (.duplicateName name)

/-- The fault that counts among all that an instruction has. -/
inductive Instruction.FirstFault (address : Nat) (labels relocations : SymbolTable) :
    Instruction → Error → Prop
  | mnemonic {i : Instruction} :
    (∀ m : Mnemonic, m.text ≠ i.mnemonic) →
      FirstFault address labels relocations i (.unknownInstruction i.mnemonic)
  | arity {m : Mnemonic} {operands : List String} :
    operands.length ≠ m.arity →
      FirstFault address labels relocations ⟨m.text, operands⟩
        (.invalidArity m.text m.arity operands.length)
  | operand {m : Mnemonic} {operands : List String} {s : String} :
    operands.length = m.arity → Position.FirstRefused m.positions operands s →
      FirstFault address labels relocations ⟨m.text, operands⟩ (.invalidOperand s)
  | place {m : Mnemonic} {operands : List String} {e : Error} :
    operands.length = m.arity → m.Accepts operands →
      Mnemonic.PlaceFault address labels relocations m operands e →
      FirstFault address labels relocations ⟨m.text, operands⟩ e

/-! ### Readers -/

section Readers

variable {α β : Type} {p : Position} {ps : List Position} {s t : String} {operands : List String}
  {e : Error} {Q : Error → Prop}

/-- Whether `x` is the outcome of a reader for `p` on `s`. -/
def Position.Reads (p : Position) (s : String) (x : Except Error α) : Prop :=
  (p.Accepts s ∧ ∃ a, x = .ok a) ∨ (¬p.Accepts s ∧ x = .error (.invalidOperand s))

theorem Position.reads_register (s : String) : register.Reads s (Operand.register s) := by
  cases h : Operand.register s with
  | ok r => exact .inl ⟨⟨r, Operand.register_eq_ok_iff.mp h⟩, r, rfl⟩
  | error e =>
    obtain rfl := Operand.register_failsOnly s e h
    refine .inr ⟨?_, rfl⟩
    rintro ⟨r, hr⟩
    rw [Operand.register_eq_ok_iff.mpr hr] at h
    cases h

theorem Position.reads_number (s : String) (lower upper : Int) :
    (number lower upper).Reads s (Operand.number s lower upper) := by
  cases h : Operand.number s lower upper with
  | ok v =>
    obtain ⟨hv, hlower, hupper⟩ := Operand.number_eq_ok_iff.mp h
    exact .inl ⟨⟨v, Operand.writes_of_literal? hv, hlower, hupper⟩, v, rfl⟩
  | error e =>
    obtain ⟨rfl, hnone⟩ := Operand.number_eq_error_iff.mp h
    refine .inr ⟨?_, rfl⟩
    rintro ⟨v, hv, hrange⟩
    exact hnone v hv hrange

theorem Position.reads_label (s : String) : label.Reads s (Operand.label s) := by
  by_cases hs : Line.IsName s.toList
  · exact .inl ⟨hs, s, Operand.label_eq_ok_iff.mpr ⟨Line.isName_iff.mp hs, rfl⟩⟩
  · refine .inr ⟨hs, ?_⟩
    rw [Line.isName_iff] at hs
    rw [Operand.label, if_neg hs]

/-- Whether an outcome is an error exactly for the leftmost operand that is refused or, where all are
accepted, exactly with the errors of `Q`. -/
def Reports (ps : List Position) (operands : List String) (Q : Error → Prop) (x : Except Error α) :
    Prop :=
  ∀ e, x = .error e ↔ (∃ s, Position.FirstRefused ps operands s ∧ e = .invalidOperand s) ∨
    (List.Forall₂ Position.Accepts ps operands ∧ Q e)

/-- Behind the last operand only the errors of `Q` are left. -/
theorem reports_nil {x : Except Error α} (h : ∀ e, x = .error e ↔ Q e) : Reports [] [] Q x := by
  intro e
  rw [h e]
  constructor
  · exact fun he => .inr ⟨.nil, he⟩
  · rintro (⟨s, hs, -⟩ | ⟨-, he⟩)
    · cases hs
    · exact he

/-- One more reader in front. -/
theorem Reports.cons {x : Except Error α} {f : α → Except Error β} (hx : p.Reads s x)
    (hf : ∀ a, x = .ok a → Reports ps operands Q (f a)) :
    Reports (p :: ps) (s :: operands) Q (x >>= f) := by
  intro e
  rcases hx with ⟨haccepts, a, rfl⟩ | ⟨hrefuses, rfl⟩
  · -- The first operand is read: whatever is reported comes from the others.
    show f a = .error e ↔ _
    rw [hf a rfl e]
    constructor
    · rintro (⟨t, ht, rfl⟩ | ⟨hall, he⟩)
      · exact .inl ⟨t, .later haccepts ht, rfl⟩
      · exact .inr ⟨.cons haccepts hall, he⟩
    · rintro (⟨t, ht, rfl⟩ | ⟨hall, he⟩)
      · cases ht with
        | here h => exact absurd haccepts h
        | later _ ht => exact .inl ⟨t, ht, rfl⟩
      · cases hall with
        | cons _ hall => exact .inr ⟨hall, he⟩
  · -- The first operand is refused: it is reported, and the others are not looked at.
    show (.error (.invalidOperand s) : Except Error β) = .error e ↔ _
    rw [Except.error.injEq, eq_comm]
    constructor
    · rintro rfl
      exact .inl ⟨s, .here hrefuses, rfl⟩
    · rintro (⟨t, ht, rfl⟩ | ⟨hall, -⟩)
      · cases ht with
        | here => rfl
        | later h => exact absurd h hrefuses
      · cases hall with
        | cons h => exact absurd h hrefuses

end Readers

/-! ### Mnemonics -/

namespace Mnemonic

theorem ofText?_text (m : Mnemonic) : ofText? m.text = some m := by
  cases m with
  | _ code => cases code <;> rfl

theorem text_injective {m m' : Mnemonic} (h : m.text = m'.text) : m = m' := by
  rw [← Option.some_inj, ← ofText?_text m, h, ofText?_text]

theorem ofText?_eq_none_iff {s : String} : ofText? s = none ↔ ∀ m : Mnemonic, m.text ≠ s := by
  constructor
  · rintro h m rfl
    rw [ofText?_text] at h
    cases h
  · intro h
    rw [Option.eq_none_iff_forall_ne_some]
    exact fun m hm => h m (text_of_ofText? hm)

end Mnemonic

/-! ### Places -/

section Places

variable {address : Nat} {labels relocations : SymbolTable} {e : Error}

/-- A branch is refused for the place of its label: it has none, or no offset leads there. -/
theorem branch_eq_error_iff (hlabels : labels.Aligned) {code : BranchCode} {rs rt : Register}
    {s t name : String} :
    (branchTarget labels name >>= fun target => branchOffset address target >>= fun offset =>
        pure (Op.branch code rs rt offset)) = .error e ↔
      Mnemonic.PlaceFault address labels relocations (.branch code) [s, t, name] e := by
  -- Without an entry for the name neither the address nor the distance is looked at.
  cases hlookup : labels.lookup name with
  | error e' =>
    obtain ⟨hname, -⟩ := SymbolTable.lookup_eq_error_iff.mp hlookup
    have htarget : branchTarget labels name = .error (.unresolvedLabel name) := by
      rw [branchTarget, hlookup]
      rfl
    rw [htarget]
    constructor
    · intro h
      obtain rfl := Except.error.inj h
      exact .unresolved hname
    · intro h
      cases h with
      | unresolved => rfl
      | branchAddress hname' => exact absurd hname' hname
      | reach hlookup' => cases hlookup.symm.trans hlookup'
  | ok target =>
    have hname : labels.hasName name := by
      by_contra hname
      cases hlookup.symm.trans (SymbolTable.lookup_eq_error_iff.mpr ⟨hname, rfl⟩)
    rw [branchTarget_eq_ok_iff.mpr hlookup]
    show (branchOffset address target >>= _) = .error e ↔ _
    -- The label is aligned, so it is never the one to blame.
    have haligned := hlabels.lookup hlookup
    rw [bind_eq_error_iff, branchOffset_eq_error_iff, if_neg (not_not.mpr haligned)]
    constructor
    · rintro ((⟨hdelta, rfl⟩ | ⟨hdelta, hreach, rfl⟩) | ⟨offset, -, hpure⟩)
      · exact .branchAddress hname (by omega)
      · exact .reach hlookup (by omega) hreach
      · cases hpure
    · intro h
      cases h with
      | unresolved hname' => exact absurd hname hname'
      | branchAddress _ haddress => exact .inl (.inl ⟨by omega, rfl⟩)
      | reach hlookup' haddress hreach =>
        obtain rfl := Except.ok.inj (hlookup.symm.trans hlookup')
        exact .inl (.inr ⟨by omega, hreach, rfl⟩)

theorem entryFor_eq_error_iff {code : JumpCode} {name : String} :
    relocations.entryFor name address = .error e ↔
      Mnemonic.PlaceFault address labels relocations (.jump code) [name] e := by
  rw [SymbolTable.entryFor]
  constructor
  · intro h
    split at h
    case isTrue haddress =>
      obtain rfl := Except.error.inj h
      exact .jumpAddress haddress
    -- At a word boundary only the name can be in the way.
    case isFalse haddress =>
      split at h
      case isTrue htaken =>
        obtain rfl := Except.error.inj h
        exact .repeated (by omega) htaken.1 htaken.2
      case isFalse => cases h
  · intro h
    cases h with
    | jumpAddress haddress => rw [if_pos haddress]
    | repeated haddress hmode hname => rw [if_neg (by omega), if_pos ⟨hmode, hname⟩]

end Places

/-! ### Instructions -/

section Instructions

variable {m : Mnemonic} {operands : List String} {address : Nat} {labels relocations : SymbolTable}
  {e : Error}

/-- Operands in the right number are looked at from left to right, and the label of a branch last. -/
theorem Mnemonic.resolve_reports (hcount : operands.length = m.arity) (hlabels : labels.Aligned)
    (hjump : ∀ code, m ≠ .jump code) :
    Reports m.positions operands (PlaceFault address labels relocations m operands)
      (m.resolve operands address labels) := by
  -- One case for each operand format, with one reader for each operand from left to right.
  cases m with
  | regReg code =>
    obtain ⟨d, s, t, rfl⟩ := List.length_eq_three.mp hcount
    exact .cons (Position.reads_register d) fun _ _ => .cons (Position.reads_register s) fun _ _ =>
      .cons (Position.reads_register t) fun _ _ => reports_nil fun _ => ⟨nofun, nofun⟩
  | shift code =>
    obtain ⟨d, t, n, rfl⟩ := List.length_eq_three.mp hcount
    exact .cons (Position.reads_register d) fun _ _ => .cons (Position.reads_register t) fun _ _ =>
      .cons (Position.reads_number n _ _) fun _ _ => reports_nil fun _ => ⟨nofun, nofun⟩
  | jumpReg code =>
    obtain ⟨s, rfl⟩ := List.length_eq_one_iff.mp hcount
    exact .cons (Position.reads_register s) fun _ _ => reports_nil fun _ => ⟨nofun, nofun⟩
  | mulDiv code =>
    obtain ⟨s, t, rfl⟩ := List.length_eq_two.mp hcount
    exact .cons (Position.reads_register s) fun _ _ => .cons (Position.reads_register t) fun _ _ =>
      reports_nil fun _ => ⟨nofun, nofun⟩
  | moveFrom code =>
    obtain ⟨d, rfl⟩ := List.length_eq_one_iff.mp hcount
    exact .cons (Position.reads_register d) fun _ _ => reports_nil fun _ => ⟨nofun, nofun⟩
  | immediate code =>
    cases code with
    | lui =>
      obtain ⟨t, n, rfl⟩ := List.length_eq_two.mp hcount
      exact .cons (Position.reads_register t) fun _ _ =>
        .cons (Position.reads_number n _ _) fun _ _ => reports_nil fun _ => ⟨nofun, nofun⟩
    | addiu =>
      obtain ⟨t, s, n, rfl⟩ := List.length_eq_three.mp hcount
      exact .cons (Position.reads_register t) fun _ _ =>
        .cons (Position.reads_register s) fun _ _ =>
        .cons (Position.reads_number n _ _) fun _ _ => reports_nil fun _ => ⟨nofun, nofun⟩
    | ori =>
      obtain ⟨t, s, n, rfl⟩ := List.length_eq_three.mp hcount
      exact .cons (Position.reads_register t) fun _ _ =>
        .cons (Position.reads_register s) fun _ _ =>
        .cons (Position.reads_number n _ _) fun _ _ => reports_nil fun _ => ⟨nofun, nofun⟩
  | memory code =>
    obtain ⟨t, n, b, rfl⟩ := List.length_eq_three.mp hcount
    exact .cons (Position.reads_register t) fun _ _ =>
      .cons (Position.reads_number n _ _) fun _ _ =>
      .cons (Position.reads_register b) fun _ _ => reports_nil fun _ => ⟨nofun, nofun⟩
  | branch code =>
    obtain ⟨s, t, name, rfl⟩ := List.length_eq_three.mp hcount
    refine .cons (Position.reads_register s) fun _ _ =>
      .cons (Position.reads_register t) fun _ _ =>
      .cons (Position.reads_label name) fun name' hname' => reports_nil fun e => ?_
    obtain ⟨-, rfl⟩ := Operand.label_eq_ok_iff.mp hname'
    exact branch_eq_error_iff hlabels
  | jump code => exact absurd rfl (hjump code)

/-- An instruction that is no jump is refused for its operands alone. -/
theorem Instruction.emit_eq_error_iff_resolve (hjump : ∀ code, m ≠ .jump code) :
    (⟨m.text, operands⟩ : Instruction).emit address labels relocations = .error e ↔
      m.resolve operands address labels = .error e := by
  cases hop : m.resolve operands address labels with
  | error e' =>
    rw [emit, m.ofText?_text]
    show (m.resolve operands address labels >>= _) = _ ↔ _
    rw [hop]
    show (.error e' : Except Error Emission) = .error e ↔ _
    rw [Except.error.injEq, Except.error.injEq]
  | ok op =>
    -- Nothing is left to fail once the operands are resolved, as jumps are left out.
    obtain ⟨w, hemit, -⟩ := standsFor_of_resolve (i := ⟨m.text, operands⟩) m.ofText?_text hjump hop
    rw [hemit relocations]
    constructor
    · intro h
      cases h
    · intro h
      cases h

/-- With the right number of operands, these are looked at from left to right and the place last. -/
theorem Instruction.emit_reports (hcount : operands.length = m.arity) (hlabels : labels.Aligned) :
    Reports m.positions operands (Mnemonic.PlaceFault address labels relocations m operands)
      ((⟨m.text, operands⟩ : Instruction).emit address labels relocations) := by
  by_cases hjump : ∃ code, m = .jump code
  · -- The entry of the site comes behind the word, so that a jump has one more way to fail.
    obtain ⟨code, rfl⟩ := hjump
    obtain ⟨name, rfl⟩ := List.length_eq_one_iff.mp hcount
    rw [emit_jump (Mnemonic.ofText?_text _)]
    refine .cons (Position.reads_label name) fun _ _ => reports_nil fun e => ?_
    rw [bind_eq_error_iff, entryFor_eq_error_iff]
    exact ⟨fun h => h.elim id nofun, .inl⟩
  · have hno : ∀ code, m ≠ .jump code := fun code h => hjump ⟨code, h⟩
    intro e
    rw [emit_eq_error_iff_resolve hno]
    exact Mnemonic.resolve_reports hcount hlabels hno e

theorem Instruction.mk_text_inj {m' : Mnemonic} {operands' : List String}
    (h : (⟨m.text, operands⟩ : Instruction) = ⟨m'.text, operands'⟩) :
    m = m' ∧ operands = operands' := by
  obtain ⟨htext, hoperands⟩ := Instruction.mk.inj h
  exact ⟨Mnemonic.text_injective htext, hoperands⟩

/-- Behind a known mnemonic the number of operands comes first. -/
theorem Instruction.firstFault_text_iff :
    FirstFault address labels relocations ⟨m.text, operands⟩ e ↔
      (operands.length ≠ m.arity ∧ e = .invalidArity m.text m.arity operands.length) ∨
      (operands.length = m.arity ∧
        ((∃ s, Position.FirstRefused m.positions operands s ∧ e = .invalidOperand s) ∨
          (m.Accepts operands ∧ Mnemonic.PlaceFault address labels relocations m operands e))) := by
  constructor
  · intro h
    -- A fault knows its instruction by the text of a mnemonic, which no other mnemonic has.
    generalize hi : (⟨m.text, operands⟩ : Instruction) = i at h
    cases h with
    | mnemonic hunknown =>
      subst hi
      exact absurd rfl (hunknown m)
    | arity hcount =>
      obtain ⟨rfl, rfl⟩ := mk_text_inj hi
      exact .inl ⟨hcount, rfl⟩
    | operand hcount hs =>
      obtain ⟨rfl, rfl⟩ := mk_text_inj hi
      exact .inr ⟨hcount, .inl ⟨_, hs, rfl⟩⟩
    | place hcount haccepts hplace =>
      obtain ⟨rfl, rfl⟩ := mk_text_inj hi
      exact .inr ⟨hcount, .inr ⟨haccepts, hplace⟩⟩
  · rintro (⟨hcount, rfl⟩ | ⟨hcount, ⟨s, hs, rfl⟩ | ⟨haccepts, hplace⟩⟩)
    · exact .arity hcount
    · exact .operand hcount hs
    · exact .place hcount haccepts hplace

/-- Against labels that are aligned, the error of an instruction is its first fault. -/
theorem Instruction.emit_eq_error_iff_firstFault (hlabels : labels.Aligned) (i : Instruction) :
    i.emit address labels relocations = .error e ↔ FirstFault address labels relocations i e := by
  obtain ⟨mnemonic, operands⟩ := i
  cases hm : Mnemonic.ofText? mnemonic with
  | none =>
    have hunknown := Mnemonic.ofText?_eq_none_iff.mp hm
    rw [emit, hm]
    constructor
    · intro h
      obtain rfl := Except.error.inj h
      exact .mnemonic hunknown
    · intro h
      cases h with
      | mnemonic => rfl
      | arity => exact absurd rfl (hunknown _)
      | operand => exact absurd rfl (hunknown _)
      | place => exact absurd rfl (hunknown _)
  | some m =>
    -- The text is that of a mnemonic, which then says how many operands there are to be.
    obtain rfl := Mnemonic.text_of_ofText? hm
    rw [firstFault_text_iff]
    by_cases hcount : operands.length = m.arity
    · rw [emit_reports hcount hlabels e]
      exact ⟨fun h => .inr ⟨hcount, h⟩, fun h => h.elim (absurd hcount ·.1) (·.2)⟩
    · have hemit : (⟨m.text, operands⟩ : Instruction).emit address labels relocations =
          .error (.invalidArity m.text m.arity operands.length) := by
        rw [emit, hm]
        exact congrArg (· >>= _) (Mnemonic.resolve_of_ne_arity hcount)
      rw [hemit, Except.error.injEq, eq_comm]
      exact ⟨fun he => .inl ⟨hcount, he⟩, fun h => h.elim (·.2) (absurd ·.1 hcount)⟩

end Instructions

/-- **The first fault is reported.**  Against the labels that any requests leave in a table, an instruction
is refused exactly with its first fault, and has a word exactly if it has no fault.  What a mnemonic makes
of its operands always fits into a word, so no fault is found after these. -/
theorem Instruction.emit_reports_first_fault (i : Instruction) (address : Nat) (mode : NameMode)
    (requests : List Symbol) (relocations : SymbolTable) :
    let labels := (SymbolTable.empty mode).after requests
    (∀ e, i.emit address labels relocations = .error e ↔
      FirstFault address labels relocations i e) ∧
    ((∃ emission, i.emit address labels relocations = .ok emission) ↔
      ∀ e, ¬FirstFault address labels relocations i e) ∧
    ∀ (m : Mnemonic) (op : Op), m.text = i.mnemonic →
      m.resolve i.operands address labels = .ok op → ∃ w, op.encode = .ok w := by
  intro labels
  have hempty : (SymbolTable.empty mode).Aligned := fun s hs => absurd hs List.not_mem_nil
  have herror : ∀ e, i.emit address labels relocations = .error e ↔
      FirstFault address labels relocations i e :=
    fun e => emit_eq_error_iff_firstFault (hempty.after requests) i
  refine ⟨herror, ?_, fun m op _ hop => Mnemonic.exists_encode_of_resolve hop⟩
  simp only [← herror]
  cases i.emit address labels relocations with
  | ok emission => exact ⟨fun _ _ => nofun, fun _ => ⟨emission, rfl⟩⟩
  | error e => exact ⟨nofun, fun h => absurd rfl (h e)⟩

/-- A load with too large an offset is refused for that and not for its base, which stands behind it and
spells no register.  A branch at an address that is no multiple of 4 is refused for its address and not for
its distance from the label.  The largest shift has a word. -/
theorem Instruction.emit_reports_first_fault_of_several :
    (⟨"lw", ["$t0", "32768", "sp"]⟩ : Instruction).emit 8 (.empty .distinct) (.empty .repeating) =
      .error (.invalidOperand "32768") ∧
    (⟨"beq", ["$8", "$zero", "far"]⟩ : Instruction).emit 6
        ((SymbolTable.empty .distinct).after [⟨"far", 0x40000⟩]) (.empty .repeating) =
      .error (.misalignedAddress 6) ∧
    ∃ w, (Op.shift .sll ⟨8⟩ ⟨9⟩ 31).encode = .ok w := by
  refine ⟨?_, ?_, ?_⟩
  · obtain ⟨hload, -⟩ := emit_reports_first_fault ⟨"lw", ["$t0", "32768", "sp"]⟩ 8 .distinct []
      (.empty .repeating)
    refine (hload _).mpr (.operand (m := .memory .lw) rfl (.later ⟨⟨8⟩, .inl rfl⟩ (.here ?_)))
    rintro ⟨v, hv, -, hupper⟩
    have hliteral : Operand.literal? "32768".toList = some 32768 := by rfl
    obtain rfl := Option.some_inj.mp ((Operand.literal?_eq_some_iff.mpr hv).symm.trans hliteral)
    omega
  · obtain ⟨hbranch, -⟩ := emit_reports_first_fault ⟨"beq", ["$8", "$zero", "far"]⟩ 6 .distinct
      [⟨"far", 0x40000⟩] (.empty .repeating)
    have hname : Line.IsName "far".toList := Line.isName_iff.mpr (by decide)
    have hentered : ((SymbolTable.empty .distinct).after [⟨"far", 0x40000⟩]).hasName "far" := by
      cbv
    refine (hbranch _).mpr (.place (m := .branch .beq) rfl ?_ (.branchAddress hentered (by decide)))
    exact .cons ⟨⟨8⟩, .inr (by decide)⟩ (.cons ⟨⟨0⟩, .inl (by decide)⟩ (.cons hname .nil))
  · obtain ⟨-, -, hencode⟩ := emit_reports_first_fault ⟨"sll", ["$t0", "$t1", "31"]⟩ 0 .distinct []
      (.empty .repeating)
    exact hencode (.shift .sll) _ rfl (by rfl)

end MipsAssembler
