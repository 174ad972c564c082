/-
What expansions consist of.

The instructions that stand for a pseudo-instruction are machine instructions of a few kinds, made of
the operands as they were written, the zero and scratch registers, and constants.  So nothing can be
wrong with them that was not wrong with the operands:

* `Pseudo.Part` — the kinds of instruction in an expansion, and where their operands come from;
* `Pseudo.part_of_mem_expand` — every expansion consists of such parts;
* `Instruction.expand_of_mem_expand` — what was expanded once is not expanded again;
* `Instruction.expansion_is_wellFormed` — parts have known mnemonics with the right number of operands,
  have words if the operands are as they should be, and otherwise blame an operand of the source.

Design notes: `div` with two operands is a machine instruction and also the first part of `div` with
three, so an expansion may hold the mnemonic of a pseudo-instruction.  The number of operands tells the
two apart.
-/
import MipsAssembler.Proofs.ErrorKinds
import MipsAssembler.Proofs.PseudoEffects

namespace MipsAssembler

/-- Whether an error is about one of some operands: it cannot be read, its label is not defined, or its
label is out of reach. -/
inductive Error.IsAbout (operands : List String) : Error → Prop
  | operand {s : String} : s ∈ operands → IsAbout operands (.invalidOperand s)
  | label {name : String} : name ∈ operands → IsAbout operands (.unresolvedLabel name)
  | reach (address target : Nat) : IsAbout operands (.unreachableBranch address target)

namespace Pseudo

/-- The operands that have to be registers. -/
def registers : Pseudo → List String → List String
  | .li, operands => operands.take 1
  | .blt, operands => operands.take 2
  | .bgt, operands => operands.take 2
  | _, operands => operands

/-- The operand that has to be a label. -/
def target? : Pseudo → List String → Option String
  | .blt, operands => operands[2]?
  | .bgt, operands => operands[2]?
  | _, _ => none

/-- Whether `s` is one of the registers in `given`, or one that expansions bring along. -/
def IsRegisterOf (given : List String) (s : String) : Prop := s ∈ given ∨ s = zero ∨ s = scratch

/-- An instruction in the expansion of a pseudo-instruction, with the registers in `given` and the
label `target?`. -/
inductive Part (given : List String) (target? : Option String) : Instruction → Prop
  | regReg (code : RegRegCode) {d s t : String} :
    IsRegisterOf given d → IsRegisterOf given s → IsRegisterOf given t →
      Part given target? ⟨(Mnemonic.regReg code).text, [d, s, t]⟩
  | mulDiv (code : MulDivCode) {s t : String} :
    IsRegisterOf given s → IsRegisterOf given t →
      Part given target? ⟨(Mnemonic.mulDiv code).text, [s, t]⟩
  | moveFrom (code : MoveFromCode) {d : String} :
    IsRegisterOf given d → Part given target? ⟨(Mnemonic.moveFrom code).text, [d]⟩
  -- Constants are written by the expansion itself, and are known to be in range.
  | addiu {t n : String} {v : Int} :
    t ∈ given → Operand.number n (-0x80000000) 0x7FFFFFFF = .ok v →
      Part given target? ⟨"addiu", [t, zero, n]⟩
  | lui {t n : String} {v : Int} :
    t ∈ given → Operand.number n (-0x80000000) 0xFFFFFFFF = .ok v →
      Part given target? ⟨"lui", [t, n]⟩
  | ori {t n : String} {v : Int} :
    t ∈ given → Operand.number n 0 0xFFFF = .ok v → Part given target? ⟨"ori", [t, t, n]⟩
  | branch {name : String} :
    target? = some name → Part given target? ⟨"bne", [scratch, zero, name]⟩

section Registers

variable {given : List String} {s : String}

theorem isRegisterOf_zero (given : List String) : IsRegisterOf given zero := .inr (.inl rfl)

theorem isRegisterOf_scratch (given : List String) : IsRegisterOf given scratch := .inr (.inr rfl)

/-- A register of an expansion is spelled, if the given ones are. -/
theorem IsRegisterOf.exists_isSpelled (h : IsRegisterOf given s)
    (hgiven : ∀ s ∈ given, ∃ r : Register, r.IsSpelled s) : ∃ r : Register, r.IsSpelled s := by
  rcases h with hs | rfl | rfl
  · exact hgiven s hs
  · exact ⟨.zero, zero_isSpelled⟩
  · exact ⟨.scratch, scratch_isSpelled⟩

/-- A register of an expansion that cannot be read is a given one. -/
theorem IsRegisterOf.failsOnly (h : IsRegisterOf given s) :
    FailsOnly (fun e => ∃ s ∈ given, e = .invalidOperand s) (Operand.register s) := by
  rcases h with hs | rfl | rfl
  · exact (Operand.register_failsOnly s).imp fun e he => ⟨s, hs, he⟩
  · rw [Operand.register_eq_ok_iff.mpr zero_isSpelled]
    exact failsOnly_ok _
  · rw [Operand.register_eq_ok_iff.mpr scratch_isSpelled]
    exact failsOnly_ok _

end Registers

/-- The constants of `li` are in the range of the instructions that take them. -/
theorem part_of_mem_load {given : List String} {target? : Option String} {t : String} (v : Int)
    (ht : t ∈ given) : ∀ j ∈ load t v, Part given target? j := by
  rw [load]
  by_cases hsmall : -0x8000 ≤ v ∧ v ≤ 0x7FFF
  · rw [if_pos hsmall]
    intro j hj
    rw [List.mem_singleton.mp hj]
    exact .addiu ht (number_signed (by omega) (by omega))
  · rw [if_neg hsmall]
    have hbits : (v % 0x100000000).toNat < 0x100000000 := by omega
    generalize (v % 0x100000000).toNat = bits at hbits
    intro j hj
    rcases List.mem_cons.mp hj with rfl | hj
    · exact .lui ht (number_decimal (by omega) (by omega))
    · rw [List.mem_singleton.mp hj]
      exact .ori ht (number_decimal (by omega) (by omega))

/-- Every expansion consists of parts. -/
theorem part_of_mem_expand {p : Pseudo} {operands : List String} {is : List Instruction}
    (harity : operands.length = p.arity) (h : p.expand operands = .ok is) :
    ∀ j ∈ is, Part (p.registers operands) (p.target? operands) j := by
  unfold expand at h
  -- One case for each pseudo-instruction; the operands are then known one by one.
  split at h
  case h_1 t imm =>
    obtain ⟨v, -, hload⟩ := bind_eq_ok_iff.mp h
    obtain rfl := pure_eq_ok_iff.mp hload
    exact part_of_mem_load v (List.mem_singleton.mpr rfl)
  case h_8 => cases harity
  case h_11 => cases h
  all_goals
    obtain rfl := Except.ok.inj h
    simp only [List.forall_mem_cons, List.not_mem_nil, false_imp_iff, implies_true, and_true,
      registers, target?]
  case h_2 d s =>
    have hd : IsRegisterOf [d, s] d := .inl (by simp)
    have hs : IsRegisterOf [d, s] s := .inl (by simp)
    exact .regReg .addu hd hs (isRegisterOf_zero _)
  case h_3 s t name =>
    have hs : IsRegisterOf [s, t] s := .inl (by simp)
    have ht : IsRegisterOf [s, t] t := .inl (by simp)
    exact ⟨.regReg .slt (isRegisterOf_scratch _) hs ht, .branch rfl⟩
  case h_4 s t name =>
    have hs : IsRegisterOf [s, t] s := .inl (by simp)
    have ht : IsRegisterOf [s, t] t := .inl (by simp)
    exact ⟨.regReg .slt (isRegisterOf_scratch _) ht hs, .branch rfl⟩
  case h_5 d s t =>
    have hd : IsRegisterOf [d, s, t] d := .inl (by simp)
    have hs : IsRegisterOf [d, s, t] s := .inl (by simp)
    have ht : IsRegisterOf [d, s, t] t := .inl (by simp)
    exact ⟨.regReg .addu hd hd hs, .regReg .addu hd hd ht⟩
  case h_6 s t =>
    have hs : IsRegisterOf [s, t] s := .inl (by simp)
    have ht : IsRegisterOf [s, t] t := .inl (by simp)
    exact ⟨.regReg .addu (isRegisterOf_scratch _) hs (isRegisterOf_zero _),
      .regReg .addu hs ht (isRegisterOf_zero _),
      .regReg .addu ht (isRegisterOf_scratch _) (isRegisterOf_zero _)⟩
  -- The other three take two registers to `hi` and `lo` and one of the two to the third.
  all_goals rename_i d s t
  all_goals have hd : IsRegisterOf [d, s, t] d := .inl (by simp)
  all_goals have hs : IsRegisterOf [d, s, t] s := .inl (by simp)
  all_goals have ht : IsRegisterOf [d, s, t] t := .inl (by simp)
  case h_7 => exact ⟨.mulDiv .mult hs ht, .moveFrom .mflo hd⟩
  case h_9 => exact ⟨.mulDiv .div hs ht, .moveFrom .mflo hd⟩
  case h_10 => exact ⟨.mulDiv .div hs ht, .moveFrom .mfhi hd⟩

section Parts

variable {given operands : List String} {target? : Option String} {j : Instruction}

theorem Part.expand_eq (h : Part given target? j) : j.expand = .ok [j] := by
  cases h with
  | regReg code => cases code <;> rfl
  | mulDiv code => cases code <;> rfl
  | moveFrom code => cases code <;> rfl
  | _ => rfl

theorem Part.exists_mnemonic (h : Part given target? j) :
    ∃ m, Mnemonic.ofText? j.mnemonic = some m ∧ m.arity = j.operands.length := by
  cases h with
  | regReg code => exact ⟨.regReg code, by cases code <;> rfl, rfl⟩
  | mulDiv code => exact ⟨.mulDiv code, by cases code <;> rfl, rfl⟩
  | moveFrom code => exact ⟨.moveFrom code, by cases code <;> rfl, rfl⟩
  | addiu => exact ⟨.immediate .addiu, rfl, rfl⟩
  | lui => exact ⟨.immediate .lui, rfl, rfl⟩
  | ori => exact ⟨.immediate .ori, rfl, rfl⟩
  | branch => exact ⟨.branch .bne, rfl, rfl⟩

/-- A part is refused for an operand of the source, or for where its label is. -/
theorem Part.emit_failsOnly (h : Part given target? j) (hgiven : ∀ s ∈ given, s ∈ operands)
    (htarget : ∀ name, target? = some name → name ∈ operands) {address : Nat}
    {labels : SymbolTable} (haddress : address % 4 = 0) (hlabels : labels.Aligned)
    (relocations : SymbolTable) :
    FailsOnly (Error.IsAbout operands) (j.emit address labels relocations) := by
  -- A register of a part is an operand of the source instruction, or `$zero` or `$at`, which are never
  -- refused.
  have hregister : ∀ {s}, IsRegisterOf given s →
      FailsOnly (Error.IsAbout operands) (Operand.register s) := by
    intro s hs
    refine hs.failsOnly.imp ?_
    rintro e ⟨s', hs', rfl⟩
    exact .operand (hgiven s' hs')
  -- The numbers of a part were printed by the expansion, and can be read again.
  have hnumber : ∀ {n lower upper v}, Operand.number n lower upper = .ok v →
      FailsOnly (Error.IsAbout operands) (Operand.number n lower upper) := by
    intro n lower upper v hv
    rw [hv]
    exact failsOnly_ok _
  cases h with
  | regReg code hd hs ht =>
    refine Instruction.emit_failsOnly_of_ofText? (m := .regReg code) (by cases code <;> rfl) ?_ nofun
    exact (hregister hd).bind fun _ => (hregister hs).bind fun _ => (hregister ht).bind
      fun _ => failsOnly_ok _
  | mulDiv code hs ht =>
    refine Instruction.emit_failsOnly_of_ofText? (m := .mulDiv code) (by cases code <;> rfl) ?_ nofun
    exact (hregister hs).bind fun _ => (hregister ht).bind fun _ => failsOnly_ok _
  | moveFrom code hd =>
    refine Instruction.emit_failsOnly_of_ofText? (m := .moveFrom code) (by cases code <;> rfl) ?_ nofun
    exact (hregister hd).bind fun _ => failsOnly_ok _
  | addiu ht hn =>
    refine Instruction.emit_failsOnly_of_ofText? (m := .immediate .addiu) rfl ?_ nofun
    exact (hregister (.inl ht)).bind fun _ => (hregister (isRegisterOf_zero _)).bind
      fun _ => (hnumber hn).bind fun _ => failsOnly_ok _
  | lui ht hn =>
    refine Instruction.emit_failsOnly_of_ofText? (m := .immediate .lui) rfl ?_ nofun
    exact (hregister (.inl ht)).bind fun _ => (hnumber hn).bind fun _ => failsOnly_ok _
  | ori ht hn =>
    refine Instruction.emit_failsOnly_of_ofText? (m := .immediate .ori) rfl ?_ nofun
    exact (hregister (.inl ht)).bind fun _ => (hregister (.inl ht)).bind
      fun _ => (hnumber hn).bind fun _ => failsOnly_ok _
  | @branch name hname =>
    -- Only a branch can fail behind its operands: its label may be missing or out of reach.
    have hmem := htarget name hname
    refine Instruction.emit_failsOnly_of_ofText? (m := .branch .bne) rfl ?_ nofun
    refine (hregister (isRegisterOf_scratch _)).bind fun _ => ?_
    refine (hregister (isRegisterOf_zero _)).bind fun _ => ?_
    refine ((Operand.label_failsOnly name).imp fun e he => he ▸ .operand hmem).bind_of_eq_ok ?_
    intro name' hname'
    obtain ⟨-, rfl⟩ := Operand.label_eq_ok_iff.mp hname'
    refine (failsOnly_mapError _ fun _ => .label hmem).bind_of_eq_ok ?_
    intro target hlookup
    have haligned := hlabels.lookup (branchTarget_eq_ok_iff.mp hlookup)
    refine ((branchOffset_failsOnly haddress haligned).imp fun e he => ?_).bind
      fun _ => failsOnly_ok _
    rw [he]
    exact .reach address target

/-- A part has a word if the registers are registers and the label can be reached. -/
theorem Part.exists_emit (h : Part given target? j)
    (hgiven : ∀ s ∈ given, ∃ r : Register, r.IsSpelled s) {address : Nat} {labels : SymbolTable}
    (haddress : address % 4 = 0) (hlabels : labels.Aligned)
    (htarget : ∀ name, target? = some name → Operand.isLabel name.toList ∧
      ∃ target, labels.lookup name = .ok target ∧ InReach address target)
    (relocations : SymbolTable) : ∃ e, j.emit address labels relocations = .ok e := by
  have hword : ∀ {op}, j.StandsFor address labels op →
      ∃ e, j.emit address labels relocations = .ok e := by
    rintro op ⟨w, hemit, -⟩
    exact ⟨_, hemit relocations⟩
  cases h with
  | regReg code hd hs ht =>
    obtain ⟨rd, hrd⟩ := hd.exists_isSpelled hgiven
    obtain ⟨rs, hrs⟩ := hs.exists_isSpelled hgiven
    obtain ⟨rt, hrt⟩ := ht.exists_isSpelled hgiven
    exact hword (Instruction.standsFor_regReg address labels code hrd hrs hrt)
  | mulDiv code hs ht =>
    obtain ⟨rs, hrs⟩ := hs.exists_isSpelled hgiven
    obtain ⟨rt, hrt⟩ := ht.exists_isSpelled hgiven
    exact hword (Instruction.standsFor_mulDiv address labels code hrs hrt)
  | moveFrom code hd =>
    obtain ⟨rd, hrd⟩ := hd.exists_isSpelled hgiven
    exact hword (Instruction.standsFor_moveFrom address labels code hrd)
  | addiu ht hn =>
    obtain ⟨rt, hrt⟩ := hgiven _ ht
    exact hword (Instruction.standsFor_addiu address labels hrt zero_isSpelled hn)
  | lui ht hn =>
    obtain ⟨rt, hrt⟩ := hgiven _ ht
    exact hword (Instruction.standsFor_lui address labels hrt hn)
  | ori ht hn =>
    obtain ⟨rt, hrt⟩ := hgiven _ ht
    exact hword (Instruction.standsFor_ori address labels hrt hrt hn)
  | @branch name hname =>
    -- For a branch to stand for an operation, its target must be defined and in reach.
    obtain ⟨hlabel, target, hlookup, hreach⟩ := htarget name hname
    obtain ⟨offset, hoffset⟩ := hreach.exists_offset haddress (hlabels.lookup hlookup)
    exact hword (Instruction.standsFor_branch address labels .bne scratch_isSpelled zero_isSpelled
      hlabel hlookup hoffset)

end Parts

theorem mem_of_mem_registers {p : Pseudo} {operands : List String} {s : String}
    (h : s ∈ p.registers operands) : s ∈ operands := by
  cases p with
  | li => exact List.mem_of_mem_take h
  | blt => exact List.mem_of_mem_take h
  | bgt => exact List.mem_of_mem_take h
  | _ => exact h

theorem mem_of_target? {p : Pseudo} {operands : List String} {name : String}
    (h : p.target? operands = some name) : name ∈ operands := by
  cases p with
  | blt => exact List.mem_of_getElem? h
  | bgt => exact List.mem_of_getElem? h
  | _ => cases h

theorem text_of_ofText? {s : String} {p : Pseudo} (h : ofText? s = some p) : p.text = s := by
  rw [ofText?] at h
  have hp := List.find?_some h
  simpa using hp

/-- Only `div` can be expanded with another number of operands, and it then stays as it is. -/
theorem expand_of_ne_arity {p : Pseudo} {operands : List String} {is : List Instruction}
    (harity : operands.length ≠ p.arity) (h : p.expand operands = .ok is) :
    is = [⟨p.text, operands⟩] := by
  unfold expand at h
  split at h
  case h_8 s t => exact (Except.ok.inj h).symm
  case h_11 => cases h
  all_goals exact absurd rfl harity

end Pseudo

namespace Instruction

/-- Whether `i` is the pseudo-instruction `p`; `div` with two operands is none. -/
def IsPseudo (i : Instruction) (p : Pseudo) : Prop :=
  Pseudo.ofText? i.mnemonic = some p ∧ i.operands.length = p.arity

instance (i : Instruction) (p : Pseudo) : Decidable (i.IsPseudo p) :=
  inferInstanceAs (Decidable (_ ∧ _))

theorem part_of_mem_expand {i : Instruction} {p : Pseudo} {is : List Instruction}
    (hp : i.IsPseudo p) (h : i.expand = .ok is) :
    ∀ j ∈ is, Pseudo.Part (p.registers i.operands) (p.target? i.operands) j := by
  rw [expand, hp.1] at h
  exact Pseudo.part_of_mem_expand hp.2 h

/-- An instruction is a pseudo-instruction or stays as it is. -/
theorem isPseudo_or_expand_eq {i : Instruction} {is : List Instruction} (h : i.expand = .ok is) :
    (∃ p, i.IsPseudo p) ∨ is = [i] := by
  rw [expand] at h
  split at h
  case h_1 p hp =>
    by_cases harity : i.operands.length = p.arity
    · exact .inl ⟨p, hp, harity⟩
    · rw [Pseudo.expand_of_ne_arity harity h, Pseudo.text_of_ofText? hp]
      exact .inr rfl
  case h_2 => exact .inr (Except.ok.inj h).symm

/-- What was expanded once is not expanded again. -/
theorem expand_of_mem_expand {i : Instruction} {is : List Instruction} (h : i.expand = .ok is) :
    ∀ j ∈ is, j.expand = .ok [j] := by
  intro j hj
  rcases isPseudo_or_expand_eq h with ⟨p, hp⟩ | rfl
  · exact (part_of_mem_expand hp h j hj).expand_eq
  · rw [List.mem_singleton.mp hj]
    exact h

/-- **Expansions are well formed.**  What an instruction stands for is not expanded again.  Each part of
a pseudo-instruction has a known mnemonic with the right number of operands.  Wherever it is placed, and
whatever labels are defined, it can only be refused for an operand of the source; and it has a word if
the registers of the source are registers and its label, for a branch, is defined and in reach. -/
theorem expansion_is_wellFormed (i : Instruction) (is : List Instruction) (h : i.expand = .ok is) :
    (∀ j ∈ is, j.expand = .ok [j]) ∧
    ∀ p, i.IsPseudo p → ∀ j ∈ is,
      (∃ m, Mnemonic.ofText? j.mnemonic = some m ∧ m.arity = j.operands.length) ∧
      ∀ (address : Nat) (mode : NameMode) (entries : List (String × Nat))
        (labels relocations : SymbolTable),
        address % 4 = 0 → SymbolTable.ofEntries mode entries = .ok labels →
        FailsOnly (Error.IsAbout i.operands) (j.emit address labels relocations) ∧
        ((∀ s ∈ p.registers i.operands, ∃ r : Register, r.IsSpelled s) →
          (∀ name, p.target? i.operands = some name → Operand.isLabel name.toList ∧
            ∃ target, labels.lookup name = .ok target ∧ InReach address target) →
          ∃ e, j.emit address labels relocations = .ok e) := by
  refine ⟨expand_of_mem_expand h, ?_⟩
  intro p hp j hj
  have hpart := part_of_mem_expand hp h j hj
  refine ⟨hpart.exists_mnemonic, ?_⟩
  intro address mode entries labels relocations haddress hentries
  -- All labels were inserted, so they are at word boundaries.
  have haligned := SymbolTable.aligned_of_ofEntries hentries
  constructor
  · exact hpart.emit_failsOnly (fun s => Pseudo.mem_of_mem_registers)
      (fun name => Pseudo.mem_of_target?) haddress haligned relocations
  · intro hregisters htarget
    exact hpart.exists_emit hregisters haddress haligned htarget relocations

/-- The parts of a comparison with a branch back to the start of the address space. -/
theorem expansion_is_wellFormed_bgt :
    (⟨"bgt", ["$t0", "$9", "loop"]⟩ : Instruction).expand =
      .ok [⟨"slt", ["$at", "$9", "$t0"]⟩, ⟨"bne", ["$at", "$zero", "loop"]⟩] ∧
    ∃ labels, SymbolTable.ofEntries .distinct [("loop", 0)] = .ok labels ∧
      ∀ j ∈ [(⟨"slt", ["$at", "$9", "$t0"]⟩ : Instruction), ⟨"bne", ["$at", "$zero", "loop"]⟩],
        j.expand = .ok [j] ∧ ∃ e, j.emit 0x1FFFC labels (.empty .repeating) = .ok e := by
  have hexpand : (⟨"bgt", ["$t0", "$9", "loop"]⟩ : Instruction).expand =
      .ok [⟨"slt", ["$at", "$9", "$t0"]⟩, ⟨"bne", ["$at", "$zero", "loop"]⟩] := rfl
  have hlabels : SymbolTable.ofEntries .distinct [("loop", 0)] =
      .ok ⟨.distinct, #[⟨"loop", 0⟩]⟩ := by
    cbv
  obtain ⟨honce, hparts⟩ := expansion_is_wellFormed _ _ hexpand
  refine ⟨hexpand, _, hlabels, fun j hj => ⟨honce j hj, ?_⟩⟩
  refine ((hparts .bgt (by decide) j hj).2 0x1FFFC _ _ _ _ rfl hlabels).2 ?_ ?_
  · intro s hs
    rcases List.mem_cons.mp hs with rfl | hs
    · exact ⟨⟨8⟩, .inl (by decide)⟩
    · rw [List.mem_singleton.mp hs]
      exact ⟨⟨9⟩, .inr (by decide)⟩
  · rintro name ⟨⟩
    exact ⟨by decide, 0, rfl, by decide⟩

end Instruction

end MipsAssembler
