/-
The errors that a program can be rejected with.

Some errors are there for the sake of a table or a word that is used on its own.  A program never sees
them: it starts at a word boundary and is laid out in words, so all of its addresses are multiples of 4,
and what an instruction makes of its operands always fits its word.

* `Line.Fault`, `Placed.Fault` — what can be wrong with a line, and with a placed instruction;
* `Layout.piece_failsOnly_fault`, `Placed.emit_failsOnly_fault` — each is refused for its own faults;
* `Instruction.emit_blames_source` — the operand that is blamed was written in the source;
* `Program.only_possible_errors` — the errors of a rejected program, stage by stage.

Design notes: the texts for a shift amount or a jump target that is too wide hold blanks, and no operand
of a line does.  So these texts cannot be found in a report, not even as the name of an operand.
-/
import MipsAssembler.Proofs.ExpansionForm
import MipsAssembler.Proofs.Provenance
import MipsAssembler.Proofs.RefusedLines

namespace MipsAssembler

/-! ### Lines -/

/-- What can be wrong with a line that is laid out. -/
inductive Line.Fault (line : Line) : Error → Prop
  | arity {i : Instruction} (expected : Nat) :
    line.instruction = some i → Fault line (.invalidArity i.mnemonic expected i.operands.length)
  | operand {i : Instruction} {s : String} :
    line.instruction = some i → s ∈ i.operands → Fault line (.invalidOperand s)
  | label {name : String} : line.label = some name → Fault line (.duplicateName name)
  | space : Fault line (.addressOverflow 0xFFFFFFFC)

theorem Line.expand_failsOnly_fault (line : Line) : FailsOnly line.Fault line.expand := by
  rw [expand]
  split
  case h_1 i hi =>
    rw [Instruction.expand]
    split
    case h_1 p hp =>
      refine Pseudo.expand_failsOnly ?_ fun s hs => .operand hi hs
      rw [Pseudo.text_of_ofText? hp]
      exact .arity p.arity hi
    case h_2 => exact failsOnly_ok _
  case h_2 => exact failsOnly_ok _

/-- A line behind a whole number of words is refused for its own faults. -/
theorem Layout.piece_failsOnly_fault {l : Layout} (haligned : l.next % 4 = 0) (line : Line) :
    FailsOnly line.Fault (l.piece line) := by
  refine piece_failsOnly line.expand_failsOnly_fault .space fun name hname => ?_
  exact SymbolTable.entryFor_failsOnly (fun hmisaligned => absurd haligned hmisaligned)
    fun _ => .label hname

/-! ### Instructions -/

/-- What can be wrong with a placed instruction. -/
inductive Placed.Fault (p : Placed) : Error → Prop
  | unknown : Fault p (.unknownInstruction p.instruction.mnemonic)
  | arity {expected : Nat} : p.instruction.operands.length ≠ expected →
    Fault p (.invalidArity p.instruction.mnemonic expected p.instruction.operands.length)
  | operand {s : String} : s ∈ p.instruction.operands → Fault p (.invalidOperand s)
  | label {name : String} : name ∈ p.instruction.operands → Fault p (.unresolvedLabel name)
  | reach (target : Nat) : Fault p (.unreachableBranch p.address target)

/-- An instruction at a word boundary is refused for its own faults. -/
theorem Placed.emit_failsOnly_fault {p : Placed} {labels : SymbolTable}
    (haddress : p.address % 4 = 0) (hlabels : labels.Aligned) :
    FailsOnly p.Fault (p.emit labels) := by
  refine Instruction.emit_failsOnly (fun _ => .unknown) ?_ ?_
  · intro m hm
    refine Mnemonic.resolve_failsOnly ?_ (fun s hs => .operand hs) (fun name hname => .label hname) ?_
    · intro hcount
      rw [Mnemonic.text_of_ofText? hm]
      exact .arity hcount
    · intro name target htarget
      refine (branchOffset_failsOnly haddress (hlabels.lookup htarget)).imp fun e he => ?_
      rw [he]
      exact .reach target
  · intro name
    exact SymbolTable.entryFor_failsOnly (fun hmisaligned => absurd haddress hmisaligned) nofun

/-- What an instruction of an expansion blames is an operand of the source, even if the expansion has
others. -/
theorem Instruction.emit_blames_source {i j : Instruction} {is : List Instruction}
    (hexpand : i.expand = .ok is) (hj : j ∈ is) {address : Nat} {labels : SymbolTable}
    (haddress : address % 4 = 0) (hlabels : labels.Aligned) {s : String}
    (h : (⟨j, address, 0⟩ : Placed).emit labels = .error (.invalidOperand s)) : s ∈ i.operands := by
  rcases isPseudo_or_expand_eq hexpand with ⟨p, hp⟩ | rfl
  · have habout := (part_of_mem_expand hp hexpand j hj).emit_failsOnly
      (fun s => Pseudo.mem_of_mem_registers) (fun name => Pseudo.mem_of_target?) haddress hlabels
      (.empty .repeating) _ h
    cases habout with
    | operand hs => exact hs
  · obtain rfl := List.mem_singleton.mp hj
    have hfault := Placed.emit_failsOnly_fault (p := ⟨j, address, 0⟩) haddress hlabels _ h
    cases hfault with
    | operand hs => exact hs

/-! ### Operands hold no blanks -/

theorem Instruction.mem_of_ofWords? {ws : List String} {i : Instruction} {s : String}
    (h : ofWords? ws = some i) (hs : s ∈ i.operands) : s ∈ ws := by
  cases ws with
  | nil => cases h
  | cons mnemonic operands =>
    obtain rfl := Option.some_inj.mp h
    exact List.mem_cons_of_mem _ hs

namespace Line

variable {text : String} {lineNo : Nat} {line : Line}

/-- The instruction of a line that was read is spelled by words of the text. -/
theorem instruction_of_parse (h : parse text lineNo = .ok (some line)) :
    ∃ cs, line.instruction = Instruction.ofWords? (words cs) := by
  rw [parse] at h
  split at h
  case h_1 run rest _ =>
    obtain ⟨label, -, hline⟩ := bind_eq_ok_iff.mp h
    obtain rfl := Option.some_inj.mp (pure_eq_ok_iff.mp hline)
    exact ⟨rest, rfl⟩
  case h_2 =>
    obtain ⟨i, hi, rfl⟩ := Option.map_eq_some_iff.mp (pure_eq_ok_iff.mp h)
    exact ⟨_, hi.symm⟩

theorem space_not_mem_operand (h : parse text lineNo = .ok (some line)) {i : Instruction}
    {s : String} (hi : line.instruction = some i) (hs : s ∈ i.operands) : ' ' ∉ s.toList := by
  obtain ⟨cs, hcs⟩ := instruction_of_parse h
  have hword := Instruction.mem_of_ofWords? (hcs.symm.trans hi) hs
  intro hspace
  exact absurd (not_isSeparator_of_mem_words hword ' ' hspace) (by decide)

/-- A line that cannot be read has a run in front of a colon which is no label. -/
theorem parse_failsOnly (text : String) (lineNo : Nat) :
    FailsOnly (fun e => ∃ s, e = .invalidOperand s ∧ ' ' ∉ s.toList) (parse text lineNo) := by
  rw [parse]
  split
  case h_1 run rest hsplit =>
    refine ((Operand.label_failsOnly (String.ofList run)).imp ?_).bind fun _ => failsOnly_ok _
    rintro e rfl
    refine ⟨_, rfl, ?_⟩
    rw [String.toList_ofList]
    intro hspace
    exact absurd ((splitLabel?_eq_some_iff.mp hsplit).2.1 ' ' hspace) (by decide)
  case h_2 => exact failsOnly_ok _

end Line

/-! ### Programs -/

theorem EncodeError.space_mem_message (e : EncodeError) : ' ' ∈ e.message.toList := by
  cases e with
  | shiftOutOfRange shamt =>
    show ' ' ∈ ("shift amount " ++ Numeral.decimal shamt ++ " does not fit in 5 bits").toList
    rw [String.toList_append]
    exact List.mem_append_right _ (by decide)
  | targetOutOfRange target =>
    show ' ' ∈ ("jump target 0x" ++ Numeral.hex target ++ " does not fit in 26 bits").toList
    rw [String.toList_append]
    exact List.mem_append_right _ (by decide)

/-- Whether a program can be blamed for an error: the error is not fatal, is not about an address or an
entry that the assembler itself came up with, and is not the text for a field that is too narrow. -/
structure Error.Possible (e : Error) : Prop where
  mild : e.isFatal = false
  allocated : e ≠ .allocationFailure
  aligned : ∀ address, e ≠ .misalignedAddress address
  found : ∀ name, e ≠ .notFound name
  encoded : ∀ e', e ≠ .ofEncode e'

theorem Error.possible_invalidOperand {s : String} (h : ' ' ∉ s.toList) :
    (invalidOperand s).Possible where
  mild := rfl
  allocated := nofun
  aligned := nofun
  found := nofun
  encoded := by
    rintro e' he
    rw [Error.invalidOperand.inj he] at h
    exact h e'.space_mem_message

/-- The faults of a line are possible if its operands hold no blanks. -/
theorem Line.Fault.possible {line : Line} {e : Error} (h : line.Fault e)
    (hoperand : ∀ s, e = .invalidOperand s → ' ' ∉ s.toList) : e.Possible := by
  cases h with
  | operand => exact Error.possible_invalidOperand (hoperand _ rfl)
  | _ => exact ⟨rfl, nofun, nofun, nofun, nofun⟩

theorem Placed.Fault.possible {p : Placed} {e : Error} (h : p.Fault e)
    (hoperand : ∀ s, e = .invalidOperand s → ' ' ∉ s.toList) : e.Possible := by
  cases h with
  | operand => exact Error.possible_invalidOperand (hoperand _ rfl)
  | _ => exact ⟨rfl, nofun, nofun, nofun, nofun⟩

namespace Program

variable {text : String} {options : Options} {lines : List Line} {layout : Layout}
  {failures : List Failure}

theorem fault_of_ofLines (hparse : Source.parse text = .ok lines)
    (h : (Layout.ofLines lines options).run.value = .error failures) :
    ∀ f ∈ failures, (∃ line, lines[f.index]? = some line ∧ line.Fault f.error) ∧
      f.error.Possible := by
  intro f hf
  obtain ⟨hsublist, -⟩ := Pass.sublist_of_value_run_eq_error Layout.neverFatal_pass h
  obtain ⟨before, line, after, e, rfl, hpiece, rfl⟩ :=
    Pass.exists_of_mem_refusals (hsublist.subset hf)
  rw [Layout.look_pass] at hpiece
  -- The lines above have left a whole number of words behind.
  have hnext := (Layout.inStep_foldl_advance before options).next_eq
  have haligned := options.aligned
  have hfault : line.Fault e := Layout.piece_failsOnly_fault (by omega) line e hpiece
  refine ⟨⟨line, by simp, hfault⟩, hfault.possible ?_⟩
  rintro s rfl
  -- What the line blames is one of its own words, and these have no spaces.
  have hmem : line ∈ before ++ line :: after := List.mem_append_right _ List.mem_cons_self
  obtain ⟨k, _, -, -, hread⟩ := Source.exists_of_mem_parse hparse hmem
  cases hfault with
  | operand hi hs => exact Line.space_not_mem_operand hread hi hs

theorem fault_of_ofPlaced (hparse : Source.parse text = .ok lines)
    (hlayout : (Layout.ofLines lines options).run.value = .ok layout)
    (h : (Assembly.ofPlaced layout.instructions.toList layout.labels options).run.value =
      .error failures) :
    ∀ f ∈ failures, (∃ p, layout.instructions[f.index]? = some p ∧ p.Fault f.error) ∧
      f.error.Possible := by
  intro f hf
  obtain ⟨p, hp, -, hemit, hstands⟩ :=
    (fromInstructions_of_ofPlaced hparse hlayout h).2.instruction f hf
  obtain ⟨hadmissible, rfl⟩ := Layout.ofLines_eq_ok_iff.mp hlayout
  have haligned := options.aligned
  -- Labels and instructions of a layout are at word boundaries.
  have hlabels : (Layout.closedForm options.base.toNat lines).labels.Aligned := by
    -- An operand that is blamed was written in the source, and a word of the source has no spaces.
    intro s hs
    exact ((Layout.inStep_closedForm haligned hadmissible).labels s hs).1
  have haddress : p.address % 4 = 0 := by
    rw [← Array.getElem?_toList] at hp
    rw [Layout.address_of_getElem?_placements hp]
    omega
  have hfault : p.Fault f.error := Placed.emit_failsOnly_fault haddress hlabels _ hemit
  refine ⟨⟨p, hp, hfault⟩, hfault.possible ?_⟩
  intro s hs
  obtain ⟨k, _, line, source, is, -, -, hread, hsource, hexpand, hmem⟩ := hstands
  rw [hs] at hemit
  exact Line.space_not_mem_operand hread hsource
    (Instruction.emit_blames_source hexpand hmem haddress hlabels hemit)

/-- **Only possible errors are reported.**  Reading a program refuses labels and nothing else.  Its layout
refuses lines for their operands, for their label, or for the end of the address space, and its
assembly refuses instructions for their mnemonic, for their operands, or for where their label is.  No
failure is fatal, and none is about alignment, about an entry that is missing, or about a field that is
too narrow. -/
theorem only_possible_errors (text : String) (options : Options) (r : Rejection)
    (h : (assemble text options).run.value = .error r) :
    (r.stage = .reading → ∀ f ∈ r.failures, ∃ s, f.error = .invalidOperand s) ∧
    (r.stage = .layout → ∃ lines, Source.parse text = .ok lines ∧
      ∀ f ∈ r.failures, ∃ line, lines[f.index]? = some line ∧ line.Fault f.error) ∧
    (r.stage = .encoding → ∃ layout, (layOut text options).run.value = .ok layout ∧
      ∀ f ∈ r.failures, ∃ p, layout.instructions[f.index]? = some p ∧ p.Fault f.error) ∧
    ∀ f ∈ r.failures, f.error.Possible := by
  rcases assemble_eq_error_iff.mp h with hlayOut | ⟨layout, failures, hlayOut, hencode, rfl⟩
  · rcases layOut_eq_error_iff.mp hlayOut with
      ⟨lineNo, e, hparse, rfl⟩ | ⟨lines, failures, hparse, hlayout, rfl⟩
    · obtain ⟨k, -, ⟨line, -, hline⟩, -⟩ := Source.first_failsAt_of_parse hparse
      -- A line that cannot be read is blamed for its label, the only word it could be refused for.
      obtain ⟨s, rfl, hspace⟩ := Line.parse_failsOnly line (k + 1) e hline
      refine ⟨fun _ f hf => ⟨s, ?_⟩, nofun, nofun, fun f hf => ?_⟩
      · rw [List.mem_singleton.mp hf]
      · rw [List.mem_singleton.mp hf]
        exact Error.possible_invalidOperand hspace
    · have hfaults := fault_of_ofLines hparse hlayout
      exact ⟨nofun, fun _ => ⟨lines, hparse, fun f hf => (hfaults f hf).1⟩, nofun,
        fun f hf => (hfaults f hf).2⟩
  · obtain ⟨lines, hparse, hlayout⟩ := layOut_eq_ok_iff.mp hlayOut
    have hfaults := fault_of_ofPlaced hparse hlayout hencode
    exact ⟨nofun, nofun, fun _ => ⟨layout, hlayOut, fun f hf => (hfaults f hf).1⟩,
      fun f hf => (hfaults f hf).2⟩

/-- A shift by 32 bits is refused with its operand, and not because its field has only five bits. -/
theorem only_possible_errors_of_wide_shift :
    let text := "sll $1, $2, 32\nbeq $0, $1, y"
    let options : Options := { base := 0xFFFFFFF0#32, keepGoing := true }
    let r : Rejection := ⟨.encoding, [⟨0, 1, .invalidOperand "32"⟩, ⟨1, 2, .unresolvedLabel "y"⟩]⟩
    (assemble text options).run.value = .error r ∧
    (∃ layout, (layOut text options).run.value = .ok layout ∧
      ∀ f ∈ r.failures, ∃ p, layout.instructions[f.index]? = some p ∧ p.Fault f.error) ∧
    ∀ f ∈ r.failures, f.error.Possible := by
  intro text options r
  have hparse : Source.parse text = .ok [⟨1, none, some ⟨"sll", ["$1", "$2", "32"]⟩⟩,
      ⟨2, none, some ⟨"beq", ["$0", "$1", "y"]⟩⟩] := by
    cbv
  have hlayOut : (layOut text options).run.value = .ok ⟨0xFFFFFFF8,
      #[⟨⟨"sll", ["$1", "$2", "32"]⟩, 0xFFFFFFF0, 1⟩, ⟨⟨"beq", ["$0", "$1", "y"]⟩, 0xFFFFFFF4, 2⟩],
      #[1, 1], .empty .distinct⟩ :=
    layOut_eq_ok_iff.mpr ⟨_, hparse, by cbv⟩
  have hr : (assemble text options).run.value = .error r :=
    assemble_eq_error_iff.mpr (.inr ⟨_, _, hlayOut, rfl, rfl⟩)
  obtain ⟨-, -, hencoding, hpossible⟩ := only_possible_errors text options r hr
  exact ⟨hr, hencoding rfl, hpossible⟩

end Program

end MipsAssembler
