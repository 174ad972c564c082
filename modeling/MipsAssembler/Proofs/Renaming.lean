/-
Programs with other names for their labels.

A label is looked up, entered and printed, but nothing is ever read off its characters once it is known
to be a label.  So a program in which every label is renamed has the same words:

* `Renaming` — a new name for every text, such that no two labels are confused and labels stay labels;
* `Instruction.rename` — the same instruction with another label, where it has one;
* `Instruction.expand_rename` — expansions take the label along;
* `Mnemonic.resolve_rename` — an operation is the same if its label and the table are renamed alike;
* `Instruction.emit_eq_ok_iff` — the word of an instruction and its site, each by itself;
* `Program.label_names_do_not_matter` — the assembly of renamed lines is the renamed assembly.

Design notes: a renaming acts on texts and not on labels alone, since an operand in the place of a label
may be anything.  Errors quote operands, so a renamed program is refused with other words, and what is
said here about programs that fail is only that they do.
-/
import Mathlib
import MipsAssembler.Proofs.ExpansionForm
import MipsAssembler.Proofs.Relocations

namespace MipsAssembler

/-- New names for labels. -/
structure Renaming where
  map : String → String
  injective : Function.Injective map
  isLabel_map : ∀ s, Operand.isLabel (map s).toList = Operand.isLabel s.toList

instance : CoeFun Renaming fun _ => String → String := ⟨Renaming.map⟩

/-- The renaming that exchanges two labels. -/
def Renaming.swap (a b : String) (ha : Operand.isLabel a.toList) (hb : Operand.isLabel b.toList) :
    Renaming where
  map := Equiv.swap a b
  injective := (Equiv.swap a b).injective
  isLabel_map s := by
    rw [Equiv.swap_apply_def]
    split
    case isTrue h => rw [h, ha, hb]
    case isFalse =>
      split
      case isTrue h => rw [h, ha, hb]
      case isFalse => rfl

/-! ### What is renamed -/

namespace Instruction

/-- Which operand of an instruction is a label. -/
def labelIndex? (mnemonic : String) : Option Nat :=
  [("beq", 2), ("bne", 2), ("blt", 2), ("bgt", 2), ("j", 0), ("jal", 0)].lookup mnemonic

/-- The operands with another label; operands that are not there are not renamed either. -/
def renameOperands (r : Renaming) (mnemonic : String) (operands : List String) : List String :=
  match labelIndex? mnemonic with
  | some k => operands.modify k r
  | none => operands

/-- An instruction with another label. -/
def rename (r : Renaming) (i : Instruction) : Instruction :=
  { i with operands := renameOperands r i.mnemonic i.operands }

end Instruction

/-- A line with other labels. -/
def Line.rename (r : Renaming) (line : Line) : Line :=
  { line with label := line.label.map r, instruction := line.instruction.map (.rename r) }

def Placed.rename (r : Renaming) (p : Placed) : Placed :=
  { p with instruction := p.instruction.rename r }

/-- A symbol with another name. -/
def Symbol.rename (r : Renaming) (s : Symbol) : Symbol := { s with name := r s.name }

/-- A table with other names at the same addresses. -/
def SymbolTable.rename (r : Renaming) (t : SymbolTable) : SymbolTable :=
  { t with symbols := t.symbols.map (Symbol.rename r) }

def Emission.rename (r : Renaming) (e : Emission) : Emission :=
  { e with relocation := e.relocation.map (Symbol.rename r) }

/-- An assembly with the same words and other names in its tables. -/
def Assembly.rename (r : Renaming) (a : Assembly) : Assembly :=
  { a with labels := a.labels.rename r, relocations := a.relocations.rename r }

variable (r : Renaming)

theorem SymbolTable.lookup_rename {t : SymbolTable} {name : String} {address : Nat} :
    (t.rename r).lookup (r name) = .ok address ↔ t.lookup name = .ok address := by
  have hname : ((fun s : Symbol => s.name == r name) ∘ Symbol.rename r) = fun s => s.name == name := by
    funext s
    show (r s.name == r name) = (s.name == name)
    rw [Bool.eq_iff_iff, beq_iff_eq, beq_iff_eq]
    exact r.injective.eq_iff
  rw [lookup, lookup, rename, Array.find?_map, hname]
  cases t.symbols.find? (·.name == name) <;> simp [Symbol.rename]

theorem Instruction.rename_of_labelIndex?_eq_none {i : Instruction}
    (h : labelIndex? i.mnemonic = none) : i.rename r = i := by
  rw [rename, renameOperands, h]

/-! ### Expansions -/

namespace Pseudo

variable {p : Pseudo} {operands : List String}

/-- The parts of an expansion without a target have no label. -/
theorem Part.labelIndex?_eq_none {given : List String} {j : Instruction} (h : Part given none j) :
    Instruction.labelIndex? j.mnemonic = none := by
  cases h with
  | regReg code => cases code <;> rfl
  | mulDiv code => cases code <;> rfl
  | moveFrom code => cases code <;> rfl
  | branch hname => cases hname
  | _ => rfl

/-- An expansion without a label is the same under other names. -/
theorem map_rename_expand (h : Instruction.labelIndex? p.text = none) :
    (p.expand operands).map (List.map (Instruction.rename r)) = p.expand operands := by
  cases hexpand : p.expand operands with
  | error e => rfl
  | ok is =>
    have hkept : ∀ j ∈ is, Instruction.labelIndex? j.mnemonic = none := by
      intro j hj
      -- With the right number of operands the expansion is made of parts, and a part holds a label only
      -- if there is a target. Otherwise the instruction stands for itself.
      by_cases harity : operands.length = p.arity
      · have hpart := part_of_mem_expand harity hexpand j hj
        have htarget : p.target? operands = none := by
          cases p with
          | blt => cases h
          | bgt => cases h
          | _ => rfl
        rw [htarget] at hpart
        exact hpart.labelIndex?_eq_none
      · rw [expand_of_ne_arity harity hexpand] at hj
        rw [List.mem_singleton.mp hj]
        exact h
    have hrename : is.map (Instruction.rename r) = is.map id :=
      List.map_congr_left fun j hj => Instruction.rename_of_labelIndex?_eq_none r (hkept j hj)
    show Except.ok (is.map (Instruction.rename r)) = .ok is
    rw [hrename, List.map_id]

/-- A branch hands its label on, and the other pseudo-instructions have none. -/
theorem expand_rename (p : Pseudo) (operands : List String) :
    p.expand (Instruction.renameOperands r p.text operands) =
      (p.expand operands).map (List.map (Instruction.rename r)) := by
  cases p with
  | blt | bgt =>
    match operands with
    | [] => rfl
    | [_] => rfl
    | [_, _] => rfl
    | [_, _, _] => rfl
    | _ :: _ :: _ :: _ :: _ => rfl
  | _ => exact (map_rename_expand r rfl).symm

end Pseudo

theorem Instruction.expand_rename (i : Instruction) :
    (i.rename r).expand = i.expand.map (List.map (Instruction.rename r)) := by
  have hmnemonic : (i.rename r).mnemonic = i.mnemonic := rfl
  rw [expand, expand, hmnemonic]
  cases hp : Pseudo.ofText? i.mnemonic with
  | none => rfl
  | some p =>
    show p.expand (renameOperands r i.mnemonic i.operands) = _
    rw [← Pseudo.text_of_ofText? hp]
    exact p.expand_rename r i.operands

/-! ### Words -/

namespace Mnemonic

variable {m : Mnemonic} {operands : List String} {address : Nat} {labels : SymbolTable} {op : Op}

/-- Only branches look at the labels. -/
theorem resolve_congr (hbranch : ∀ code, m ≠ .branch code) (labels' : SymbolTable) :
    m.resolve operands address labels = m.resolve operands address labels' := by
  unfold resolve
  split
  case h_10 code _ _ _ => exact absurd rfl (hbranch code)
  all_goals rfl

theorem resolve_branch_rename {code : BranchCode} :
    (branch code).resolve (operands.modify 2 r) address (labels.rename r) = .ok op ↔
      (branch code).resolve operands address labels = .ok op := by
  match operands with
  | [s, t, name] =>
    show (branch code).resolve [s, t, r name] address (labels.rename r) = .ok op ↔ _
    simp only [resolve, bind_eq_ok_iff, Operand.label_eq_ok_iff, branchTarget_eq_ok_iff,
      r.isLabel_map, and_assoc, exists_and_left, exists_eq_left', SymbolTable.lookup_rename]
  | [] => rfl
  | [_] => rfl
  | [_, _] => rfl
  | _ :: _ :: _ :: _ :: _ => simp [resolve]

theorem resolve_jump_rename {code : JumpCode} :
    (jump code).resolve (operands.modify 0 r) address (labels.rename r) = .ok op ↔
      (jump code).resolve operands address labels = .ok op := by
  match operands with
  | [name] =>
    show (jump code).resolve [r name] address (labels.rename r) = .ok op ↔ _
    simp only [resolve, bind_eq_ok_iff, Operand.label_eq_ok_iff, r.isLabel_map, and_assoc,
      exists_and_left, exists_eq_left']
  | [] => rfl
  | _ :: _ :: _ => simp [resolve]

theorem resolve_rename_of_ne (hbranch : ∀ code, m ≠ .branch code)
    (hjump : ∀ code, m ≠ .jump code) :
    m.resolve (Instruction.renameOperands r m.text operands) address (labels.rename r) = .ok op ↔
      m.resolve operands address labels = .ok op := by
  have hindex : Instruction.labelIndex? m.text = none := by
    cases m with
    | branch code => exact absurd rfl (hbranch code)
    | jump code => exact absurd rfl (hjump code)
    | _ code => cases code <;> rfl
  rw [Instruction.renameOperands, hindex, resolve_congr hbranch labels]

/-- A mnemonic makes the same operation of its operands if label and table are renamed alike. -/
theorem resolve_rename :
    m.resolve (Instruction.renameOperands r m.text operands) address (labels.rename r) = .ok op ↔
      m.resolve operands address labels = .ok op := by
  cases m with
  | branch code => cases code <;> exact resolve_branch_rename r
  | jump code => cases code <;> exact resolve_jump_rename r
  | _ => exact resolve_rename_of_ne r nofun nofun

end Mnemonic

namespace Instruction

variable {i : Instruction} {address : Nat} {labels relocations : SymbolTable} {e : Emission}

theorem aligned_of_emit_jump (hjump : i.IsJump) (h : i.emit address labels relocations = .ok e) :
    address % 4 = 0 := by
  obtain ⟨code, hcode⟩ := isJump_iff.mp hjump
  rw [emit_jump hcode] at h
  split at h
  case h_1 =>
    simp only [bind_eq_ok_iff, SymbolTable.entryFor_eq_ok_iff] at h
    obtain ⟨_, -, _, ⟨haligned, -⟩, -⟩ := h
    exact haligned
  case h_2 => cases h

theorem emit_of_resolve_jump {m : Mnemonic} {op : Op} {word : Word}
    (hmode : relocations.mode = .repeating) (hjump : i.IsJump)
    (hm : Mnemonic.ofText? i.mnemonic = some m) (hop : m.resolve i.operands address labels = .ok op)
    (hword : op.encode = .ok word) (haligned : address % 4 = 0) :
    i.emit address labels relocations = .ok ⟨word, i.site? address⟩ := by
  obtain ⟨code, hcode⟩ := isJump_iff.mp hjump
  obtain rfl := Option.some_inj.mp (hm.symm.trans hcode)
  obtain ⟨hkind, hspelled⟩ := Mnemonic.isSpelled_of_resolve hop
  obtain ⟨mnemonic, operands⟩ := i
  obtain rfl : (Mnemonic.jump code).text = mnemonic := Mnemonic.text_of_ofText? hm
  rw [site?, if_pos hjump]
  -- The operation of a jump is a jump, and all of them are encoded alike.
  cases hspelled with
  | jump hname =>
    obtain rfl := Mnemonic.jump.inj hkind
    obtain rfl := Except.ok.inj (hword.symm.trans (mapError_eq_ok_iff.mp (encode_jump _)))
    exact emit_jump_label hname haligned hmode
  | _ => cases hkind

/-- What an instruction gives: the word of the operation that its mnemonic makes of its operands, and
the site that its text says. -/
theorem emit_eq_ok_iff (hmode : relocations.mode = .repeating) :
    i.emit address labels relocations = .ok e ↔
      (∃ m op, Mnemonic.ofText? i.mnemonic = some m ∧
        m.resolve i.operands address labels = .ok op ∧ op.encode = .ok e.word) ∧
      e.relocation = i.site? address ∧ (i.IsJump → address % 4 = 0) := by
  constructor
  · intro h
    exact ⟨exists_of_emit h, relocation_of_emit h, fun hjump => aligned_of_emit_jump hjump h⟩
  · rintro ⟨⟨m, op, hm, hop, hword⟩, hsite, haligned⟩
    obtain ⟨word, relocation⟩ := e
    obtain rfl : relocation = _ := hsite
    -- Only a jump asks for a site, and only for that it has to be at a word boundary.
    by_cases hjump : i.IsJump
    · exact emit_of_resolve_jump hmode hjump hm hop hword (haligned hjump)
    · have hother : ∀ code, m ≠ .jump code := by
        rintro code rfl
        exact hjump (isJump_iff.mpr ⟨code, hm⟩)
      rw [(standsFor_of_resolve hm hother hop).emit_of_encode hword, site?, if_neg hjump]

theorem isJump_rename : (i.rename r).IsJump ↔ i.IsJump := Iff.rfl

theorem site?_rename : (i.rename r).site? address = (i.site? address).map (Symbol.rename r) := by
  by_cases hjump : i.IsJump
  · have hindex : labelIndex? i.mnemonic = some 0 := by
      rcases hjump with h | h <;> rw [h] <;> rfl
    rw [site?, site?, if_pos ((isJump_rename r).mpr hjump), if_pos hjump, rename, renameOperands,
      hindex]
    cases i.operands <;> rfl
  · rw [site?, site?, if_neg hjump, if_neg ((isJump_rename r).not.mpr hjump)]
    rfl

theorem emit_rename {e' : Emission} (hmode : relocations.mode = .repeating) :
    (i.rename r).emit address (labels.rename r) relocations = .ok e' ↔
      ∃ e, i.emit address labels relocations = .ok e ∧ e' = e.rename r := by
  -- Whether there is a word, and which, is up to the resolved operation, which holds no names.
  have hword : ∀ w, (∃ m op, Mnemonic.ofText? (i.rename r).mnemonic = some m ∧
        m.resolve (i.rename r).operands address (labels.rename r) = .ok op ∧ op.encode = .ok w) ↔
      ∃ m op, Mnemonic.ofText? i.mnemonic = some m ∧
        m.resolve i.operands address labels = .ok op ∧ op.encode = .ok w := by
    intro w
    refine exists_congr fun m => exists_congr fun op => and_congr_right fun hm => ?_
    have htext : m.text = i.mnemonic := Mnemonic.text_of_ofText? hm
    show m.resolve (renameOperands r i.mnemonic i.operands) _ _ = _ ∧ _ ↔ _
    rw [← htext, Mnemonic.resolve_rename]
  simp only [emit_eq_ok_iff hmode, hword, site?_rename, isJump_rename]
  constructor
  · rintro ⟨hw, hsite, haligned⟩
    exact ⟨⟨e'.word, i.site? address⟩, ⟨hw, rfl, haligned⟩, by rw [Emission.rename, ← hsite]⟩
  · rintro ⟨e, ⟨hw, hsite, haligned⟩, rfl⟩
    exact ⟨hw, by rw [Emission.rename, hsite], haligned⟩

end Instruction

/-! ### Programs -/

section Assembly

variable {labels : SymbolTable} {placed : List Placed}

theorem Placed.emit_rename {p : Placed} {e' : Emission} :
    (p.rename r).emit (labels.rename r) = .ok e' ↔
      ∃ e, p.emit labels = .ok e ∧ e' = e.rename r :=
  Instruction.emit_rename r rfl

theorem Placed.emission_rename {p : Placed} (h : ∃ e, p.emit labels = .ok e) :
    (p.rename r).emission (labels.rename r) = (p.emission labels).rename r := by
  obtain ⟨e, he⟩ := h
  rw [emission_of_emit he, emission_of_emit ((emit_rename r).mpr ⟨e, he, rfl⟩)]

theorem Assembly.admissible_rename :
    Admissible (labels.rename r) (placed.map (Placed.rename r)) ↔ Admissible labels placed := by
  simp only [Admissible, List.forall_mem_map, Placed.emit_rename]
  refine forall₂_congr fun p hp => ?_
  constructor
  · rintro ⟨_, e, he, -⟩
    exact ⟨e, he⟩
  · rintro ⟨e, he⟩
    exact ⟨_, e, he, rfl⟩

theorem Assembly.closedForm_rename (h : Admissible labels placed) :
    closedForm (labels.rename r) (placed.map (Placed.rename r)) =
      (closedForm labels placed).rename r := by
  -- Every instruction has its emission, which is renamed with it; words hold no names, and sites do.
  have hemission : ∀ p ∈ placed,
      (p.rename r).emission (labels.rename r) = (p.emission labels).rename r :=
    fun p hp => Placed.emission_rename r (h p hp)
  have hwords : (placed.map (Placed.rename r)).map (fun p => (p.emission (labels.rename r)).word) =
      placed.map fun p => (p.emission labels).word := by
    rw [List.map_map]
    refine List.map_congr_left fun p hp => ?_
    show ((p.rename r).emission (labels.rename r)).word = _
    rw [hemission p hp]
    rfl
  have hsites : (placed.map (Placed.rename r)).filterMap
        (fun p => (p.emission (labels.rename r)).relocation) =
      (placed.filterMap fun p => (p.emission labels).relocation).map (Symbol.rename r) := by
    rw [List.filterMap_map, List.map_filterMap]
    refine List.filterMap_congr fun p hp => ?_
    show ((p.rename r).emission (labels.rename r)).relocation = _
    rw [hemission p hp]
    rfl
  -- The rest of an assembly is made of these two lists.
  rw [closedForm, hwords, hsites]
  simp only [closedForm, rename, SymbolTable.rename, List.map_toArray]

end Assembly

namespace Line

theorem expand_rename (line : Line) :
    (line.rename r).expand = line.expand.map (List.map (Instruction.rename r)) := by
  rw [expand, expand, rename]
  cases line.instruction with
  | none => rfl
  | some i => exact i.expand_rename r

theorem expansion_rename (line : Line) :
    (line.rename r).expansion = line.expansion.map (Instruction.rename r) := by
  rw [expansion, expansion, expand_rename]
  cases line.expand <;> rfl

theorem wordCount_rename (line : Line) : (line.rename r).wordCount = line.wordCount := by
  rw [wordCount, expansion_rename, List.length_map]
  rfl

theorem totalWords_rename (lines : List Line) :
    totalWords (lines.map (rename r)) = totalWords lines := by
  rw [totalWords, List.map_map]
  exact congrArg List.sum (List.map_congr_left fun line _ => line.wordCount_rename r)

end Line

namespace Layout

variable {base : Nat} {lines : List Line}

theorem placements_rename :
    placements base (lines.map (Line.rename r)) = (placements base lines).map (Placed.rename r) := by
  induction lines generalizing base with
  | nil => rfl
  | cons line lines ih =>
    rw [List.map_cons, placements_cons, placements_cons, ih, Line.expansion_rename,
      Line.wordCount_rename, List.map_append]
    congr 1
    apply List.ext_getElem?
    simp [Placed.rename, Line.rename, Function.comp_def]

theorem entries_rename :
    entries base (lines.map (Line.rename r)) = (entries base lines).map (Symbol.rename r) := by
  induction lines generalizing base with
  | nil => rfl
  | cons line lines ih =>
    rw [List.map_cons, entries_cons, entries_cons, ih, Line.wordCount_rename, List.map_append]
    cases h : line.label <;> simp [Line.rename, Symbol.rename, h]

theorem labels_closedForm_rename :
    (closedForm base (lines.map (Line.rename r))).labels = (closedForm base lines).labels.rename r := by
  rw [closedForm, closedForm, entries_rename, SymbolTable.rename, List.map_toArray]

theorem admissible_rename :
    Admissible base (lines.map (Line.rename r)) ↔ Admissible base lines := by
  -- Renaming changes the names of labels and neither their number nor the words of a line.
  have hlabels : (lines.map (Line.rename r)).filterMap Line.label =
      (lines.filterMap Line.label).map r := by
    rw [List.filterMap_map, List.map_filterMap]
    rfl
  have htake : ∀ k, Line.totalWords ((lines.map (Line.rename r)).take k) =
      Line.totalWords (lines.take k) := by
    intro k
    rw [← List.map_take, Line.totalWords_rename]
  constructor
  · intro h
    refine ⟨?_, ?_, ?_, ?_⟩
    · intro line hline
      obtain ⟨_, his⟩ := h.expands _ (List.mem_map_of_mem hline)
      rw [Line.expand_rename, map_eq_ok_iff] at his
      obtain ⟨is, his, -⟩ := his
      exact ⟨is, his⟩
    · -- Names that are distinct behind the renaming were distinct before it.
      exact List.Nodup.of_map r (hlabels ▸ h.distinct)
    · rw [← Line.totalWords_rename r]
      exact h.wordsFit
    · intro k line name hk hname
      rw [← htake]
      exact h.labelsFit k (line.rename r) (r name) (by simp [hk]) (by simp [Line.rename, hname])
  · intro h
    refine ⟨?_, ?_, ?_, ?_⟩
    · rw [List.forall_mem_map]
      intro line hline
      obtain ⟨is, his⟩ := h.expands line hline
      exact ⟨_, by rw [Line.expand_rename, his]; rfl⟩
    · rw [hlabels]
      -- The other way needs that the renaming is injective.
      exact h.distinct.map r.injective
    · rw [Line.totalWords_rename]
      exact h.wordsFit
    · intro k line' name' hk hname
      rw [List.getElem?_map, Option.map_eq_some_iff] at hk
      obtain ⟨line, hk, rfl⟩ := hk
      obtain ⟨name, hlabel, -⟩ := Option.map_eq_some_iff.mp hname
      rw [htake]
      exact h.labelsFit k line name hk hlabel

end Layout

namespace Program

variable {base : Nat} {lines : List Line}

theorem admissible_rename :
    Admissible base (lines.map (Line.rename r)) ↔ Admissible base lines := by
  constructor
  · rintro ⟨hlayout, hencoding⟩
    rw [Layout.labels_closedForm_rename, Layout.placements_rename] at hencoding
    exact ⟨(Layout.admissible_rename r).mp hlayout, (Assembly.admissible_rename r).mp hencoding⟩
  · rintro ⟨hlayout, hencoding⟩
    refine ⟨(Layout.admissible_rename r).mpr hlayout, ?_⟩
    rw [Layout.labels_closedForm_rename, Layout.placements_rename]
    exact (Assembly.admissible_rename r).mpr hencoding

theorem closedForm_rename (h : Admissible base lines) :
    closedForm base (lines.map (Line.rename r)) = (closedForm base lines).rename r := by
  rw [closedForm, Layout.labels_closedForm_rename, Layout.placements_rename]
  exact Assembly.closedForm_rename r h.encoding

/-- **Label names do not matter.**  Lines with renamed labels can be assembled exactly when the lines
themselves can, and then they give the same words, and tables with the new names in the same order and
at the same addresses. -/
theorem label_names_do_not_matter (r : Renaming) (lines : List Line) (options : Options) :
    ((∃ a, (assembleLines (lines.map (Line.rename r)) options).run.value = .ok a) ↔
      ∃ a, (assembleLines lines options).run.value = .ok a) ∧
    ∀ a, (assembleLines lines options).run.value = .ok a →
      (assembleLines (lines.map (Line.rename r)) options).run.value = .ok (a.rename r) := by
  simp only [assembleLines_eq_ok_iff, admissible_rename, exists_and_left, exists_eq, and_true,
    true_and]
  rintro a ⟨hadmissible, rfl⟩
  exact ⟨hadmissible, (closedForm_rename r hadmissible).symm⟩

/-- A branch and a jump to a label that gets the name of a mnemonic. -/
theorem label_names_do_not_matter_mnemonic :
    let lines : List Line :=
      [⟨1, some "a", some ⟨"bgt", ["$t0", "$t1", "b"]⟩⟩, ⟨2, some "b", some ⟨"jal", ["a"]⟩⟩]
    let r := Renaming.swap "a" "jal" rfl rfl
    lines.map (Line.rename r) =
      [⟨1, some "jal", some ⟨"bgt", ["$t0", "$t1", "b"]⟩⟩, ⟨2, some "b", some ⟨"jal", ["jal"]⟩⟩] ∧
    (assembleLines lines {}).run.value =
      .ok ⟨#[0x0128082A#32, 0x14200000#32, 0x0C000000#32],
        ⟨.distinct, #[⟨"a", 0⟩, ⟨"b", 8⟩]⟩, ⟨.repeating, #[⟨"a", 8⟩]⟩⟩ ∧
    (assembleLines (lines.map (Line.rename r)) {}).run.value =
      .ok ⟨#[0x0128082A#32, 0x14200000#32, 0x0C000000#32],
        ⟨.distinct, #[⟨"jal", 0⟩, ⟨"b", 8⟩]⟩, ⟨.repeating, #[⟨"jal", 8⟩]⟩⟩ := by
  intro lines r
  have h : (assembleLines lines {}).run.value =
      .ok ⟨#[0x0128082A#32, 0x14200000#32, 0x0C000000#32],
        ⟨.distinct, #[⟨"a", 0⟩, ⟨"b", 8⟩]⟩, ⟨.repeating, #[⟨"a", 8⟩]⟩⟩ := by
    cbv
  refine ⟨by cbv, h, ?_⟩
  rw [(label_names_do_not_matter r lines {}).2 _ h]
  cbv

end Program

end MipsAssembler
