/-
The expanded program as a text.

The instructions of a layout can be printed, and what is printed is a program text again.  If the program
has an assembly, then its operands were all read, and what can be read as an operand is a word.  So the
printed text holds the same instructions, at the same addresses, and lays out to itself:

* `Operand.isWord_of_literal?`, `Register.IsSpelled.isWord` and their companions — operands are words;
* `Instruction.isPlain_of_emit` — an instruction with a word in the assembly is printed plainly;
* `Layout.placements_ofInstructions` — where instructions stand that are not expanded further;
* `Program.expanded_text_is_fixed` — the layout of the printed text, its text, and its assembly.

Design notes: labels are not printed, so the printed text defines none, and a branch in it finds its
target only in the labels of the original.
-/
import MipsAssembler.Proofs.ExpansionForm
import MipsAssembler.Proofs.PrintedLines
import MipsAssembler.Proofs.Provenance
import MipsAssembler.Proofs.SeparateAssembly

namespace MipsAssembler

/-! ### Operands are words -/

/-- The characters of labels, numerals and mnemonics are plain. -/
theorem Line.isPlain_of_isLabelPart {c : Char} (h : Operand.isLabelPart c) : isPlain c := by
  have hascii : c.toNat < 128 := by
    simp only [Operand.isLabelPart, Char.isAlphanum, Char.isAlpha, Char.isUpper, Char.isLower,
      Char.isDigit, Bool.or_eq_true, Bool.and_eq_true, decide_eq_true_eq, beq_iff_eq,
      UInt32.le_iff_toNat_le] at h
    rcases h with ((⟨-, hle⟩ | ⟨-, hle⟩) | ⟨-, hle⟩) | rfl
    · exact Nat.lt_of_le_of_lt hle (by decide)
    · exact Nat.lt_of_le_of_lt hle (by decide)
    · exact Nat.lt_of_le_of_lt hle (by decide)
    · decide
  -- Each of the characters of ASCII can be tried.
  have hall : ∀ n < 128, Operand.isLabelPart (Char.ofNat n) → isPlain (Char.ofNat n) := by decide
  rw [← Char.ofNat_toNat c] at h ⊢
  exact hall c.toNat hascii h

theorem Numeral.isPlain_of_digit? {base d : Nat} {c : Char} (h : digit? base c = some d) :
    Line.isPlain c := by
  apply Line.isPlain_of_isLabelPart
  have hvalue : digitValue? c = some d := (Option.filter_eq_some_iff.mp h).1
  -- The letters among the digits are some of those that a label may have.
  have hf : ('f' : Char) ≤ 'z' := by decide
  have hF : ('F' : Char) ≤ 'Z' := by decide
  simp only [Operand.isLabelPart, Char.isAlphanum, Char.isAlpha, Char.isUpper, Char.isLower,
    Char.isDigit, Bool.or_eq_true, Bool.and_eq_true, decide_eq_true_eq]
  unfold digitValue? at hvalue
  split at hvalue
  case isTrue hdigit => exact .inl (.inr hdigit)
  case isFalse =>
    split at hvalue
    case isTrue hlower => exact .inl (.inl (.inr ⟨hlower.1, Char.le_trans hlower.2 hf⟩))
    case isFalse =>
      split at hvalue
      case isTrue hupper => exact .inl (.inl (.inl ⟨hupper.1, Char.le_trans hupper.2 hF⟩))
      case isFalse => cases hvalue

namespace Operand

theorem isPlain_of_extend? {base acc n : Nat} {cs : List Char}
    (h : Numeral.extend? base acc cs = some n) : ∀ c ∈ cs, Line.isPlain c := by
  induction cs generalizing acc with
  | nil =>
    intro c hc
    cases hc
  | cons c cs ih =>
    rw [Numeral.extend?] at h
    split at h
    case h_1 d hd => exact List.forall_mem_cons.mpr ⟨Numeral.isPlain_of_digit? hd, ih h⟩
    case h_2 => cases h

theorem isWord_of_value? {base n : Nat} {cs : List Char} (h : Numeral.value? base cs = some n) :
    Line.IsWord cs := by
  cases cs with
  | nil => cases h
  | cons c cs => exact ⟨List.cons_ne_nil c cs, isPlain_of_extend? h⟩

end Operand

/-- A word is still one with a plain character in front. -/
theorem Line.IsWord.cons {c : Char} {cs : List Char} (h : IsWord cs) (hc : isPlain c) :
    IsWord (c :: cs) :=
  ⟨List.cons_ne_nil c cs, List.forall_mem_cons.mpr ⟨hc, h.2⟩⟩

namespace Operand

theorem isWord_of_magnitude? {cs : List Char} {n : Nat} (h : magnitude? cs = some n) :
    Line.IsWord cs := by
  unfold magnitude? at h
  split at h
  · exact ((isWord_of_value? h).cons (by decide)).cons (by decide)
  · exact ((isWord_of_value? h).cons (by decide)).cons (by decide)
  · exact isWord_of_value? h

/-- A number is a word, with or without a sign. -/
theorem isWord_of_literal? {cs : List Char} {v : Int} (h : literal? cs = some v) :
    Line.IsWord cs := by
  unfold literal? at h
  split at h
  all_goals
    obtain ⟨_, hmagnitude, -⟩ := Option.map_eq_some_iff.mp h
    obtain ⟨n, hn, -⟩ := Option.bind_eq_some_iff.mp hmagnitude
    have hword := isWord_of_magnitude? hn
  · exact hword.cons (by decide)
  · exact hword.cons (by decide)
  · exact hword

theorem isWord_of_isLabel {cs : List Char} (h : isLabel cs) : Line.IsWord cs := by
  cases cs with
  | nil => cases h
  | cons c cs =>
    rw [isLabel, Bool.and_eq_true, List.all_eq_true] at h
    have hstart : isLabelPart c := by
      have := h.1
      simp only [isLabelStart, isLabelPart, Char.isAlphanum, Bool.or_eq_true] at this ⊢
      exact this.imp .inl id
    refine ⟨List.cons_ne_nil c cs, List.forall_mem_cons.mpr ⟨?_, fun c hc => ?_⟩⟩
    · exact Line.isPlain_of_isLabelPart hstart
    · exact Line.isPlain_of_isLabelPart (h.2 c hc)

end Operand

/-- The names and the numerals of all registers are words. -/
theorem Register.IsSpelled.isWord {r : Register} {s : String} (h : r.IsSpelled s) :
    Line.IsWord s.toList := by
  have hall : ∀ x ∈ spellings, x.1.toList ≠ [] ∧ x.1.toList.all Line.isPlain := by
    decide +kernel
  have hs := hall (s, r) (mem_spellings_iff.mpr h)
  exact ⟨hs.1, List.all_eq_true.mp hs.2⟩

theorem Mnemonic.isWord_text (m : Mnemonic) : Line.IsWord m.text.toList := by
  have hall : ∀ m ∈ all, m.text.toList ≠ [] ∧ m.text.toList.all Line.isPlain := by
    decide +kernel
  have hm := hall m m.mem_all
  exact ⟨hm.1, List.all_eq_true.mp hm.2⟩

/-- Operands that spell an operation are words. -/
theorem Op.IsSpelled.isWord {address : Nat} {labels : SymbolTable} {op : Op}
    {operands : List String} (h : op.IsSpelled address labels operands) :
    ∀ s ∈ operands, Line.IsWord s.toList := by
  cases h <;>
    simp only [List.forall_mem_cons, List.not_mem_nil, false_imp_iff, implies_true, and_true]
  case regReg hd hs ht => exact ⟨hd.isWord, hs.isWord, ht.isWord⟩
  case shift hd ht hn => exact ⟨hd.isWord, ht.isWord, Operand.isWord_of_literal? hn⟩
  case jumpReg hs => exact hs.isWord
  case mulDiv hs ht => exact ⟨hs.isWord, ht.isWord⟩
  case moveFrom hd => exact hd.isWord
  case addiu ht hs hn _ => exact ⟨ht.isWord, hs.isWord, Operand.isWord_of_literal? hn⟩
  case ori ht hs hn => exact ⟨ht.isWord, hs.isWord, Operand.isWord_of_literal? hn⟩
  case lui ht hn _ => exact ⟨ht.isWord, Operand.isWord_of_literal? hn⟩
  case memory ht hn hb => exact ⟨ht.isWord, Operand.isWord_of_literal? hn, hb.isWord⟩
  case branch hs ht hname _ _ => exact ⟨hs.isWord, ht.isWord, Operand.isWord_of_isLabel hname⟩
  case jump hname => exact Operand.isWord_of_isLabel hname

/-- An instruction with a word in an assembly is printed plainly. -/
theorem Instruction.isPlain_of_emit {i : Instruction} {address : Nat}
    {labels relocations : SymbolTable} {e : Emission}
    (h : i.emit address labels relocations = .ok e) : i.IsPlain := by
  obtain ⟨m, op, hm, hop, -⟩ := exists_of_emit h
  obtain ⟨-, hspelled⟩ := Mnemonic.isSpelled_of_resolve hop
  refine List.forall_mem_cons.mpr ⟨?_, hspelled.isWord⟩
  rw [← Mnemonic.text_of_ofText? hm]
  exact m.isWord_text

/-! ### Instructions on lines of their own -/

namespace Line

theorem exists_of_mem_ofInstructions {lineNo : Nat} {is : List Instruction} {line : Line}
    (h : line ∈ ofInstructions lineNo is) :
    line.label = none ∧ ∃ i ∈ is, line.instruction = some i := by
  induction is generalizing lineNo with
  | nil => cases h
  | cons i is ih =>
    rcases List.mem_cons.mp h with rfl | hmem
    · exact ⟨rfl, i, List.mem_cons_self, rfl⟩
    · obtain ⟨hlabel, i', hi', hinstruction⟩ := ih hmem
      exact ⟨hlabel, i', List.mem_cons_of_mem _ hi', hinstruction⟩

theorem filterMap_label_ofInstructions (lineNo : Nat) (is : List Instruction) :
    (ofInstructions lineNo is).filterMap label = [] := by
  rw [List.filterMap_eq_nil_iff]
  intro line hline
  exact (exists_of_mem_ofInstructions hline).1

end Line

/-- What stands in a layout is not expanded again. -/
theorem Layout.expand_of_mem_placements (base : Nat) (lines : List Line) :
    ∀ i ∈ (placements base lines).map Placed.instruction, i.expand = .ok [i] := by
  intro i hi
  obtain ⟨p, hp, rfl⟩ := List.mem_map.mp hi
  obtain ⟨line, -, -, hmem⟩ := exists_of_mem_placements hp
  obtain ⟨source, is, -, his, hpart⟩ := Line.exists_of_mem_expansion hmem
  exact Instruction.expand_of_mem_expand his _ hpart

section Expanded

variable {is : List Instruction} (h : ∀ i ∈ is, i.expand = .ok [i])

namespace Line

theorem expansion_of_expand_self {i : Instruction} (hi : i.expand = .ok [i]) (lineNo : Nat) :
    (⟨lineNo, none, some i⟩ : Line).expansion = [i] :=
  expansion_of_expand hi

theorem wordCount_of_expand_self {i : Instruction} (hi : i.expand = .ok [i]) (lineNo : Nat) :
    (⟨lineNo, none, some i⟩ : Line).wordCount = 1 := by
  rw [wordCount, expansion_of_expand_self hi, List.length_singleton]

include h in
theorem map_wordCount_ofInstructions (lineNo : Nat) :
    (ofInstructions lineNo is).map wordCount = List.replicate is.length 1 := by
  induction is generalizing lineNo with
  | nil => rfl
  | cons i is ih =>
    obtain ⟨hi, his⟩ := List.forall_mem_cons.mp h
    rw [ofInstructions, List.map_cons, wordCount_of_expand_self hi, ih his, List.length_cons,
      List.replicate_succ]

include h in
theorem totalWords_ofInstructions (lineNo : Nat) :
    totalWords (ofInstructions lineNo is) = is.length := by
  rw [totalWords, map_wordCount_ofInstructions h, List.sum_replicate_nat, Nat.mul_one]

end Line

namespace Layout

include h in
/-- Instructions that are not expanded further stand one word behind the other. -/
theorem placements_ofInstructions (base lineNo : Nat) :
    placements base (Line.ofInstructions lineNo is) =
      is.mapIdx fun k i => ⟨i, base + 4 * k, lineNo + k⟩ := by
  induction is generalizing base lineNo with
  | nil => rfl
  | cons i is ih =>
    obtain ⟨hi, his⟩ := List.forall_mem_cons.mp h
    have haddress : ∀ k, base + 4 * 1 + 4 * k = base + 4 * (k + 1) := by omega
    have hlineNo : ∀ k, lineNo + 1 + k = lineNo + (k + 1) := by omega
    rw [Line.ofInstructions, placements_cons, Line.wordCount_of_expand_self hi,
      Line.expansion_of_expand_self hi, ih his]
    simp only [List.mapIdx_cons, haddress, hlineNo]
    rfl

include h in
theorem admissible_ofInstructions {base : Nat} (hfit : base + 4 * is.length ≤ Address.limit)
    (lineNo : Nat) : Admissible base (Line.ofInstructions lineNo is) where
  expands line hline := by
    obtain ⟨-, i, hi, hinstruction⟩ := Line.exists_of_mem_ofInstructions hline
    refine ⟨[i], ?_⟩
    rw [Line.expand, hinstruction]
    exact h i hi
  distinct := by
    rw [Line.filterMap_label_ofInstructions]
    exact .nil
  wordsFit := by
    rw [Line.totalWords_ofInstructions h]
    exact hfit
  labelsFit k line name hline hname := by
    obtain ⟨hlabel, -⟩ := Line.exists_of_mem_ofInstructions (List.mem_of_getElem? hline)
    rw [hlabel] at hname
    cases hname

theorem labels_closedForm_ofInstructions (base lineNo : Nat) (is : List Instruction) :
    (closedForm base (Line.ofInstructions lineNo is)).labels = .empty .distinct := by
  have hentries : entries base (Line.ofInstructions lineNo is) = [] := by
    rw [← List.map_eq_nil_iff (f := Symbol.name), map_name_entries,
      Line.filterMap_label_ofInstructions]
  simp only [closedForm, hentries]
  rfl

end Layout

end Expanded

/-! ### The printed program -/

namespace Layout

variable {base : Nat} {lines : List Line}

/-- The instructions of a layout, printed and laid out again, differ in their line numbers only. -/
theorem placements_printed (base : Nat) (lines : List Line) :
    placements base (Line.ofInstructions 1 ((placements base lines).map Placed.instruction)) =
      (placements base lines).mapIdx fun k p => { p with lineNo := k + 1 } := by
  rw [placements_ofInstructions (expand_of_mem_placements base lines)]
  apply List.ext_getElem?
  intro k
  rw [List.getElem?_mapIdx, List.getElem?_mapIdx, List.getElem?_map]
  cases hp : (placements base lines)[k]? with
  | none => rfl
  | some p =>
    simp only [Option.map_some, address_of_getElem?_placements hp, Nat.add_comm 1 k]

end Layout

namespace Assembly

variable {labels : SymbolTable} {placed : List Placed}

theorem Admissible.isPlain (h : Admissible labels placed) :
    ∀ i ∈ placed.map Placed.instruction, i.IsPlain := by
  intro i hi
  obtain ⟨p, hp, rfl⟩ := List.mem_map.mp hi
  obtain ⟨e, he⟩ := h p hp
  exact Instruction.isPlain_of_emit he

/-- The line numbers of instructions have no part in their assembly. -/
theorem closedForm_renumbered (f : Nat → Nat) (h : Admissible labels placed) :
    Admissible labels (placed.mapIdx fun k p => { p with lineNo := f k }) ∧
      closedForm labels (placed.mapIdx fun k p => { p with lineNo := f k }) =
        closedForm labels placed := by
  have hstays : List.Forall₂ (Placed.Displaced 0) placed
      (placed.mapIdx fun k p => { p with lineNo := f k }) := by
    refine List.forall₂_iff_get.mpr ⟨by simp, ?_⟩
    intro k _ _
    simp only [List.get_eq_getElem, List.getElem_mapIdx]
    exact ⟨rfl, (Int.add_zero _).symm⟩
  have hfound : labels.FoundIn 0 labels :=
    fun name address haddress => ⟨address, haddress, (Int.add_zero _).symm⟩
  obtain ⟨hadmissible, hwords, hrelocations⟩ := closedForm_displaced rfl hstays hfound h
  exact ⟨hadmissible, (Assembly.mk.injEq ..).mpr ⟨hwords, rfl, hrelocations.eq_of_zero⟩⟩

end Assembly

namespace Program

/-- **The expanded program is a program that expands to itself.**  Print the instructions of a program
that has an assembly, and lay out the printed text from the same base.  The layout has the same
instructions at the same addresses, on lines of one word that are numbered from 1, and no labels; it
prints as the same text; and with the labels of the original its instructions have the assembly of the
original. -/
theorem expanded_text_is_fixed (text : String) (options options' : Options) (assembly : Assembly)
    (h : (assemble text options).run.value = .ok assembly) (hbase : options'.base = options.base) :
    ∃ layout printed, (layOut text options).run.value = .ok layout ∧
      (layOut layout.render options').run.value = .ok printed ∧
      printed.instructions.toList =
        layout.instructions.toList.mapIdx (fun k p => { p with lineNo := k + 1 }) ∧
      printed.wordCounts = Array.replicate layout.instructions.size 1 ∧
      printed.labels = .empty .distinct ∧
      printed.render = layout.render ∧
      (Assembly.ofPlaced printed.instructions.toList layout.labels options').run.value =
        .ok assembly := by
  obtain ⟨lines, layout, -, hlayOut, hadmissible, rfl, hencoding, rfl⟩ := assemble_closedForm h
  have hexpand := Layout.expand_of_mem_placements options.base.toNat lines
  -- The printed program has as many words as the layout, so it fits where the layout did.
  have hfit : options.base.toNat +
      4 * ((Layout.placements options.base.toNat lines).map Placed.instruction).length ≤
        Address.limit := by
    rw [List.length_map, Layout.length_placements]
    exact hadmissible.wordsFit
  -- Read again, the instructions are where they were, but each on a line of its own.
  have hprinted := Layout.placements_printed options.base.toNat lines
  obtain ⟨hrenumbered, hsame⟩ := Assembly.closedForm_renumbered (· + 1) hencoding
  refine ⟨_, Layout.closedForm options.base.toNat _, hlayOut, ?_, hprinted, ?_,
    Layout.labels_closedForm_ofInstructions _ 1 _, ?_, ?_⟩
  · refine layOut_eq_ok_iff.mpr ⟨_, Source.parse_renderLines hencoding.isPlain, ?_⟩
    rw [Layout.ofLines_eq_ok_iff, hbase]
    exact ⟨Layout.admissible_ofInstructions hexpand hfit 1, rfl⟩
  · show List.toArray _ = _
    rw [Line.map_wordCount_ofInstructions hexpand]
    simp [Layout.closedForm]
  · show Instruction.renderLines (List.map _ (Layout.placements _ _)) = Instruction.renderLines _
    rw [hprinted]
    congr 1
    apply List.ext_getElem?
    simp [Layout.closedForm, Function.comp_def]
  · rw [Assembly.ofPlaced_eq_ok_iff]
    show Assembly.Admissible _ (Layout.placements _ _) ∧
      _ = Assembly.closedForm _ (Layout.placements _ _)
    rw [hprinted]
    exact ⟨hrenumbered, hsame.symm⟩

/-- A program with a label, a comment, two instructions that are expanded, and a division that is not. -/
theorem expanded_text_is_fixed_with_label :
    let text := "a: li $t0, 100000 # 2\n\nblt $t0, $9, a\ndiv $t0, $9"
    ∃ assembly layout printed,
      (assemble text { base := 0x400000#32 }).run.value = .ok assembly ∧
      (layOut text { base := 0x400000#32 }).run.value = .ok layout ∧
      layout.render =
        "lui $t0 1\nori $t0 $t0 34464\nslt $at $t0 $9\nbne $at $zero a\ndiv $t0 $9\n" ∧
      (layOut layout.render { base := 0x400000#32, keepGoing := true }).run.value = .ok printed ∧
      printed.instructions.toList.map Placed.lineNo = [1, 2, 3, 4, 5] ∧
      printed.labels = .empty .distinct ∧
      (Assembly.ofPlaced printed.instructions.toList layout.labels
        { base := 0x400000#32, keepGoing := true }).run.value = .ok assembly := by
  intro text
  have hassemble : (assemble text { base := 0x400000#32 }).run.value =
      .ok ⟨#[0x3C080001#32, 0x350886A0#32, 0x0109082A#32, 0x1420FFFC#32, 0x0109001A#32],
        ⟨.distinct, #[⟨"a", 0x400000⟩]⟩, ⟨.repeating, #[]⟩⟩ := by
    cbv
  have hlayOut : (layOut text { base := 0x400000#32 }).run.value =
      .ok { next := 0x400014
            instructions := #[⟨⟨"lui", ["$t0", "1"]⟩, 0x400000, 1⟩,
              ⟨⟨"ori", ["$t0", "$t0", "34464"]⟩, 0x400004, 1⟩,
              ⟨⟨"slt", ["$at", "$t0", "$9"]⟩, 0x400008, 3⟩,
              ⟨⟨"bne", ["$at", "$zero", "a"]⟩, 0x40000C, 3⟩,
              ⟨⟨"div", ["$t0", "$9"]⟩, 0x400010, 4⟩]
            wordCounts := #[2, 2, 1]
            labels := ⟨.distinct, #[⟨"a", 0x400000⟩]⟩ } := by
    cbv
  obtain ⟨layout, printed, hlayout, hprinted, hinstructions, -, hlabels, -, hassembly⟩ :=
    expanded_text_is_fixed _ _ { base := 0x400000#32, keepGoing := true } _ hassemble rfl
  obtain rfl := Except.ok.inj (hlayOut.symm.trans hlayout)
  refine ⟨_, _, printed, hassemble, hlayOut, by cbv, hprinted, ?_, hlabels, hassembly⟩
  rw [hinstructions]
  rfl

end Program

end MipsAssembler
