/-
Instructions that are printed and then read.

An instruction is printed as its words with single spaces between them.  If none of the words holds a
character that means something else in a line, a blank or another separator, the start of a comment or
the colon behind a label, then reading the line gives the instruction back:

* `Text.splitOn_endLines` — lines that are ended by line feeds are split where they end;
* `Line.IsWord` — a text that is one word wherever it stands;
* `Line.words_intercalate` — words with spaces between them are read one by one;
* `Instruction.parse_render` — a printed instruction is read as that instruction, without a label;
* `Source.parse_renderLines` — a printed list of instructions is read as one line for each of them.

Design notes: a line feed is a blank, so a printed instruction takes exactly one line.
-/
import MipsAssembler.Proofs.SourceLines

namespace MipsAssembler

/-! ### Lines -/

namespace Text

/-- Lines, each of them ended by a line feed. -/
def endLines (lines : List (List Char)) : List Char := lines.flatMap (· ++ ['\n'])

theorem endLines_cons (line : List Char) (lines : List (List Char)) :
    endLines (line :: lines) = line ++ '\n' :: endLines lines := by
  simp [endLines]

theorem endLines_append (lines lines' : List (List Char)) :
    endLines (lines ++ lines') = endLines lines ++ endLines lines' :=
  List.flatMap_append

theorem toList_join_lines {α : Type} (f : α → String) (xs : List α) :
    (String.join (xs.map fun x => f x ++ "\n")).toList = endLines (xs.map fun x => (f x).toList) := by
  induction xs with
  | nil => rfl
  | cons x xs ih =>
    rw [List.map_cons, String.join_cons, String.toList_append, ih, String.toList_append]
    rfl

/-- Lines that are ended by line feeds are split where they end. -/
theorem splitOn_endLines {lines : List (List Char)} (h : ∀ line ∈ lines, '\n' ∉ line) :
    (endLines lines).splitOn '\n' = lines ++ [[]] := by
  induction lines with
  | nil => rfl
  | cons line lines ih =>
    obtain ⟨hline, hlines⟩ := List.forall_mem_cons.mp h
    rw [endLines_cons, List.splitOn_append_cons_self, List.splitOn_eq_singleton hline, ih hlines]
    rfl

end Text

/-! ### Words -/

namespace Line

variable {c : Char} {cs ds : List Char} {ws : List (List Char)}

/-- Whether `c` stands for itself wherever it is written in a line. -/
def isPlain (c : Char) : Bool := !isSeparator c && c != '#' && c != ':'

/-- Whether some characters make one word wherever they stand in a line. -/
def IsWord (cs : List Char) : Prop := cs ≠ [] ∧ ∀ c ∈ cs, isPlain c

theorem IsWord.not_isSeparator (h : IsWord cs) (hc : c ∈ cs) : isSeparator c = false := by
  have hplain := h.2 c hc
  simp only [isPlain, Bool.and_eq_true, Bool.not_eq_true'] at hplain
  exact hplain.1.1

theorem words_append_separator (hc : isSeparator c) :
    words (cs ++ c :: ds) = words cs ++ words ds := by
  rw [words, List.splitOnP_append_cons cs ds hc, List.filter_append, List.map_append]
  rfl

theorem words_of_not_isSeparator (hne : cs ≠ []) (h : ∀ c ∈ cs, isSeparator c = false) :
    words cs = [String.ofList cs] := by
  rw [words, List.splitOnP_eq_singleton h]
  have hfull : (!cs.isEmpty) = true := by simpa using hne
  simp [hfull]

theorem words_of_isWord (h : IsWord cs) : words cs = [String.ofList cs] :=
  words_of_not_isSeparator h.1 fun _ hc => h.not_isSeparator hc

/-- Words with spaces between them are read one by one. -/
theorem words_intercalate (h : ∀ w ∈ ws, IsWord w) :
    words ([' '].intercalate ws) = ws.map String.ofList := by
  induction ws with
  | nil => rfl
  | cons w ws ih =>
    obtain ⟨hw, hws⟩ := List.forall_mem_cons.mp h
    cases ws with
    | nil =>
      rw [List.intercalate_singleton, words_of_isWord hw]
      rfl
    | cons w' ws =>
      have hspace : isSeparator ' ' := by decide
      rw [List.intercalate_cons_cons, List.append_assoc, List.singleton_append,
        words_append_separator hspace, words_of_isWord hw, ih hws]
      rfl

/-- Between words there is nothing but spaces. -/
theorem isPlain_or_eq_of_mem_intercalate (h : ∀ w ∈ ws, IsWord w)
    (hc : c ∈ [' '].intercalate ws) : isPlain c ∨ c = ' ' := by
  induction ws with
  | nil => cases hc
  | cons w ws ih =>
    obtain ⟨hw, hws⟩ := List.forall_mem_cons.mp h
    cases ws with
    | nil =>
      rw [List.intercalate_singleton] at hc
      exact .inl (hw.2 c hc)
    | cons w' ws =>
      rw [List.intercalate_cons_cons, List.mem_append, List.mem_append] at hc
      rcases hc with (hc | hc) | hc
      · exact .inl (hw.2 c hc)
      · exact .inr (List.mem_singleton.mp hc)
      · exact ih hws hc

/-- A line without a colon has no label. -/
theorem splitLabel?_of_not_mem (h : ':' ∉ cs) : splitLabel? cs = none := by
  cases hsplit : splitLabel? cs with
  | none => rfl
  | some label =>
    obtain ⟨-, -, before, after, -, -, rfl⟩ := splitLabel?_eq_some_iff.mp hsplit
    exact absurd (by simp) h

/-- A line without a comment is code. -/
theorem code_of_not_mem (h : '#' ∉ cs) : code cs = cs := by
  refine List.takeWhile_eq_self_iff.mpr fun c hc => ?_
  rw [bne_iff_ne]
  rintro rfl
  exact h hc

end Line

/-! ### Instructions -/

namespace Instruction

variable {i : Instruction} {is : List Instruction}

/-- Whether the mnemonic and every operand of an instruction are words. -/
def IsPlain (i : Instruction) : Prop := ∀ w ∈ i.mnemonic :: i.operands, Line.IsWord w.toList

theorem toList_render (i : Instruction) :
    i.render.toList = [' '].intercalate ((i.mnemonic :: i.operands).map String.toList) := by
  rw [render, String.toList_intercalate]
  rfl

theorem IsPlain.isWord_of_mem_map (h : i.IsPlain) :
    ∀ w ∈ (i.mnemonic :: i.operands).map String.toList, Line.IsWord w := by
  intro w hw
  obtain ⟨s, hs, rfl⟩ := List.mem_map.mp hw
  exact h s hs

/-- A printed instruction holds no character that means something else in a line. -/
theorem IsPlain.not_mem_render (h : i.IsPlain) {c : Char} (hc : Line.isPlain c = false)
    (hspace : c ≠ ' ') : c ∉ i.render.toList := by
  intro hmem
  rw [toList_render] at hmem
  rcases Line.isPlain_or_eq_of_mem_intercalate h.isWord_of_mem_map hmem with hplain | heq
  · rw [hc] at hplain
    cases hplain
  · exact hspace heq

/-- A printed instruction is read as that instruction. -/
theorem parse_render (h : i.IsPlain) (lineNo : Nat) :
    Line.parse i.render lineNo = .ok (some ⟨lineNo, none, some i⟩) := by
  have hcode := Line.code_of_not_mem (h.not_mem_render (c := '#') (by decide) (by decide))
  have hlabel := Line.splitLabel?_of_not_mem (h.not_mem_render (c := ':') (by decide) (by decide))
  have hwords : Line.words i.render.toList = i.mnemonic :: i.operands := by
    rw [toList_render, Line.words_intercalate h.isWord_of_mem_map, List.map_map]
    simp
  simp only [Line.parse, hcode, hlabel, hwords]
  rfl

/-- Each printed instruction takes one line. -/
theorem splitOn_renderLines (h : ∀ i ∈ is, i.IsPlain) :
    (renderLines is).toList.splitOn '\n' = is.map (·.render.toList) ++ [[]] := by
  rw [renderLines, Text.toList_join_lines]
  refine Text.splitOn_endLines fun line hline => ?_
  obtain ⟨i, hi, rfl⟩ := List.mem_map.mp hline
  exact (h i hi).not_mem_render (by decide) (by decide)

end Instruction

/-- Instructions on lines of their own, the first of which has the number `lineNo`. -/
def Line.ofInstructions (lineNo : Nat) : List Instruction → List Line
  | [] => []
  | i :: is => ⟨lineNo, none, some i⟩ :: ofInstructions (lineNo + 1) is

namespace Source

theorem numbered_render {is : List Instruction} (h : ∀ i ∈ is, i.IsPlain) (start : Nat) :
    numbered start (is.map (·.render.toList) ++ [[]]) = .ok (Line.ofInstructions start is) := by
  induction is generalizing start with
  | nil => rfl
  | cons i is ih =>
    obtain ⟨hi, his⟩ := List.forall_mem_cons.mp h
    rw [List.map_cons, List.cons_append, numbered, String.ofList_toList,
      Instruction.parse_render hi, ih his]
    rfl

/-- A printed list of instructions is read as one line for each of them. -/
theorem parse_renderLines {is : List Instruction} (h : ∀ i ∈ is, i.IsPlain) :
    parse (Instruction.renderLines is) = .ok (Line.ofInstructions 1 is) := by
  rw [parse_eq_numbered, Instruction.splitOn_renderLines h]
  exact numbered_render h 1

end Source

end MipsAssembler
