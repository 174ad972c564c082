/-
Labels on lines of their own.

A label may stand in front of its instruction or on a line above it.  A line with nothing but a label
takes no words, so the label names the same address either way, and the instruction stays where it is:

* `Line.apart` — a line as two lines, one with its label and one with its instruction;
* `Layout.Interchangeable` — lines that give the same instructions and labels at every address;
* `Layout.Interchangeable.append` — such lines can be replaced anywhere among others;
* `Layout.ofLines_takeApart` — lines have the same layout whichever of them are taken apart.

Design notes: a whole line is accepted or refused at once, while of two lines the label is entered before
the instruction is looked at.  Both can only differ in what is left behind by a failure, and a layout
that fails leaves nothing.  This holds at the end of the address space too, where neither has room.
-/
import Mathlib
import MipsAssembler.Assembly
import MipsAssembler.Proofs.LayoutForm

namespace MipsAssembler

/-! ### Taking lines apart -/

/-- The list `xs` with all of `f x` in place of `x` wherever its position is chosen. -/
def replaceAt {α : Type} (chosen : Nat → Bool) (f : α → List α) (xs : List α) : List α :=
  (xs.mapIdx fun k x => if chosen k then f x else [x]).flatten

theorem replaceAt_cons {α : Type} (chosen : Nat → Bool) (f : α → List α) (x : α) (xs : List α) :
    replaceAt chosen f (x :: xs) =
      (if chosen 0 then f x else [x]) ++ replaceAt (fun k => chosen (k + 1)) f xs := by
  rw [replaceAt, List.mapIdx_cons, List.flatten_cons]
  rfl

theorem map_replaceAt {α β : Type} {f : α → List α} {f' : β → List β} {g : α → β}
    (h : ∀ x, (f x).map g = f' (g x)) (chosen : Nat → Bool) (xs : List α) :
    (replaceAt chosen f xs).map g = replaceAt chosen f' (xs.map g) := by
  induction xs generalizing chosen with
  | nil => rfl
  | cons x xs ih =>
    rw [List.map_cons, replaceAt_cons, replaceAt_cons, List.map_append, ih]
    by_cases hchosen : chosen 0
    · rw [if_pos hchosen, if_pos hchosen, h]
    · rw [if_neg hchosen, if_neg hchosen, List.map_singleton]

namespace Line

/-- The line without its instruction. -/
def labelOnly (line : Line) : Line := { line with instruction := none }

/-- The line without its label. -/
def instructionOnly (line : Line) : Line := { line with label := none }

/-- The label of a line and then its instruction, as two lines with the same number. -/
def apart (line : Line) : List Line := [line.labelOnly, line.instructionOnly]

/-- The lines with the chosen ones taken apart. -/
def takeApart (chosen : Nat → Bool) (lines : List Line) : List Line :=
  replaceAt chosen apart lines

theorem expand_labelOnly (line : Line) : line.labelOnly.expand = .ok [] := rfl

theorem expand_instructionOnly (line : Line) : line.instructionOnly.expand = line.expand := rfl

theorem wordCount_labelOnly (line : Line) : line.labelOnly.wordCount = 0 := rfl

theorem wordCount_instructionOnly (line : Line) :
    line.instructionOnly.wordCount = line.wordCount := rfl

/-- The label takes no words, and the instruction as many as before. -/
theorem map_wordCount_takeApart (chosen : Nat → Bool) (lines : List Line) :
    (takeApart chosen lines).map wordCount =
      replaceAt chosen (fun n => [0, n]) (lines.map wordCount) := by
  refine map_replaceAt (fun line => ?_) chosen lines
  rw [apart, List.map_cons, List.map_singleton, wordCount_labelOnly, wordCount_instructionOnly]

end Line

/-! ### Lines that can be replaced by others -/

namespace Layout

/-- Whether lines can be laid out at the same addresses as others, and then give the same instructions
and labels. -/
structure Interchangeable (lines lines' : List Line) : Prop where
  admissible : ∀ base, Admissible base lines ↔ Admissible base lines'
  placements : ∀ base, placements base lines = placements base lines'
  entries : ∀ base, entries base lines = entries base lines'

namespace Interchangeable

variable {a a' b b' : List Line}

theorem refl (lines : List Line) : Interchangeable lines lines :=
  ⟨fun _ => .rfl, fun _ => rfl, fun _ => rfl⟩

theorem totalWords_eq (h : Interchangeable a a') : Line.totalWords a = Line.totalWords a' := by
  rw [← length_placements 0, ← length_placements 0, h.placements]

theorem labels_eq (h : Interchangeable a a') :
    a.filterMap Line.label = a'.filterMap Line.label := by
  rw [← map_name_entries 0, ← map_name_entries 0, h.entries]

theorem append (ha : Interchangeable a a') (hb : Interchangeable b b') :
    Interchangeable (a ++ b) (a' ++ b') where
  admissible base := by
    rw [admissible_append_iff, admissible_append_iff, ha.admissible, hb.admissible,
      ha.totalWords_eq, ha.labels_eq, hb.labels_eq]
  placements base := by
    rw [placements_append, placements_append, ha.placements, hb.placements, ha.totalWords_eq]
  entries base := by
    rw [entries_append, entries_append, ha.entries, hb.entries, ha.totalWords_eq]

end Interchangeable

/-- A line can be taken apart. -/
theorem interchangeable_apart (line : Line) : Interchangeable [line] line.apart where
  admissible base := by
    -- The label stays where the line was, and the instruction is put right behind it.
    have hapart : line.apart = [line.labelOnly] ++ [line.instructionOnly] := rfl
    rw [hapart, admissible_append_iff, admissible_singleton_iff, admissible_singleton_iff,
      admissible_singleton_iff, Line.totalWords_singleton, Line.wordCount_labelOnly,
      Line.wordCount_instructionOnly, Line.expand_labelOnly, Line.expand_instructionOnly]
    constructor
    · rintro ⟨hexpand, hwords, hlabel⟩
      exact ⟨⟨⟨[], rfl⟩, by omega, hlabel⟩, ⟨hexpand, by omega, nofun⟩, nofun⟩
    · rintro ⟨⟨-, -, hlabel⟩, ⟨hexpand, hwords, -⟩, -⟩
      exact ⟨hexpand, by omega, hlabel⟩
  placements base := by
    rw [Line.apart, placements_cons, placements_cons, placements_cons]
    rfl
  entries base := by
    rw [Line.apart, entries_cons, entries_cons, entries_cons]
    rfl

/-- Any lines can be taken apart. -/
theorem interchangeable_takeApart (chosen : Nat → Bool) (lines : List Line) :
    Interchangeable lines (Line.takeApart chosen lines) := by
  rw [Line.takeApart]
  induction lines generalizing chosen with
  | nil => exact .refl []
  | cons line lines ih =>
    rw [replaceAt_cons, ← List.singleton_append]
    refine .append ?_ (ih fun k => chosen (k + 1))
    by_cases hchosen : chosen 0
    · rw [if_pos hchosen]
      exact interchangeable_apart line
    · rw [if_neg hchosen]
      exact .refl [line]

/-- **A label may share a line with its instruction or precede it.**  Whichever lines are taken apart, the
layout succeeds exactly when it did before, with the same instructions and labels.  It counts no words
for the new label lines, and nothing else changes.  So the placed instructions are assembled alike. -/
theorem ofLines_takeApart (chosen : Nat → Bool) (lines : List Line) (options : Options) :
    ((∃ layout', (ofLines (Line.takeApart chosen lines) options).run.value = .ok layout') ↔
      ∃ layout, (ofLines lines options).run.value = .ok layout) ∧
    ∀ layout layout', (ofLines lines options).run.value = .ok layout →
      (ofLines (Line.takeApart chosen lines) options).run.value = .ok layout' →
      layout'.instructions = layout.instructions ∧ layout'.labels = layout.labels ∧
      layout'.wordCounts.toList = replaceAt chosen (fun n => [0, n]) layout.wordCounts.toList ∧
      ∀ options', Assembly.ofPlaced layout'.instructions.toList layout'.labels options' =
        Assembly.ofPlaced layout.instructions.toList layout.labels options' := by
  have hsame := interchangeable_takeApart chosen lines
  constructor
  · rw [(ofLines_exactly _ options).1, (ofLines_exactly _ options).1, hsame.admissible]
  · intro layout layout' hlayout hlayout'
    obtain ⟨-, rfl⟩ := ofLines_eq_ok_iff.mp hlayout
    obtain ⟨-, rfl⟩ := ofLines_eq_ok_iff.mp hlayout'
    have hinstructions : (closedForm options.base.toNat (Line.takeApart chosen lines)).instructions =
        (closedForm options.base.toNat lines).instructions := by
      rw [closedForm, closedForm, hsame.placements]
    have hlabels : (closedForm options.base.toNat (Line.takeApart chosen lines)).labels =
        (closedForm options.base.toNat lines).labels := by
      rw [closedForm, closedForm, hsame.entries]
    -- The second pass sees the instructions and the labels, and neither has changed.
    refine ⟨hinstructions, hlabels, Line.map_wordCount_takeApart chosen lines, fun options' => ?_⟩
    rw [hinstructions, hlabels]

/-- The last line before the end of the address space has a label.  On a line of its own, the label still
names the first of the two words. -/
theorem ofLines_takeApart_at_limit :
    let options : Options := { base := 0xFFFFFFF4#32 }
    let above : Line := ⟨1, none, some ⟨"j", ["x"]⟩⟩
    let last : Instruction := ⟨"blt", ["$t0", "$t1", "x"]⟩
    ∃ layout layout',
      (ofLines [above, ⟨2, some "x", some last⟩] options).run.value = .ok layout ∧
      (ofLines [above, ⟨2, some "x", none⟩, ⟨2, none, some last⟩] options).run.value =
        .ok layout' ∧
      layout.wordCounts.toList = [1, 2] ∧ layout'.wordCounts.toList = [1, 0, 2] ∧
      layout'.instructions = layout.instructions ∧ layout'.labels = layout.labels := by
  intro options above last
  have hlayout : (ofLines [above, ⟨2, some "x", some last⟩] options).run.value =
      .ok ⟨0x100000000, #[⟨⟨"j", ["x"]⟩, 0xFFFFFFF4, 1⟩,
        ⟨⟨"slt", ["$at", "$t0", "$t1"]⟩, 0xFFFFFFF8, 2⟩,
        ⟨⟨"bne", ["$at", "$zero", "x"]⟩, 0xFFFFFFFC, 2⟩], #[1, 2],
        ⟨.distinct, #[⟨"x", 0xFFFFFFF8⟩]⟩⟩ := by
    cbv
  obtain ⟨hsucceeds, hsame⟩ := ofLines_takeApart (· == 1) [above, ⟨2, some "x", some last⟩] options
  obtain ⟨layout', hlayout'⟩ := hsucceeds.mpr ⟨_, hlayout⟩
  obtain ⟨hinstructions, hlabels, hcounts, -⟩ := hsame _ _ hlayout hlayout'
  exact ⟨_, _, hlayout, hlayout', rfl, hcounts, hinstructions, hlabels⟩

end Layout

end MipsAssembler
