/-
When a program text has a layout, and when it has an assembly.

The stages of a program pass their results on and nothing else, so a program succeeds exactly when
each of its stages does:

* `Program.layOut_eq_ok_iff` — the layout of a text is that of its lines;
* `Program.assemble_eq_ok_iff` — the assembly of a text is that of its layout;
* `Program.closedForm`, `Program.Admissible` — the assembly of a list of lines, and what the lines have
  to satisfy;
* `Program.assembleLines` — the stages behind reading, for lines that need not come from a text;
* `Program.assemble_eq_ok_iff_admissible` — the assembly of a text is the closed form of its lines;
* `Program.assemble_closedForm` — layout and assembly in closed form;
* `Program.layOut_eq_error_iff`, `Program.assemble_eq_error_iff` — the stage that rejects a text, and
  its failures.
-/
import MipsAssembler.Program
import MipsAssembler.Proofs.AssemblyForm
import MipsAssembler.Proofs.LayoutForm

namespace MipsAssembler.Program

theorem readLines_eq_ok_iff {text : String} {lines : List Line} :
    readLines text = .ok lines ↔ Source.parse text = .ok lines :=
  mapError_eq_ok_iff

theorem layOut_eq_ok_iff {text : String} {options : Options} {layout : Layout} :
    (layOut text options).run.value = .ok layout ↔
      ∃ lines, Source.parse text = .ok lines ∧
        (Layout.ofLines lines options).run.value = .ok layout := by
  simp only [layOut, value_run_bind, value_run_mk, Traced.value_pure, value_run_adapt,
    value_run_log, value_run_pure, bind_eq_ok_iff, mapError_eq_ok_iff, readLines_eq_ok_iff,
    Except.ok.injEq, exists_eq_right, true_and, exists_const]

theorem assemble_eq_ok_iff {text : String} {options : Options} {assembly : Assembly} :
    (assemble text options).run.value = .ok assembly ↔
      ∃ layout, (layOut text options).run.value = .ok layout ∧
        (Assembly.ofPlaced layout.instructions.toList layout.labels options).run.value =
          .ok assembly := by
  simp only [assemble, encode, value_run_bind, value_run_adapt, value_run_log, value_run_pure,
    bind_eq_ok_iff, mapError_eq_ok_iff, Except.ok.injEq, exists_eq_right, true_and, exists_const]

/-- What lines have to satisfy to be assembled from `base` on. -/
structure Admissible (base : Nat) (lines : List Line) : Prop where
  layout : Layout.Admissible base lines
  encoding : Assembly.Admissible (Layout.closedForm base lines).labels
    (Layout.placements base lines)

/-- The assembly of a list of lines that starts at `base`. -/
def closedForm (base : Nat) (lines : List Line) : Assembly :=
  .closedForm (Layout.closedForm base lines).labels (Layout.placements base lines)

theorem size_words_closedForm (base : Nat) (lines : List Line) :
    (closedForm base lines).words.size = Line.totalWords lines := by
  rw [closedForm, Assembly.size_words_closedForm, Layout.length_placements]

/-- The assembly of a list of lines: they are laid out, and the placed instructions are assembled. -/
def assembleLines (lines : List Line) (options : Options) :
    ExceptT (List Failure) Logged Assembly := do
  let layout ← Layout.ofLines lines options
  Assembly.ofPlaced layout.instructions.toList layout.labels options

/-- Lines have an assembly exactly when they are admissible, and it is the closed form. -/
theorem assembleLines_eq_ok_iff {lines : List Line} {options : Options} {assembly : Assembly} :
    (assembleLines lines options).run.value = .ok assembly ↔
      Admissible options.base.toNat lines ∧ assembly = closedForm options.base.toNat lines := by
  rw [assembleLines, value_run_bind, bind_eq_ok_iff]
  constructor
  · rintro ⟨layout, hlayout, hassembly⟩
    obtain ⟨hadmissible, rfl⟩ := Layout.ofLines_eq_ok_iff.mp hlayout
    obtain ⟨hencoding, rfl⟩ := Assembly.ofPlaced_eq_ok_iff.mp hassembly
    exact ⟨⟨hadmissible, hencoding⟩, rfl⟩
  · rintro ⟨⟨hadmissible, hencoding⟩, rfl⟩
    exact ⟨_, Layout.ofLines_eq_ok_iff.mpr ⟨hadmissible, rfl⟩,
      Assembly.ofPlaced_eq_ok_iff.mpr ⟨hencoding, rfl⟩⟩

theorem assemble_eq_ok_iff_assembleLines {text : String} {options : Options}
    {assembly : Assembly} :
    (assemble text options).run.value = .ok assembly ↔
      ∃ lines, Source.parse text = .ok lines ∧
        (assembleLines lines options).run.value = .ok assembly := by
  simp only [assemble_eq_ok_iff, layOut_eq_ok_iff, assembleLines, value_run_bind, bind_eq_ok_iff]
  constructor
  · rintro ⟨layout, ⟨lines, hlines, hlayout⟩, hassembly⟩
    exact ⟨lines, hlines, layout, hlayout, hassembly⟩
  · rintro ⟨lines, hlines, layout, hlayout, hassembly⟩
    exact ⟨layout, ⟨lines, hlines, hlayout⟩, hassembly⟩

/-- A text has an assembly exactly when its lines are admissible, and it is the closed form. -/
theorem assemble_eq_ok_iff_admissible {text : String} {options : Options} {assembly : Assembly} :
    (assemble text options).run.value = .ok assembly ↔
      ∃ lines, Source.parse text = .ok lines ∧ Admissible options.base.toNat lines ∧
        assembly = closedForm options.base.toNat lines := by
  simp only [assemble_eq_ok_iff_assembleLines, assembleLines_eq_ok_iff]

/-- The layout and the assembly of a program that succeeds, in closed form. -/
theorem assemble_closedForm {text : String} {options : Options} {assembly : Assembly}
    (h : (assemble text options).run.value = .ok assembly) :
    ∃ lines layout, Source.parse text = .ok lines ∧
      (layOut text options).run.value = .ok layout ∧
      Layout.Admissible options.base.toNat lines ∧
      layout = .closedForm options.base.toNat lines ∧
      Assembly.Admissible layout.labels layout.instructions.toList ∧
      assembly = .closedForm layout.labels layout.instructions.toList := by
  obtain ⟨layout, hlayOut, hassembly⟩ := assemble_eq_ok_iff.mp h
  obtain ⟨lines, hlines, hlayout⟩ := layOut_eq_ok_iff.mp hlayOut
  obtain ⟨hadmissible, hform⟩ := Layout.ofLines_eq_ok_iff.mp hlayout
  exact ⟨lines, layout, hlines, hlayOut, hadmissible, hform,
    Assembly.ofPlaced_eq_ok_iff.mp hassembly⟩

/-! ### Programs that are rejected -/

theorem layOut_eq_error_iff {text : String} {options : Options} {r : Rejection} :
    (layOut text options).run.value = .error r ↔
      (∃ lineNo e, Source.parse text = .error (lineNo, e) ∧
        r = ⟨.reading, [⟨lineNo - 1, lineNo, e⟩]⟩) ∨
      ∃ lines failures, Source.parse text = .ok lines ∧
        (Layout.ofLines lines options).run.value = .error failures ∧ r = ⟨.layout, failures⟩ := by
  simp only [layOut, readLines, value_run_bind, value_run_mk, Traced.value_pure, value_run_adapt,
    value_run_log, value_run_pure, bind_eq_error_iff, mapError_eq_error_iff, mapError_eq_ok_iff,
    reduceCtorEq, false_or, and_false, exists_false, or_false, true_and, exists_const, Prod.exists,
    exists_and_left, @eq_comm _ r]

/-- A text is rejected by its layout, or by the assembly of its layout. -/
theorem assemble_eq_error_iff {text : String} {options : Options} {r : Rejection} :
    (assemble text options).run.value = .error r ↔
      (layOut text options).run.value = .error r ∨
      ∃ layout failures, (layOut text options).run.value = .ok layout ∧
        (Assembly.ofPlaced layout.instructions.toList layout.labels options).run.value =
          .error failures ∧ r = ⟨.encoding, failures⟩ := by
  simp only [assemble, encode, value_run_bind, value_run_adapt, value_run_log, value_run_pure,
    bind_eq_error_iff, mapError_eq_error_iff, mapError_eq_ok_iff, reduceCtorEq, and_false,
    exists_false, or_false, exists_and_left, @eq_comm _ r]

end MipsAssembler.Program
