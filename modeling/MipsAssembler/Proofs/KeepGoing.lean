/-
Keeping going after a failure.

A pass that keeps going does what one that stops at the first failure does, and then more.  So the two
agree on every success, and where they fail they agree on the stage and on the first failure:

* `Assembly.refusedAlone` — the failures of placed instructions, each looked at by itself;
* `Assembly.ofPlaced_eq_error_iff` — these are the failures of the assembly of all of them;
* `Program.keepGoing_only_extends_report` — what keeping going changes for a program.

Design notes: an instruction that fails leaves no relocation site behind, and the sites of the others
have no part in what later instructions give, so instructions fail together as they fail alone.
-/
import Mathlib
import MipsAssembler.Proofs.ErrorKinds
import MipsAssembler.Proofs.ProgramForm

namespace MipsAssembler

/-! ### Instructions -/

/-- The failure of a placed instruction at some position, if it cannot be assembled. -/
def Placed.refusal? (labels : SymbolTable) : Placed × Nat → Option Failure
  | (p, index) =>
    match p.emit labels with
    | .ok _ => none
    | .error e => some ⟨index, p.lineNo, e⟩

namespace Assembly

/-- The failures of the placed instructions that cannot be assembled, in the order of their
positions. -/
def refusedAlone (labels : SymbolTable) (placed : List Placed) : List Failure :=
  placed.zipIdx.filterMap (Placed.refusal? labels)

theorem look_of_repeating {a : Assembly} (h : a.relocations.mode = .repeating) (p : Placed) :
    pass.look a p = p.emit a.labels :=
  (look_pass a p).trans (Instruction.emit_of_repeating h p.instruction p.address a.labels)

theorem mode_relocations_advance (a : Assembly) (p : Placed) :
    (pass.advance a p).relocations.mode = a.relocations.mode := by
  rw [advance_pass]
  split
  · exact SymbolTable.mode_pushIfAny _ _
  · rfl

/-- Instructions are refused as they are alone, whatever is assembled before them. -/
theorem refusals_eq_filterMap {placed : List Placed} {a : Assembly} (index : Nat)
    (h : a.relocations.mode = .repeating) :
    pass.refusals index placed a = (placed.zipIdx index).filterMap (Placed.refusal? a.labels) := by
  induction placed generalizing index a with
  | nil => rfl
  | cons p placed ih =>
    have hhere : pass.refusal? index a p = Placed.refusal? a.labels (p, index) := by
      rw [Pass.refusal?, look_of_repeating h, Placed.refusal?]
      cases p.emit a.labels <;> rfl
    rw [Pass.refusals, ih (index + 1) (by rw [mode_relocations_advance, h]), labels_advance, hhere,
      List.zipIdx_cons, List.filterMap_cons]
    cases Placed.refusal? a.labels (p, index) <;> rfl

theorem refusals_eq_refusedAlone (labels : SymbolTable) (placed : List Placed) :
    pass.refusals 0 placed { labels } = refusedAlone labels placed :=
  refusals_eq_filterMap 0 rfl

theorem mem_refusedAlone_iff {labels : SymbolTable} {placed : List Placed} {f : Failure} :
    f ∈ refusedAlone labels placed ↔
      ∃ p, placed[f.index]? = some p ∧ p.lineNo = f.lineNo ∧ p.emit labels = .error f.error := by
  rw [refusedAlone, List.mem_filterMap]
  constructor
  · rintro ⟨⟨p, index⟩, hp, hf⟩
    rw [Placed.refusal?] at hf
    split at hf
    · cases hf
    · obtain rfl := Option.some_inj.mp hf
      exact ⟨p, List.mem_zipIdx_iff_getElem?.mp hp, rfl, by assumption⟩
  · rintro ⟨p, hp, hlineNo, hemit⟩
    refine ⟨(p, f.index), List.mem_zipIdx_iff_getElem?.mpr hp, ?_⟩
    rw [Placed.refusal?, hemit, hlineNo]

theorem ofPlaced_eq_error_iff {placed : List Placed} {labels : SymbolTable} {options : Options}
    {failures : List Failure} :
    (ofPlaced placed labels options).run.value = .error failures ↔
      refusedAlone labels placed ≠ [] ∧
        failures = if options.keepGoing then refusedAlone labels placed
          else (refusedAlone labels placed).take 1 := by
  rw [ofPlaced, Pass.value_run_eq neverFatal_pass, refusals_eq_refusedAlone]
  by_cases h : refusedAlone labels placed = []
  · simp [h]
  · rw [if_neg h, Except.error.injEq, eq_comm]
    exact ⟨fun hfailures => ⟨h, hfailures⟩, And.right⟩

end Assembly

/-! ### Programs -/

namespace Program

variable {text : String} {options : Options}

/-- Whether a program succeeds, and with what, depends on its base alone. -/
theorem assemble_eq_ok_congr {options options' : Options} {assembly : Assembly}
    (h : options.base = options'.base) :
    (assemble text options).run.value = .ok assembly ↔
      (assemble text options').run.value = .ok assembly := by
  rw [assemble_eq_ok_iff_admissible, assemble_eq_ok_iff_admissible, h]

theorem layOut_eq_ok_congr {options options' : Options} {layout : Layout}
    (h : options.base = options'.base) :
    (layOut text options).run.value = .ok layout ↔
      (layOut text options').run.value = .ok layout := by
  simp only [layOut_eq_ok_iff, Layout.ofLines_eq_ok_iff, h]

/-- Without keeping going, the layout of a program fails in the same stage with the first failure. -/
theorem layOut_stopping {r : Rejection}
    (h : (layOut text { options with keepGoing := true }).run.value = .error r) :
    ∃ first rest, r.failures = first :: rest ∧
      (layOut text { options with keepGoing := false }).run.value = .error ⟨r.stage, [first]⟩ := by
  rcases layOut_eq_error_iff.mp h with ⟨lineNo, e, hparse, rfl⟩ | ⟨lines, failures, hparse, hrun, rfl⟩
  · exact ⟨_, [], rfl, layOut_eq_error_iff.mpr (.inl ⟨lineNo, e, hparse, rfl⟩)⟩
  · obtain ⟨first, rest, rfl, hstop⟩ := Pass.value_run_stopping Layout.neverFatal_pass hrun
    exact ⟨first, rest, rfl, layOut_eq_error_iff.mpr (.inr ⟨lines, [first], hparse, hstop, rfl⟩)⟩

theorem assemble_stopping {r : Rejection}
    (h : (assemble text { options with keepGoing := true }).run.value = .error r) :
    ∃ first rest, r.failures = first :: rest ∧
      (assemble text { options with keepGoing := false }).run.value = .error ⟨r.stage, [first]⟩ := by
  rcases assemble_eq_error_iff.mp h with hlayOut | ⟨layout, failures, hlayOut, hrun, rfl⟩
  · obtain ⟨first, rest, hfailures, hstop⟩ := layOut_stopping hlayOut
    exact ⟨first, rest, hfailures, assemble_eq_error_iff.mpr (.inl hstop)⟩
  · obtain ⟨first, rest, rfl, hstop⟩ := Pass.value_run_stopping Assembly.neverFatal_pass hrun
    have hlayOut' : (layOut text { options with keepGoing := false }).run.value = .ok layout :=
      (layOut_eq_ok_congr (by rfl)).mp hlayOut
    exact ⟨first, rest, rfl,
      assemble_eq_error_iff.mpr (.inr ⟨layout, [first], hlayOut', hstop, rfl⟩)⟩

theorem failures_of_encoding {r : Rejection}
    (h : (assemble text { options with keepGoing := true }).run.value = .error r)
    (hstage : r.stage = .encoding) :
    ∃ layout, (layOut text { options with keepGoing := true }).run.value = .ok layout ∧
      r.failures = Assembly.refusedAlone layout.labels layout.instructions.toList := by
  rcases assemble_eq_error_iff.mp h with hlayOut | ⟨layout, failures, hlayOut, hrun, rfl⟩
  · rcases layOut_eq_error_iff.mp hlayOut with ⟨_, _, -, rfl⟩ | ⟨_, _, -, -, rfl⟩ <;> cases hstage
  · exact ⟨layout, hlayOut, (Assembly.ofPlaced_eq_error_iff.mp hrun).2⟩

/-- **Keeping going changes the report and nothing else.**  A program has the same assembly with and
without it.  A program that is rejected is rejected in the same stage, and without keeping going by
the first failure alone.  If the last stage rejects a program and keeps going, it reports the
instructions of the layout that cannot be assembled by themselves, in order. -/
theorem keepGoing_only_extends_report (text : String) (options : Options) :
    let going := (assemble text { options with keepGoing := true }).run.value
    let stopping := (assemble text { options with keepGoing := false }).run.value
    (∀ assembly, stopping = .ok assembly ↔ going = .ok assembly) ∧
    (∀ r, going = .error r → ∃ first rest,
      r.failures = first :: rest ∧ stopping = .error ⟨r.stage, [first]⟩) ∧
    ∀ r, going = .error r → r.stage = .encoding →
      ∃ layout, (layOut text { options with keepGoing := true }).run.value = .ok layout ∧
        r.failures = Assembly.refusedAlone layout.labels layout.instructions.toList := by
  refine ⟨fun assembly => ?_, fun r => assemble_stopping, fun r => failures_of_encoding⟩
  exact assemble_eq_ok_congr (by rfl)

/-- Two instructions fail between and behind jumps to the same name, which leave their sites. -/
theorem keepGoing_only_extends_report_between_jumps :
    let text := "j x\nbeq $t0, $t1, x\nj x\nlw $t9, 4\n"
    ∃ first second,
      (assemble text { keepGoing := true }).run.value = .error ⟨.encoding, [first, second]⟩ ∧
      first = ⟨1, 2, .unresolvedLabel "x"⟩ ∧
      (assemble text {}).run.value = .error ⟨.encoding, [first]⟩ ∧
      ∃ layout, (layOut text { keepGoing := true }).run.value = .ok layout ∧
        [first, second] = Assembly.refusedAlone layout.labels layout.instructions.toList := by
  intro text
  have h : (assemble text { keepGoing := true }).run.value =
      .error ⟨.encoding, [⟨1, 2, .unresolvedLabel "x"⟩, ⟨3, 4, .invalidArity "lw" 3 2⟩]⟩ := by
    cbv
  obtain ⟨-, hfirst, halone⟩ := keepGoing_only_extends_report text {}
  obtain ⟨first, rest, hfailures, hstop⟩ := hfirst _ h
  obtain ⟨rfl, -⟩ := List.cons.inj hfailures
  exact ⟨_, _, h, rfl, hstop, halone _ h rfl⟩

end Program

end MipsAssembler
