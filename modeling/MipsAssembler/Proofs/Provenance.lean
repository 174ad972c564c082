/-
What the failures of a program point at.

Three streams are walked on the way from a text to its assembly: the physical lines, the lines that hold
something, and the instructions of the layout.  A failure has a position in the stream that was walked
and the number of a physical line, and the two belong together:

* `Layout.exists_of_mem_placements`, `Layout.pairwise_lineNo_placements` — which lines the
  instructions of a layout come from, and in which order;
* `Program.FromLines`, `Program.FromInstructions` — how the failures of the last two stages relate to
  their streams;
* `Program.failures_name_their_lines` — where the failures of a rejected program come from, stage by
  stage.
-/
import MipsAssembler.Proofs.KeepGoing
import MipsAssembler.Proofs.LineOrigin

namespace MipsAssembler

/-! ### The lines of placed instructions -/

namespace Layout

variable {base : Nat} {lines : List Line} {p : Placed}

theorem exists_of_mem_placements (h : p ∈ placements base lines) :
    ∃ line ∈ lines, line.lineNo = p.lineNo ∧ p.instruction ∈ line.expansion := by
  induction lines generalizing base with
  | nil => cases h
  | cons line lines ih =>
    rw [placements_cons, List.mem_append] at h
    rcases h with hhere | hlater
    · obtain ⟨k, hk, rfl⟩ := List.mem_mapIdx.mp hhere
      exact ⟨line, List.mem_cons_self, rfl, List.getElem_mem hk⟩
    · obtain ⟨line', hline', horigin⟩ := ih hlater
      exact ⟨line', List.mem_cons_of_mem _ hline', horigin⟩

/-- Instructions are placed in the order of their lines. -/
theorem pairwise_lineNo_placements (base : Nat)
    (h : lines.Pairwise fun line line' => line.lineNo < line'.lineNo) :
    (placements base lines).Pairwise fun p p' => p.lineNo ≤ p'.lineNo := by
  induction lines generalizing base with
  | nil => exact .nil
  | cons line lines ih =>
    obtain ⟨hfirst, hrest⟩ := List.pairwise_cons.mp h
    have hown : ∀ p ∈ line.expansion.mapIdx fun k i => (⟨i, base + 4 * k, line.lineNo⟩ : Placed),
        p.lineNo = line.lineNo := by
      intro p hp
      obtain ⟨k, hk, rfl⟩ := List.mem_mapIdx.mp hp
      rfl
    rw [placements_cons, List.pairwise_append]
    refine ⟨?_, ih _ hrest, ?_⟩
    · refine List.pairwise_of_forall_mem_list fun p hp p' hp' => ?_
      rw [hown p hp, hown p' hp']
    · -- What is placed later comes from a line further down.
      intro p hp p' hp'
      obtain ⟨line', hline', hlineNo, -⟩ := exists_of_mem_placements hp'
      rw [hown p hp, ← hlineNo]
      exact Nat.le_of_lt (hfirst line' hline')

end Layout

theorem Line.exists_of_mem_expansion {line : Line} {i : Instruction} (h : i ∈ line.expansion) :
    ∃ source is, line.instruction = some source ∧ source.expand = .ok is ∧ i ∈ is := by
  rw [expansion, expand] at h
  cases hsource : line.instruction with
  | none =>
    rw [hsource] at h
    cases h
  | some source =>
    rw [hsource] at h
    dsimp only at h
    split at h
    case h_1 is his => exact ⟨source, is, rfl, his, h⟩
    case h_2 => cases h

/-! ### Failures of the stages -/

namespace Program

/-- Whether failures are those of lines: each is how an attempt to take the line at its position ends, and
has the number of that line. -/
structure FromLines (lines : List Line) (failures : List Failure) : Prop where
  line : ∀ f ∈ failures, ∃ line l, lines[f.index]? = some line ∧ line.lineNo = f.lineNo ∧
    ((Layout.takeLine line).on l).1 = .error f.error
  indexes : failures.Pairwise fun f g => f.index < g.index
  lineNos : failures.Pairwise fun f g => f.lineNo < g.lineNo

/-- Whether `i` is among the instructions that the physical line with number `lineNo` stands for. -/
def StandsOn (text : String) (lineNo : Nat) (i : Instruction) : Prop :=
  ∃ k s line source is, lineNo = k + 1 ∧ (Source.physicalLines text)[k]? = some s ∧
    Line.parse s lineNo = .ok (some line) ∧ line.instruction = some source ∧
    source.expand = .ok is ∧ i ∈ is

/-- Whether failures are those of placed instructions: each is the error of the instruction at its
position, and has the number of a physical line which stands for that instruction. -/
structure FromInstructions (text : String) (layout : Layout) (failures : List Failure) : Prop where
  instruction : ∀ f ∈ failures, ∃ p, layout.instructions[f.index]? = some p ∧ p.lineNo = f.lineNo ∧
    p.emit layout.labels = .error f.error ∧ StandsOn text f.lineNo p.instruction
  indexes : failures.Pairwise fun f g => f.index < g.index
  lineNos : failures.Pairwise fun f g => f.lineNo ≤ g.lineNo

variable {text : String} {options : Options} {lines : List Line} {layout : Layout}
  {failures : List Failure}

theorem fromLines_of_ofLines (hparse : Source.parse text = .ok lines)
    (h : (Layout.ofLines lines options).run.value = .error failures) :
    failures ≠ [] ∧ FromLines lines failures := by
  obtain ⟨hsublist, hne⟩ := Pass.sublist_of_value_run_eq_error Layout.neverFatal_pass h
  refine ⟨hne, ?_, (Pass.pairwise_index_refusals 0 lines _).sublist hsublist, ?_⟩
  · intro f hf
    obtain ⟨line, hline, hlineNo, l, hlook⟩ := Pass.getElem?_of_mem_refusals (hsublist.subset hf)
    exact ⟨line, l, hline, hlineNo, hlook⟩
  · have hlines := Source.pairwise_lineNo_parse hparse
    exact (Pass.pairwise_lineNo_refusals (r := (· < ·)) hlines _).sublist hsublist

/-- Every instruction of a layout stands on a line of the text. -/
theorem standsOn_of_mem_placements (hparse : Source.parse text = .ok lines) {base : Nat} {p : Placed}
    (h : p ∈ Layout.placements base lines) : StandsOn text p.lineNo p.instruction := by
  obtain ⟨line, hline, hlineNo, hmem⟩ := Layout.exists_of_mem_placements h
  obtain ⟨k, s, hs, hk, hread⟩ := Source.exists_of_mem_parse hparse hline
  obtain ⟨source, is, hsource, his, hi⟩ := Line.exists_of_mem_expansion hmem
  rw [← hlineNo, hk]
  exact ⟨k, s, line, source, is, rfl, hs, hread, hsource, his, hi⟩

theorem fromInstructions_of_ofPlaced (hparse : Source.parse text = .ok lines)
    (hlayout : (Layout.ofLines lines options).run.value = .ok layout)
    (h : (Assembly.ofPlaced layout.instructions.toList layout.labels options).run.value =
      .error failures) :
    failures ≠ [] ∧ FromInstructions text layout failures := by
  obtain ⟨hsublist, hne⟩ := Pass.sublist_of_value_run_eq_error Assembly.neverFatal_pass h
  obtain ⟨-, rfl⟩ := Layout.ofLines_eq_ok_iff.mp hlayout
  refine ⟨hne, ?_, (Pass.pairwise_index_refusals 0 _ _).sublist hsublist, ?_⟩
  · intro f hf
    have hmem := hsublist.subset hf
    -- That an instruction is refused does not depend on those before it.
    rw [Assembly.refusals_eq_refusedAlone, Assembly.mem_refusedAlone_iff] at hmem
    obtain ⟨p, hp, hlineNo, hemit⟩ := hmem
    refine ⟨p, by rwa [← Array.getElem?_toList], hlineNo, hemit, ?_⟩
    rw [← hlineNo]
    exact standsOn_of_mem_placements hparse (List.mem_of_getElem? hp)
  · -- Instructions are in the order of their lines, hence so are the failures among them.
    have hplaced := Layout.pairwise_lineNo_placements options.base.toNat
      (Source.pairwise_lineNo_parse hparse)
    exact (Pass.pairwise_lineNo_refusals (r := (· ≤ ·)) hplaced _).sublist hsublist

/-- **The failures of a program name their lines.**  A rejected program has a failure.  If one of its
physical lines cannot be read, the first such line is the only failure, whatever else is wrong.
Otherwise, if its lines have no layout, the failures are those of lines, and no instruction has been
looked at.  Otherwise they are those of instructions, on the physical lines that stand for them. -/
theorem failures_name_their_lines (text : String) (options : Options) (r : Rejection)
    (h : (assemble text options).run.value = .error r) :
    r.failures ≠ [] ∧
    ((∃ k e, Source.FailsAt text k e) →
      ∃ k e, Source.FailsAt text k e ∧ (∀ j < k, ∀ e', ¬Source.FailsAt text j e') ∧
        r = ⟨.reading, [⟨k, k + 1, e⟩]⟩) ∧
    ((¬∃ k e, Source.FailsAt text k e) →
      ∃ lines, Source.parse text = .ok lines ∧
        (∀ failures, (Layout.ofLines lines options).run.value = .error failures →
          r = ⟨.layout, failures⟩ ∧ FromLines lines failures) ∧
        ∀ layout, (Layout.ofLines lines options).run.value = .ok layout →
          r.stage = .encoding ∧ FromInstructions text layout r.failures) := by
  rcases assemble_eq_error_iff.mp h with hlayOut | ⟨layout, failures, hlayOut, hencode, rfl⟩
  · rcases layOut_eq_error_iff.mp hlayOut with
      ⟨lineNo, e, hparse, rfl⟩ | ⟨lines, failures, hparse, hlayout, rfl⟩
    · -- Reading fails, and there is a line to blame for it.
      obtain ⟨k, rfl, hfails, hfirst⟩ := Source.first_failsAt_of_parse hparse
      exact ⟨by simp, fun _ => ⟨k, e, hfails, hfirst, rfl⟩, fun hnone => absurd ⟨k, e, hfails⟩ hnone⟩
    · -- Every line can be read, so the failures are those of the layout.
      obtain ⟨hne, hfrom⟩ := fromLines_of_ofLines hparse hlayout
      refine ⟨hne, ?_, fun _ => ⟨lines, hparse, ?_, ?_⟩⟩
      · intro hfails
        exact absurd hfails (Source.not_failsAt_of_parse hparse)
      · intro failures' hlayout'
        obtain rfl := Except.error.inj (hlayout.symm.trans hlayout')
        exact ⟨rfl, hfrom⟩
      · intro layout hlayout'
        cases hlayout.symm.trans hlayout'
  · obtain ⟨lines, hparse, hlayout⟩ := layOut_eq_ok_iff.mp hlayOut
    -- Every line can be read and laid out, which leaves the instructions to blame.
    obtain ⟨hne, hfrom⟩ := fromInstructions_of_ofPlaced hparse hlayout hencode
    refine ⟨hne, ?_, fun _ => ⟨lines, hparse, ?_, ?_⟩⟩
    · intro hfails
      exact absurd hfails (Source.not_failsAt_of_parse hparse)
    · intro failures' hlayout'
      cases hlayout.symm.trans hlayout'
    · intro layout' hlayout'
      obtain rfl := Except.ok.inj (hlayout.symm.trans hlayout')
      exact ⟨rfl, hfrom⟩

/-- Both instructions of a branch fail, and one below a constant that takes two words. -/
theorem failures_name_their_lines_of_branch :
    let text := "\n# blank lines count\nblt $t0, $x, y\n\nli $t1, 70000\nbogus\n"
    ∃ lines layout failures, Source.parse text = .ok lines ∧
      (Layout.ofLines lines { keepGoing := true }).run.value = .ok layout ∧
      (assemble text { keepGoing := true }).run.value = .error ⟨.encoding, failures⟩ ∧
      failures = [⟨0, 3, .invalidOperand "$x"⟩, ⟨1, 3, .unresolvedLabel "y"⟩,
        ⟨4, 6, .unknownInstruction "bogus"⟩] ∧
      FromInstructions text layout failures := by
  intro text
  have hparse : Source.parse text = .ok [⟨3, none, some ⟨"blt", ["$t0", "$x", "y"]⟩⟩,
      ⟨5, none, some ⟨"li", ["$t1", "70000"]⟩⟩, ⟨6, none, some ⟨"bogus", []⟩⟩] := by
    cbv
  have hlayout : (Layout.ofLines [⟨3, none, some ⟨"blt", ["$t0", "$x", "y"]⟩⟩,
      ⟨5, none, some ⟨"li", ["$t1", "70000"]⟩⟩, ⟨6, none, some ⟨"bogus", []⟩⟩]
      { keepGoing := true }).run.value = .ok
        { next := 20
          instructions := #[⟨⟨"slt", ["$at", "$t0", "$x"]⟩, 0, 3⟩,
            ⟨⟨"bne", ["$at", "$zero", "y"]⟩, 4, 3⟩, ⟨⟨"lui", ["$t1", "1"]⟩, 8, 5⟩,
            ⟨⟨"ori", ["$t1", "$t1", "4464"]⟩, 12, 5⟩, ⟨⟨"bogus", []⟩, 16, 6⟩]
          wordCounts := #[2, 2, 1] } := by
    rfl
  have hencode : (Assembly.ofPlaced [⟨⟨"slt", ["$at", "$t0", "$x"]⟩, 0, 3⟩,
      ⟨⟨"bne", ["$at", "$zero", "y"]⟩, 4, 3⟩, ⟨⟨"lui", ["$t1", "1"]⟩, 8, 5⟩,
      ⟨⟨"ori", ["$t1", "$t1", "4464"]⟩, 12, 5⟩, ⟨⟨"bogus", []⟩, 16, 6⟩] (.empty .distinct)
      { keepGoing := true }).run.value = .error [⟨0, 3, .invalidOperand "$x"⟩,
        ⟨1, 3, .unresolvedLabel "y"⟩, ⟨4, 6, .unknownInstruction "bogus"⟩] := by
    rfl
  have hassemble := assemble_eq_error_iff.mpr
    (.inr ⟨_, _, layOut_eq_ok_iff.mpr ⟨_, hparse, hlayout⟩, hencode, rfl⟩)
  obtain ⟨-, -, hreadable⟩ := failures_name_their_lines text _ _ hassemble
  obtain ⟨lines, hlines, -, hencoding⟩ := hreadable (Source.not_failsAt_of_parse hparse)
  obtain rfl := Except.ok.inj (hparse.symm.trans hlines)
  exact ⟨_, _, _, hparse, hlayout, hassemble, rfl, (hencoding _ hlayout).2⟩

end Program

end MipsAssembler
