/-
Lines that cannot be laid out.

Nothing of a line is kept unless all of it succeeds, so a refused line has no effect on the lines below
it: no label of it is taken, and no address is passed over.

* `Layout.reported` — the failures of all lines that are refused;
* `Layout.InStep` — what holds of a layout after any number of lines;
* `Layout.refused_lines_leave_no_trace` — the lines that are not refused have a layout of their own,
  which is the one that all lines lead to, and every refused line is refused behind those lines alone.
-/
import Mathlib
import MipsAssembler.Proofs.ErrorKinds

namespace MipsAssembler

theorem Line.totalWords_take_le (lines : List Line) (k : Nat) :
    totalWords (lines.take k) ≤ totalWords lines := by
  conv_rhs => rw [← List.take_append_drop k lines, totalWords_append]
  exact Nat.le_add_right _ _

theorem Placed.length_of_ofInstructions {lineNo : Nat} {is : List Instruction} :
    ∀ {address : Nat} {placed : List Placed},
      ofInstructions lineNo address is = .ok placed → placed.length = is.length := by
  induction is with
  | nil =>
    intro address placed h
    obtain rfl := Except.ok.inj h
    rfl
  | cons i is ih =>
    intro address placed h
    simp only [ofInstructions, bind_eq_ok_iff, pure_eq_ok_iff] at h
    obtain ⟨_, -, rest, hrest, rfl⟩ := h
    rw [List.length_cons, List.length_cons, ih hrest]

namespace Layout

variable {base : Nat} {lines : List Line}

/-- Whether a layout that starts at `base` has kept count: its words are without a gap and within the
address space, and its labels name addresses of words that it has reached. -/
structure InStep (base : Nat) (l : Layout) : Prop where
  next_eq : l.next = base + 4 * l.instructions.size
  next_le : l.next ≤ Address.limit
  labels : ∀ s ∈ l.labels.symbols.toList,
    s.address % 4 = 0 ∧ s.address < Address.limit ∧ s.address ≤ l.next

theorem inStep_closedForm (haligned : base % 4 = 0) (h : Admissible base lines) :
    (closedForm base lines).InStep base where
  next_eq := by
    show base + 4 * Line.totalWords lines = base + 4 * (placements base lines).toArray.size
    rw [List.size_toArray, length_placements]
  next_le := h.wordsFit
  labels := by
    intro s hs
    obtain ⟨k, hk, haddress⟩ := exists_of_mem_entries hs
    -- A label is where its line starts, behind the words of the lines above.
    obtain ⟨line, hline, hlabel⟩ := Option.bind_eq_some_iff.mp hk
    have hfit := h.labelsFit k line s.name hline hlabel
    have hle := Line.totalWords_take_le lines k
    rw [haddress]
    refine ⟨by omega, hfit, ?_⟩
    show _ ≤ base + 4 * Line.totalWords lines
    omega

theorem InStep.of_uncounted {l l' : Layout} (hl : l.InStep base) (h : l.uncounted = l'.uncounted) :
    l'.InStep base := by
  rw [eq_of_uncounted h.symm]
  exact ⟨hl.next_eq, hl.next_le, hl.labels⟩

/-- The state of the pass after some lines is the layout of those that were not refused, but for the
counts. -/
theorem ofLines_omitting (lines : List Line) (options : Options) :
    ∃ layout, (ofLines
        (omitting ((pass.refusals 0 lines (start options.base)).map Failure.index) lines)
        options).run.value = .ok layout ∧
      layout.uncounted = (lines.foldl pass.advance (start options.base)).uncounted := by
  obtain ⟨layout, hlayout, huncounted⟩ :=
    Pass.foldlM_step_omitting traceless_pass lines (start options.base)
  exact ⟨layout, pass.value_run_eq_ok_iff.mpr hlayout, huncounted⟩

theorem inStep_foldl_advance (lines : List Line) (options : Options) :
    (lines.foldl pass.advance (start options.base)).InStep options.base.toNat := by
  obtain ⟨layout, hlayout, huncounted⟩ := ofLines_omitting lines options
  obtain ⟨hadmissible, rfl⟩ := ofLines_eq_ok_iff.mp hlayout
  exact (inStep_closedForm options.aligned hadmissible).of_uncounted huncounted

/-! ### Counts -/

theorem length_placed_of_piece {l : Layout} {line : Line} {p : Piece} (h : l.piece line = .ok p) :
    p.placed.length = line.wordCount := by
  simp only [piece, bind_eq_ok_iff, pure_eq_ok_iff] at h
  obtain ⟨is, his, placed, hplaced, label, -, rfl⟩ := h
  rw [Line.wordCount, Line.expansion_of_expand his]
  exact Placed.length_of_ofInstructions hplaced

/-- How many words each of some lines takes in a pass that refuses the lines at the positions
`refused`. -/
def counts (refused : List Nat) (lines : List Line) : List Nat :=
  lines.zipIdx.map fun (line, k) => if k ∈ refused then 0 else line.wordCount

theorem counts_append_singleton (refused : List Nat) (lines : List Line) (line : Line) :
    counts refused (lines ++ [line]) =
      counts refused lines ++ [if lines.length ∈ refused then 0 else line.wordCount] := by
  simp [counts, List.zipIdx_append]

theorem counts_congr {refused refused' : List Nat}
    (h : ∀ k < lines.length, k ∈ refused ↔ k ∈ refused') :
    counts refused lines = counts refused' lines := by
  refine List.map_congr_left fun x hx => ?_
  simp only [h x.2 (List.mem_zipIdx' hx).1]

/-- Every line is counted, and a refused line has no words. -/
theorem wordCounts_foldl_advance (lines : List Line) (l : Layout) :
    (lines.foldl pass.advance l).wordCounts.toList =
      l.wordCounts.toList ++ counts ((pass.refusals 0 lines l).map Failure.index) lines := by
  induction lines using List.reverseRecOn with
  | nil => simp [counts]
  | append_singleton lines line ih =>
    -- The last line has no part in which of the others were refused.
    have hkept : counts ((pass.refusals 0 (lines ++ [line]) l).map Failure.index) lines =
        counts ((pass.refusals 0 lines l).map Failure.index) lines :=
      counts_congr fun k hk => Pass.mem_index_refusals_append_iff hk
    rw [List.foldl_append, List.foldl_cons, List.foldl_nil, counts_append_singleton, hkept,
      Pass.refusals_append, Pass.refusals_singleton, Nat.zero_add, ← List.append_assoc, ← ih]
    cases hpiece : (lines.foldl pass.advance l).piece line with
    | ok p =>
      rw [advance_of_piece hpiece, Pass.refusal?_of_look ((look_pass _ _).trans hpiece),
        Option.toList_none, List.append_nil,
        if_neg (Pass.length_not_mem_index_refusals lines l), ← length_placed_of_piece hpiece]
      exact Array.toList_push
    | error e =>
      rw [advance_of_refused hpiece, Pass.refusal?_of_refused ((look_pass _ _).trans hpiece),
        if_pos (by simp)]
      exact Array.toList_push

/-! ### Reports -/

/-- The failures of lines that are laid out by a pass that keeps going; there are none if it
succeeds. -/
def reported (lines : List Line) (options : Options) : List Failure :=
  match (ofLines lines { options with keepGoing := true }).run.value with
  | .ok _ => []
  | .error failures => failures

theorem reported_eq_refusals (lines : List Line) (options : Options) :
    reported lines options = pass.refusals 0 lines (start options.base) := by
  rw [reported, ofLines, Pass.value_run_eq neverFatal_pass]
  by_cases h : pass.refusals 0 lines (start options.base) = []
  · rw [if_pos h, h]
  · rw [if_neg h, if_pos rfl]

/-- **A refused line leaves no trace.**  An attempt to take a line that is refused leaves the layout as it
was.  Without the refused lines the others have a layout, and it is the one that the pass over all lines
ends in, but that each refused line is counted there, as one without words.  A refused line that stands
behind the lines above it which are not refused is the only failure, with the same error.  Wherever the pass
over all lines is interrupted, its layout has kept count. -/
theorem refused_lines_leave_no_trace (lines : List Line) (options : Options) :
    let refused := (reported lines options).map Failure.index
    let whole := pass.walk true 0 lines (start options.base) #[] #[]
    (∀ l line e, ((takeLine line).on l).1 = .error e → ((takeLine line).on l).2 = l) ∧
    (∃ layout, (ofLines (omitting refused lines) options).run.value = .ok layout ∧
      whole.state = { layout with wordCounts := (counts refused lines).toArray }) ∧
    (∀ f ∈ reported lines options, ∃ line kept,
      lines[f.index]? = some line ∧ line.lineNo = f.lineNo ∧
      kept = omitting refused (lines.take f.index) ∧
      (ofLines (kept ++ [line]) options).run.value =
        .error [⟨kept.length, f.lineNo, f.error⟩]) ∧
    ∀ before after, lines = before ++ after →
      let reached := pass.walk true 0 before (start options.base) #[] #[]
      whole = pass.walk true before.length after reached.state reached.failures reached.log ∧
        reached.state.InStep options.base.toNat := by
  intro refused whole
  have hrefused : refused = (pass.refusals 0 lines (start options.base)).map Failure.index :=
    congrArg (List.map Failure.index) (reported_eq_refusals lines options)
  -- A pass that keeps going is a fold, and what it reports are the refusals along it.
  have hstate : ∀ lines : List Line, (pass.walk true 0 lines (start options.base) #[] #[]).state =
      lines.foldl pass.advance (start options.base) :=
    fun lines => (Pass.walk_keepGoing neverFatal_pass lines 0 _ _ _).1
  rw [hrefused]
  refine ⟨?_, ?_, ?_, ?_⟩
  · intro l line e h
    exact state_of_refused h
  · -- Both passes end in the same layout but for the counts, and these are known on their own.
    obtain ⟨layout, hlayout, huncounted⟩ := ofLines_omitting lines options
    refine ⟨layout, hlayout, ?_⟩
    have hcounts : (lines.foldl pass.advance (start options.base)).wordCounts =
        (counts ((pass.refusals 0 lines (start options.base)).map Failure.index) lines).toArray :=
      Array.toList_inj.mp (wordCounts_foldl_advance lines (start options.base))
    rw [← hcounts]
    exact (hstate lines).trans (eq_of_uncounted huncounted.symm)
  · intro f hf
    rw [reported_eq_refusals] at hf
    exact Pass.value_run_refused_item traceless_pass neverFatal_pass options.keepGoing hf
  · intro before after hlines
    constructor
    · simpa [whole, hlines] using Pass.walk_append neverFatal_pass before after 0 _ _ _
    · rw [hstate]
      exact inStep_foldl_advance before options

/-- Three lines are refused in front of, between and behind two that fill the address space.  The label
of the first is free for the fourth. -/
theorem refused_lines_leave_no_trace_at_limit :
    let options : Options := { base := 0xFFFFFFF4#32 }
    let first : Line := ⟨2, some "b", some ⟨"jr", ["$ra"]⟩⟩
    let second : Line := ⟨4, some "a", some ⟨"li", ["$t1", "0x12345678"]⟩⟩
    let last : Line := ⟨5, some "end", none⟩
    let lines := [⟨1, some "a", some ⟨"li", ["$t0"]⟩⟩, first, ⟨3, some "b", none⟩, second, last]
    reported lines options = [⟨0, 1, .invalidArity "li" 2 1⟩, ⟨2, 3, .duplicateName "b"⟩,
        ⟨4, 5, .addressOverflow 0xFFFFFFFC⟩] ∧
      ((takeLine last).on { next := Address.limit }).2 = { next := Address.limit } ∧
      (∃ layout, (ofLines [first, second] options).run.value = .ok layout ∧
        (pass.walk true 0 lines (start options.base) #[] #[]).state =
          { layout with wordCounts := #[0, 1, 0, 2, 0] }) ∧
      (ofLines [first, second, last] options).run.value =
        .error [⟨2, 5, .addressOverflow 0xFFFFFFFC⟩] := by
  intro options first second last lines
  have hreported : reported lines options = [⟨0, 1, .invalidArity "li" 2 1⟩,
      ⟨2, 3, .duplicateName "b"⟩, ⟨4, 5, .addressOverflow 0xFFFFFFFC⟩] := by
    cbv
  obtain ⟨hone, hrest, hbehind, -⟩ := refused_lines_leave_no_trace lines options
  rw [hreported] at hrest hbehind
  refine ⟨hreported, hone _ last (.addressOverflow 0xFFFFFFFC) rfl, hrest, ?_⟩
  obtain ⟨line, kept, hline, -, rfl, hlast⟩ := hbehind ⟨4, 5, .addressOverflow 0xFFFFFFFC⟩ (by simp)
  obtain rfl := Option.some_inj.mp hline
  exact hlast

end Layout

end MipsAssembler
