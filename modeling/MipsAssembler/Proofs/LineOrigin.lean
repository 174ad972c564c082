/-
Where the lines of a program come from.

Lines are read one after the other, and one that cannot be read ends the reading.  So what a text holds
can be traced back to its physical lines, and so can the reason why it holds nothing:

* `Source.FailsAt` — a physical line that cannot be read;
* `Source.first_failsAt_of_parse`, `Source.not_failsAt_of_parse` — a text cannot be read exactly if it
  has such a line, and the first of them is blamed;
* `Source.exists_of_mem_parse` — every line that was read is what one physical line holds;
* `Source.pairwise_lineNo_parse` — line numbers increase.
-/
import MipsAssembler.Proofs.SourceLines

namespace MipsAssembler.Source

/-! ### Numbered pieces -/

theorem numbered_cons_eq_ok_iff {start : Nat} {cs : List Char} {pieces : List (List Char)}
    {lines : List Line} :
    numbered start (cs :: pieces) = .ok lines ↔
      ∃ here later, Line.parse (String.ofList cs) start = .ok here ∧
        numbered (start + 1) pieces = .ok later ∧ here.toList ++ later = lines := by
  simp only [numbered, bind_eq_ok_iff, mapError_eq_ok_iff, pure_eq_ok_iff, exists_and_left]

/-- The lines in front of the first one that cannot be read can be read. -/
theorem exists_of_numbered_eq_error {start lineNo : Nat} {pieces : List (List Char)} {e : Error}
    (h : numbered start pieces = .error (lineNo, e)) :
    ∃ before cs after lines, pieces = before ++ cs :: after ∧ lineNo = start + before.length ∧
      Line.parse (String.ofList cs) lineNo = .error e ∧ numbered start before = .ok lines := by
  induction pieces generalizing start with
  | nil => cases h
  | cons cs pieces ih =>
    rw [numbered, bind_eq_error_iff] at h
    -- Either this line fails, or it can be read and a later one fails.
    rcases h with hhere | ⟨line, hline, hlater⟩
    · obtain ⟨e', he', heq⟩ := mapError_eq_error_iff.mp hhere
      obtain ⟨rfl, rfl⟩ := Prod.mk.inj heq
      exact ⟨[], cs, pieces, [], rfl, rfl, he', rfl⟩
    · rcases bind_eq_error_iff.mp hlater with hlater | ⟨lines, -, hpure⟩
      · obtain ⟨before, cs', after, lines, rfl, rfl, he, hbefore⟩ := ih hlater
        refine ⟨cs :: before, cs', after, line.toList ++ lines, rfl, ?_, he, ?_⟩
        · rw [List.length_cons]
          omega
        · exact numbered_cons_eq_ok_iff.mpr
            ⟨line, lines, mapError_eq_ok_iff.mp hline, hbefore, rfl⟩
      · cases hpure

theorem parse_of_numbered_eq_ok {start k : Nat} {pieces : List (List Char)} {lines : List Line}
    {cs : List Char} (h : numbered start pieces = .ok lines) (hcs : pieces[k]? = some cs) :
    ∃ line, Line.parse (String.ofList cs) (start + k) = .ok line := by
  induction pieces generalizing start k lines with
  | nil => cases hcs
  | cons cs' pieces ih =>
    obtain ⟨here, later, hhere, hlater, -⟩ := numbered_cons_eq_ok_iff.mp h
    cases k with
    | zero =>
      obtain rfl := Option.some_inj.mp hcs
      exact ⟨here, hhere⟩
    | succ k =>
      have hnumber : start + (k + 1) = start + 1 + k := by omega
      rw [hnumber]
      exact ih hlater hcs

/-- A line that was read has the number that it was read with. -/
theorem lineNo_of_parse {text : String} {lineNo : Nat} {line : Line}
    (h : Line.parse text lineNo = .ok (some line)) : line.lineNo = lineNo := by
  rw [Line.parse] at h
  split at h
  · obtain ⟨label, -, h⟩ := bind_eq_ok_iff.mp h
    obtain rfl := Option.some_inj.mp (pure_eq_ok_iff.mp h)
    rfl
  · obtain ⟨i, -, rfl⟩ := Option.map_eq_some_iff.mp (pure_eq_ok_iff.mp h)
    rfl

theorem exists_of_mem_numbered {start : Nat} {pieces : List (List Char)} {lines : List Line}
    {line : Line} (h : numbered start pieces = .ok lines) (hline : line ∈ lines) :
    ∃ k cs, pieces[k]? = some cs ∧ line.lineNo = start + k ∧
      Line.parse (String.ofList cs) (start + k) = .ok (some line) := by
  induction pieces generalizing start lines with
  | nil =>
    obtain rfl := Except.ok.inj h
    cases hline
  | cons cs pieces ih =>
    obtain ⟨here, later, hhere, hlater, rfl⟩ := numbered_cons_eq_ok_iff.mp h
    rcases List.mem_append.mp hline with hmem | hmem
    · obtain rfl := Option.mem_toList.mp hmem
      exact ⟨0, cs, rfl, lineNo_of_parse hhere, hhere⟩
    · obtain ⟨k, cs', hcs', hlineNo, hparse⟩ := ih hlater hmem
      -- Counted from the next line on, the number is the same.
      have hnumber : start + 1 + k = start + (k + 1) := by omega
      rw [hnumber] at hlineNo hparse
      exact ⟨k + 1, cs', hcs', hlineNo, hparse⟩

theorem pairwise_lineNo_numbered {start : Nat} {pieces : List (List Char)} {lines : List Line}
    (h : numbered start pieces = .ok lines) :
    lines.Pairwise fun line line' => line.lineNo < line'.lineNo := by
  induction pieces generalizing start lines with
  | nil =>
    obtain rfl := Except.ok.inj h
    exact .nil
  | cons cs pieces ih =>
    obtain ⟨here, later, hhere, hlater, rfl⟩ := numbered_cons_eq_ok_iff.mp h
    rw [List.pairwise_append]
    refine ⟨?_, ih hlater, ?_⟩
    · cases here <;> simp
    · -- Later pieces are read with larger numbers than the first one.
      intro line hline line' hline'
      obtain rfl := Option.mem_toList.mp hline
      obtain ⟨k, -, -, hlineNo, -⟩ := exists_of_mem_numbered hlater hline'
      rw [lineNo_of_parse hhere, hlineNo]
      omega

/-! ### Physical lines -/

/-- A text can be read line by line. -/
theorem parse_eq_numbered_physicalLines (text : String) :
    parse text = numbered 1 ((physicalLines text).map String.toList) := by
  rw [parse, ← filterMapM_eq_numbered, List.map_map]
  simp

/-- Whether the line at position `k` of a text cannot be read. -/
def FailsAt (text : String) (k : Nat) (e : Error) : Prop :=
  ∃ line, (physicalLines text)[k]? = some line ∧ Line.parse line (k + 1) = .error e

/-- A text is given up at its first line that cannot be read. -/
theorem first_failsAt_of_parse {text : String} {lineNo : Nat} {e : Error}
    (h : parse text = .error (lineNo, e)) :
    ∃ k, lineNo = k + 1 ∧ FailsAt text k e ∧ ∀ j < k, ∀ e', ¬FailsAt text j e' := by
  rw [parse_eq_numbered_physicalLines] at h
  obtain ⟨before, cs, after, lines, hpieces, rfl, he, hbefore⟩ := exists_of_numbered_eq_error h
  -- The same lines once as texts and once as lists of characters.
  have hget : ∀ j : Nat, (physicalLines text)[j]?.map String.toList = (before ++ cs :: after)[j]? := by
    intro j
    rw [← hpieces, List.getElem?_map]
  refine ⟨before.length, Nat.add_comm _ _, ?_, ?_⟩
  · have hcs := hget before.length
    rw [List.getElem?_append_right (Nat.le_refl _), Nat.sub_self, List.getElem?_cons_zero] at hcs
    obtain ⟨line, hline, rfl⟩ := Option.map_eq_some_iff.mp hcs
    rw [String.ofList_toList, Nat.add_comm] at he
    exact ⟨line, hline, he⟩
  · rintro j hj e' ⟨line, hline, hparse⟩
    have hcs := hget j
    rw [hline, List.getElem?_append_left hj] at hcs
    obtain ⟨read, hread⟩ := parse_of_numbered_eq_ok hbefore hcs.symm
    rw [String.ofList_toList, Nat.add_comm, hparse] at hread
    cases hread

theorem not_failsAt_of_parse {text : String} {lines : List Line} (h : parse text = .ok lines) :
    ¬∃ k e, FailsAt text k e := by
  rintro ⟨k, e, line, hline, hparse⟩
  rw [parse_eq_numbered_physicalLines] at h
  have hcs : ((physicalLines text).map String.toList)[k]? = some line.toList := by
    rw [List.getElem?_map, hline]
    rfl
  obtain ⟨read, hread⟩ := parse_of_numbered_eq_ok h hcs
  rw [String.ofList_toList, Nat.add_comm, hparse] at hread
  cases hread

/-- What a text holds is what its lines hold, each with its own number. -/
theorem exists_of_mem_parse {text : String} {lines : List Line} {line : Line}
    (h : parse text = .ok lines) (hline : line ∈ lines) :
    ∃ k s, (physicalLines text)[k]? = some s ∧ line.lineNo = k + 1 ∧
      Line.parse s (k + 1) = .ok (some line) := by
  rw [parse_eq_numbered_physicalLines] at h
  obtain ⟨k, cs, hcs, hlineNo, hparse⟩ := exists_of_mem_numbered h hline
  rw [List.getElem?_map] at hcs
  obtain ⟨s, hs, rfl⟩ := Option.map_eq_some_iff.mp hcs
  rw [String.ofList_toList] at hparse
  rw [Nat.add_comm] at hlineNo hparse
  exact ⟨k, s, hs, hlineNo, hparse⟩

theorem pairwise_lineNo_parse {text : String} {lines : List Line} (h : parse text = .ok lines) :
    lines.Pairwise fun line line' => line.lineNo < line'.lineNo := by
  rw [parse_eq_numbered] at h
  exact pairwise_lineNo_numbered h

end MipsAssembler.Source
