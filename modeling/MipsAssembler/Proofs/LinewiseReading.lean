/-
Texts that are read line by line.

What a text holds is decided by its lines one at a time, so it can be cut behind any line, and how its
lines end makes no difference:

* `Source.parse_append_eq` — two texts with a line feed between them, where the lines of the second count
  on from the line feeds of the first;
* `Source.mem_parse_iff` — what is read are the lines that hold something, each with its own number;
* `Source.parse_eq_error_iff` — a text is given up exactly for its first line that cannot be read;
* `Source.withReturns`, `Source.parse_withReturns` — carriage returns in front of all line feeds;
* `Source.reads_line_by_line` — all of this together.

Design notes: a carriage return in front of a line feed is not part of the line, but one at the end of the
text is, and so is the first of two.  As a blank it never has a part in what a line holds, so the two
kinds need not be told apart.
-/
import Mathlib
import MipsAssembler.Proofs.LineOrigin

namespace MipsAssembler.Source

variable {text : String} {lines : List Line} {line : Line} {start : Nat}
  {pieces pieces' : List (List Char)} {cs : List Char}

/-! ### Two texts -/

/-- There is one line more than there are line feeds. -/
theorem length_splitOn_newline (cs : List Char) :
    (cs.splitOn '\n').length = cs.count '\n' + 1 := by
  induction cs with
  | nil => rfl
  | cons c cs ih =>
    rw [List.splitOn_cons_eq_if_modifyHead]
    by_cases hc : c == '\n'
    · rw [if_pos hc, List.length_cons, ih, List.count_cons, if_pos hc]
    · rw [if_neg hc, List.length_modifyHead, ih, List.count_cons, if_neg hc]

/-- The second text is read as if it stood alone, and counts on from the first. -/
theorem parse_append_eq (a b : String) :
    parse (a ++ "\n" ++ b) =
      match parse a, parse b with
      | .error failure, _ => .error failure
      | .ok _, .error (n, e) => .error (a.toList.count '\n' + 1 + n, e)
      | .ok first, .ok second => .ok (first ++ second.map (Line.later (a.toList.count '\n' + 1))) := by
  rw [parse_append, length_splitOn_newline]
  cases parse a with
  | error failure => rfl
  | ok first =>
    cases parse b with
    | ok second => rfl
    | error failure =>
      -- The number of the failing line is counted from the start of the whole text.
      show Except.error (failure.1 + (a.toList.count '\n' + 1), failure.2) = _
      rw [Nat.add_comm]

/-! ### One line -/

theorem mem_of_numbered {k : Nat} (h : numbered start pieces = .ok lines)
    (hcs : pieces[k]? = some cs) (hline : Line.parse (String.ofList cs) (start + k) = .ok (some line)) :
    line ∈ lines := by
  induction pieces generalizing start k lines with
  | nil => cases hcs
  | cons cs' pieces ih =>
    obtain ⟨here, later, hhere, hlater, rfl⟩ := numbered_cons_eq_ok_iff.mp h
    cases k with
    | zero =>
      obtain rfl := Option.some_inj.mp hcs
      obtain rfl := Except.ok.inj (hhere.symm.trans hline)
      exact List.mem_append_left _ (Option.mem_toList.mpr rfl)
    | succ k =>
      have hnumber : start + (k + 1) = start + 1 + k := by omega
      rw [hnumber] at hline
      exact List.mem_append_right _ (ih hlater hcs hline)

/-- A line is read exactly if it is what a physical line holds. -/
theorem mem_parse_iff (h : parse text = .ok lines) :
    line ∈ lines ↔ ∃ k s, (physicalLines text)[k]? = some s ∧ line.lineNo = k + 1 ∧
      Line.parse s (k + 1) = .ok (some line) := by
  refine ⟨exists_of_mem_parse h, ?_⟩
  rintro ⟨k, s, hs, -, hline⟩
  rw [parse_eq_numbered_physicalLines] at h
  have hcs : ((physicalLines text).map String.toList)[k]? = some s.toList := by
    rw [List.getElem?_map, hs]
    rfl
  rw [Nat.add_comm, ← String.ofList_toList (s := s)] at hline
  exact mem_of_numbered h hcs hline

/-- There is only one first line that cannot be read, and one error for it. -/
theorem parse_eq_error_iff {n : Nat} {e : Error} :
    parse text = .error (n, e) ↔
      ∃ k, n = k + 1 ∧ FailsAt text k e ∧ ∀ j < k, ∀ e', ¬FailsAt text j e' := by
  refine ⟨first_failsAt_of_parse, ?_⟩
  rintro ⟨k, rfl, hk, hbefore⟩
  cases hparse : parse text with
  | ok lines => exact absurd ⟨k, e, hk⟩ (not_failsAt_of_parse hparse)
  | error failure =>
    obtain ⟨k', hk'eq, hk', hbefore'⟩ := first_failsAt_of_parse (e := failure.2) hparse
    -- Two first failing lines are the same line.
    have hfirst : k' = k := by
      by_contra hne
      rcases Nat.lt_or_gt_of_ne hne with hlt | hlt
      · exact hbefore k' hlt _ hk'
      · exact hbefore' k hlt _ hk
    subst hfirst
    obtain ⟨s, hs, hread⟩ := hk
    obtain ⟨s', hs', hread'⟩ := hk'
    obtain rfl := Option.some_inj.mp (hs.symm.trans hs')
    obtain rfl := Except.error.inj (hread.symm.trans hread')
    rw [← hk'eq]

/-! ### Carriage returns -/

/-- A text with a carriage return in front of every line feed. -/
def withReturns (text : String) : String :=
  String.ofList (text.toList.flatMap fun c => if c = '\n' then ['\r', '\n'] else [c])

/-- Whether two pieces are the same up to a carriage return at the end of the second. -/
def SameUpToReturn (cs cs' : List Char) : Prop := cs' = cs ∨ cs' = cs ++ ['\r']

theorem SameUpToReturn.cons {cs cs' : List Char} (h : SameUpToReturn cs cs') (c : Char) :
    SameUpToReturn (c :: cs) (c :: cs') := by
  rcases h with rfl | rfl
  · exact .inl rfl
  · exact .inr rfl

theorem SameUpToReturn.parse_eq {cs cs' : List Char} (h : SameUpToReturn cs cs') (lineNo : Nat) :
    Line.parse (String.ofList cs') lineNo = Line.parse (String.ofList cs) lineNo := by
  rcases h with rfl | rfl
  · rfl
  · exact Line.parse_concat_blank (by decide) cs lineNo

theorem numbered_of_sameUpToReturn (h : List.Forall₂ SameUpToReturn pieces pieces') (start : Nat) :
    numbered start pieces' = numbered start pieces := by
  induction h generalizing start with
  | nil => rfl
  | cons hhead _ ih => rw [numbered, numbered, hhead.parse_eq, ih]

theorem forall₂_modifyHead_cons (h : List.Forall₂ SameUpToReturn pieces pieces') (c : Char) :
    List.Forall₂ SameUpToReturn (pieces.modifyHead (c :: ·)) (pieces'.modifyHead (c :: ·)) := by
  cases h with
  | nil => exact .nil
  | cons hhead htail => exact .cons (hhead.cons c) htail

/-- The line feeds stay where they are, and each piece in front of one gets its return. -/
theorem splitOn_withReturns (cs : List Char) :
    List.Forall₂ SameUpToReturn (cs.splitOn '\n')
      ((cs.flatMap fun c => if c = '\n' then ['\r', '\n'] else [c]).splitOn '\n') := by
  induction cs with
  | nil => exact .cons (.inl rfl) .nil
  | cons c cs ih =>
    rw [List.flatMap_cons, List.splitOn_cons_eq_if_modifyHead]
    by_cases hc : c = '\n'
    · rw [if_pos hc, if_pos (beq_iff_eq.mpr hc)]
      exact .cons (.inr rfl) ih
    · rw [if_neg hc, if_neg (by simpa using hc), List.singleton_append,
        List.splitOn_cons_eq_if_modifyHead, if_neg (by simpa using hc)]
      exact forall₂_modifyHead_cons ih c

theorem parse_withReturns (text : String) : parse (withReturns text) = parse text := by
  rw [parse_eq_numbered, parse_eq_numbered, withReturns, String.toList_ofList]
  exact numbered_of_sameUpToReturn (splitOn_withReturns text.toList) 1

/-- **A text is read line by line.**  Two texts with a line feed between them hold what both of them hold:
the first error of the first, or else that of the second, or else all lines, where the line numbers of
the second count on.  Line numbers start at 1 and increase, every line is what the physical line with its
number holds, and no line that holds something is left out.  An error is that of the first line that cannot
be read.  Carriage returns in front of all line feeds change nothing. -/
theorem reads_line_by_line :
    (∀ a b, parse (a ++ "\n" ++ b) =
      match parse a, parse b with
      | .error failure, _ => .error failure
      | .ok _, .error (n, e) => .error (a.toList.count '\n' + 1 + n, e)
      | .ok first, .ok second => .ok (first ++
          second.map fun line => { line with lineNo := line.lineNo + (a.toList.count '\n' + 1) })) ∧
    (∀ text lines, parse text = .ok lines →
      (lines.Pairwise fun line line' => line.lineNo < line'.lineNo) ∧
      (∀ line ∈ lines, 1 ≤ line.lineNo) ∧
      ∀ line, line ∈ lines ↔ ∃ k s, (physicalLines text)[k]? = some s ∧ line.lineNo = k + 1 ∧
        Line.parse s (k + 1) = .ok (some line)) ∧
    (∀ text n e, parse text = .error (n, e) ↔
      ∃ k, n = k + 1 ∧ FailsAt text k e ∧ ∀ j < k, ∀ e', ¬FailsAt text j e') ∧
    ∀ text, parse (withReturns text) = parse text := by
  refine ⟨parse_append_eq, fun text lines h => ⟨pairwise_lineNo_parse h, ?_, fun line => mem_parse_iff h⟩,
    fun text n e => parse_eq_error_iff, parse_withReturns⟩
  intro line hline
  obtain ⟨k, -, -, hlineNo, -⟩ := (mem_parse_iff h).mp hline
  omega

/-- A text that ends in a line feed, in front of one that starts with an empty line; the same with carriage
returns, and with a line that cannot be read. -/
theorem reads_line_by_line_across_empty_lines :
    parse ("main:\n" ++ "\n" ++ "\njr $ra") =
        .ok [⟨1, some "main", none⟩, ⟨4, none, some ⟨"jr", ["$ra"]⟩⟩] ∧
      parse (withReturns ("main:\n" ++ "\n" ++ "\njr $ra")) =
        .ok [⟨1, some "main", none⟩, ⟨4, none, some ⟨"jr", ["$ra"]⟩⟩] ∧
      parse ("main:\n" ++ "\n" ++ "\n1x: jr $ra") = .error (4, .invalidOperand "1x") := by
  have hmain : parse "main:\n" = .ok [⟨1, some "main", none⟩] := by cbv
  have hreturn : parse "\njr $ra" = .ok [⟨2, none, some ⟨"jr", ["$ra"]⟩⟩] := by cbv
  have hbad : parse "\n1x: jr $ra" = .error (2, .invalidOperand "1x") := by cbv
  obtain ⟨happend, -, -, hreturns⟩ := reads_line_by_line
  have htogether := happend "main:\n" "\njr $ra"
  rw [hmain, hreturn] at htogether
  have hfails := happend "main:\n" "\n1x: jr $ra"
  rw [hmain, hbad] at hfails
  exact ⟨htogether, (hreturns _).trans htogether, hfails⟩

end MipsAssembler.Source
