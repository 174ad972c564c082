/-
Texts that are put together.

A line is read without regard to its neighbours, so two texts with a line feed between them hold what
both of them hold:

* `Line.splitLabel?_eq_some_iff` — what a line with a label looks like;
* `Line.parse_concat_blank` — a blank at the end of a line changes nothing;
* `Source.parse_eq_numbered` — neither the carriage returns at line ends nor an empty last line have
  a part in what a text holds;
* `Source.parse_append`, `Source.parse_append_eq_ok_iff` — the lines of two texts, or the first error
  of them.

Design notes: the second text starts on a line of its own.  Its lines count on from the number of
line feeds before it, also where the first text ends in a line feed and so has an empty last line.
-/
import Mathlib.Data.List.TakeDrop
import Mathlib.Data.List.TakeWhile
import MipsAssembler.Line
import MipsAssembler.Proofs.Outcome

namespace MipsAssembler

open Text (isBlank)

/-! ### A blank at the end of a line -/

namespace Line

variable {c : Char} {cs run rest : List Char}

/-- A line has a label if a run stands in front of a colon, with nothing but blanks around it. -/
theorem splitLabel?_eq_some_iff :
    splitLabel? cs = some (run, rest) ↔
      run ≠ [] ∧ (∀ c ∈ run, isRun c) ∧ ∃ before after,
        (∀ c ∈ before, isBlank c) ∧ (∀ c ∈ after, isBlank c) ∧
          cs = before ++ (run ++ (after ++ ':' :: rest)) := by
  rw [splitLabel?, List.span_eq_takeWhile_dropWhile]
  constructor
  · intro h
    split at h
    case h_1 => cases h
    case h_2 run' rest' hne hspan =>
      obtain ⟨rfl, rfl⟩ := Prod.mk.inj hspan
      split at h
      case h_2 => cases h
      case h_1 rest' hrest =>
        obtain ⟨rfl, rfl⟩ := Prod.mk.inj (Option.some_inj.mp h)
        refine ⟨hne, fun c => List.mem_takeWhile_imp, cs.takeWhile isBlank,
          ((cs.dropWhile isBlank).dropWhile isRun).takeWhile isBlank,
          fun c => List.mem_takeWhile_imp, fun c => List.mem_takeWhile_imp, ?_⟩
        rw [← hrest, List.takeWhile_append_dropWhile, List.takeWhile_append_dropWhile,
          List.takeWhile_append_dropWhile]
  · rintro ⟨hne, hrun, before, after, hbefore, hafter, rfl⟩
    -- The run starts behind the blanks, and ends before the next blank or the colon.
    have hstart : (run ++ (after ++ ':' :: rest)).dropWhile isBlank =
        run ++ (after ++ ':' :: rest) := by
      obtain ⟨c, cs, rfl⟩ := List.exists_cons_of_ne_nil hne
      have hc := hrun c List.mem_cons_self
      rw [isRun, Bool.and_eq_true, Bool.not_eq_true'] at hc
      exact List.dropWhile_cons_of_neg (by simp [hc.1])
    have hend : (after ++ ':' :: rest).takeWhile isRun = [] ∧
        (after ++ ':' :: rest).dropWhile isRun = after ++ ':' :: rest := by
      cases after with
      | nil => simp [isRun]
      | cons c after => simp [isRun, hafter c List.mem_cons_self]
    have hcolon : (after ++ ':' :: rest).dropWhile isBlank = ':' :: rest := by
      rw [List.dropWhile_append_of_pos hafter]
      rfl
    rw [List.dropWhile_append_of_pos hbefore, hstart, List.takeWhile_append_of_pos hrun,
      List.dropWhile_append_of_pos hrun, hend.1, hend.2, List.append_nil]
    split
    case h_1 hspan => exact absurd (Prod.mk.inj hspan).1 hne
    case h_2 hspan =>
      obtain ⟨rfl, rfl⟩ := Prod.mk.inj hspan
      rw [hcolon]
      rfl

/-- A blank at the end stands behind the label and its colon. -/
theorem splitLabel?_concat_blank (hc : isBlank c) :
    splitLabel? (cs ++ [c]) = (splitLabel? cs).map fun (run, rest) => (run, rest ++ [c]) := by
  apply Option.ext
  rintro ⟨run, rest⟩
  simp only [Option.map_eq_some_iff, Prod.exists, Prod.mk.injEq, splitLabel?_eq_some_iff]
  constructor
  · rintro ⟨hne, hrun, before, after, hbefore, hafter, hcs⟩
    -- The last character is not the colon.
    rcases List.eq_nil_or_concat rest with rfl | ⟨rest, c', rfl⟩
    · have hlast : cs ++ [c] = (before ++ (run ++ after)) ++ [':'] := by simpa using hcs
      obtain rfl := List.singleton_inj.mp (List.append_inj' hlast rfl).2
      exact absurd hc (by decide)
    · have hlast : cs ++ [c] = before ++ (run ++ (after ++ ':' :: rest)) ++ [c'] := by
        simpa using hcs
      obtain ⟨rfl, hc'⟩ := List.append_inj' hlast rfl
      obtain rfl := List.singleton_inj.mp hc'
      exact ⟨run, rest, ⟨hne, hrun, before, after, hbefore, hafter, rfl⟩, rfl, by simp⟩
  · rintro ⟨run, rest, ⟨hne, hrun, before, after, hbefore, hafter, rfl⟩, rfl, rfl⟩
    exact ⟨hne, hrun, before, after, hbefore, hafter, by simp⟩

theorem words_concat_separator (hc : isSeparator c) : words (cs ++ [c]) = words cs := by
  rw [words, List.splitOnP_append_cons cs [] hc]
  simp [words]

theorem code_concat (cs : List Char) (c : Char) :
    code (cs ++ [c]) = code cs ∨ code (cs ++ [c]) = code cs ++ [c] := by
  induction cs with
  | nil => cases h : c != '#' <;> simp [code, h]
  | cons x cs ih =>
    simp only [code, List.cons_append, List.takeWhile_cons] at ih ⊢
    split
    · simpa using ih
    · exact .inl rfl

theorem parse_concat_blank (hc : isBlank c) (cs : List Char) (lineNo : Nat) :
    parse (String.ofList (cs ++ [c])) lineNo = parse (String.ofList cs) lineNo := by
  have hseparator : isSeparator c := by simp [isSeparator, hc]
  rw [parse, parse, String.toList_ofList, String.toList_ofList]
  rcases code_concat cs c with hcode | hcode
  · rw [hcode]
  · rw [hcode, splitLabel?_concat_blank hc, words_concat_separator hseparator]
    cases splitLabel? (code cs) with
    | none => rfl
    | some label => simp only [Option.map_some, words_concat_separator hseparator]

/-- No word holds a separator. -/
theorem not_isSeparator_of_mem_words {w : String} (h : w ∈ words cs) :
    ∀ c ∈ w.toList, isSeparator c = false := by
  -- The induction is on all pieces of the split, of which the words are the ones that are not empty.
  have hpieces : ∀ piece ∈ cs.splitOnP isSeparator, ∀ c ∈ piece, isSeparator c = false := by
    clear h
    induction cs with
    | nil => simp
    | cons x cs ih =>
      rw [List.splitOnP_cons_eq_if_modifyHead]
      obtain ⟨first, rest, hsplit⟩ := List.exists_cons_of_ne_nil (List.splitOnP_ne_nil isSeparator cs)
      rw [hsplit] at ih ⊢
      by_cases hx : isSeparator x
      · rw [if_pos hx]
        exact List.forall_mem_cons.mpr ⟨by simp, ih⟩
      · rw [if_neg hx, List.modifyHead_cons]
        obtain ⟨hfirst, hrest⟩ := List.forall_mem_cons.mp ih
        refine List.forall_mem_cons.mpr ⟨List.forall_mem_cons.mpr ⟨?_, hfirst⟩, hrest⟩
        simpa using hx
  rw [words] at h
  obtain ⟨piece, hpiece, rfl⟩ := List.mem_map.mp h
  rw [String.toList_ofList]
  exact hpieces piece (List.mem_filter.mp hpiece).1

/-- The same line, `k` lines further down. -/
def later (k : Nat) (line : Line) : Line := { line with lineNo := line.lineNo + k }

theorem parse_later (text : String) (lineNo k : Nat) :
    parse text (lineNo + k) = (parse text lineNo).map (Option.map (later k)) := by
  rw [parse, parse]
  cases splitLabel? (code text.toList) with
  | none =>
    cases Instruction.ofWords? (words (code text.toList)) <;> rfl
  | some label =>
    cases hlabel : Operand.label (String.ofList label.1) <;> simp [hlabel] <;> rfl

end Line

/-! ### Lines one by one -/

namespace Source

/-- What lines hold that are numbered from `start` on, or the first error with its line number. -/
def numbered (start : Nat) : List (List Char) → Except (Nat × Error) (List Line)
  | [] => .ok []
  | cs :: pieces => do
    let line ← (Line.parse (String.ofList cs) start).mapError (start, ·)
    let lines ← numbered (start + 1) pieces
    return line.toList ++ lines

theorem numbered_append (start : Nat) (pieces pieces' : List (List Char)) :
    numbered start (pieces ++ pieces') =
      numbered start pieces >>= fun lines =>
        (lines ++ ·) <$> numbered (start + pieces.length) pieces' := by
  induction pieces generalizing start with
  | nil =>
    show numbered start pieces' = ([] ++ ·) <$> numbered start pieces'
    simp
  | cons cs pieces ih =>
    have hnumber : start + 1 + pieces.length = start + (pieces.length + 1) := by omega
    rw [List.cons_append, numbered, numbered, ih]
    simp [hnumber]

/-- Lines that stand `k` lines further down. -/
def shifted (k : Nat) (outcome : Except (Nat × Error) (List Line)) :
    Except (Nat × Error) (List Line) :=
  (outcome.map (List.map (Line.later k))).mapError fun (lineNo, error) => (lineNo + k, error)

theorem numbered_later (start k : Nat) (pieces : List (List Char)) :
    numbered (start + k) pieces = shifted k (numbered start pieces) := by
  induction pieces generalizing start with
  | nil => rfl
  | cons cs pieces ih =>
    rw [numbered, numbered, Line.parse_later, Nat.add_right_comm, ih]
    cases Line.parse (String.ofList cs) start with
    | error e => rfl
    | ok line =>
      cases numbered (start + 1) pieces with
      | error e => rfl
      | ok lines => cases line <;> rfl

theorem filterMapM_eq_numbered (start : Nat) (pieces : List (List Char)) :
    (((pieces.map String.ofList).zipIdx start).filterMapM fun (line, lineNo) =>
      (Line.parse line lineNo).mapError (lineNo, ·)) = numbered start pieces := by
  induction pieces generalizing start with
  | nil => rfl
  | cons cs pieces ih =>
    rw [List.map_cons, List.zipIdx_cons, List.filterMapM_cons, ih, numbered]
    dsimp only
    cases Line.parse (String.ofList cs) start with
    | error e => rfl
    | ok line => cases line <;> cases numbered (start + 1) pieces <;> rfl

theorem parse_chomp (cs : List Char) (lineNo : Nat) :
    Line.parse (String.ofList (chomp cs)) lineNo = Line.parse (String.ofList cs) lineNo := by
  rw [chomp]
  split
  case isTrue h =>
    obtain ⟨cs, rfl⟩ := List.getLast?_eq_some_iff.mp h
    rw [List.dropLast_concat, Line.parse_concat_blank (by decide)]
  case isFalse => rfl

theorem numbered_chomp (start : Nat) (pieces : List (List Char)) :
    numbered start (pieces.map chomp) = numbered start pieces := by
  induction pieces generalizing start with
  | nil => rfl
  | cons cs pieces ih => rw [List.map_cons, numbered, numbered, ih, parse_chomp]

/-- A text can be read piece by piece between its line feeds. -/
theorem parse_eq_numbered (text : String) :
    parse text = numbered 1 (text.toList.splitOn '\n') := by
  obtain ⟨ended, last, hpieces⟩ : ∃ ended last, text.toList.splitOn '\n' = ended ++ [last] :=
    ⟨_, _, (List.dropLast_concat_getLast (List.splitOn_ne_nil _ _)).symm⟩
  have hlast : ∀ start, numbered start ([last].filter (!·.isEmpty)) = numbered start [last] := by
    intro start
    cases last <;> rfl
  rw [parse, physicalLines, filterMapM_eq_numbered, hpieces]
  simp only [List.dropLast_concat, List.getLast?_concat, Option.toList_some]
  rw [numbered_append, numbered_append, numbered_chomp, List.length_map, hlast]

theorem parse_append (a b : String) :
    parse (a ++ "\n" ++ b) =
      parse a >>= fun lines =>
        (lines ++ ·) <$> shifted (a.toList.splitOn '\n').length (parse b) := by
  have htoList : (a ++ "\n" ++ b).toList = a.toList ++ '\n' :: b.toList := by simp
  rw [parse_eq_numbered, parse_eq_numbered, parse_eq_numbered, htoList,
    List.splitOn_append_cons_self, numbered_append, numbered_later]

theorem shifted_eq_ok_iff {k : Nat} {outcome : Except (Nat × Error) (List Line)}
    {lines : List Line} :
    shifted k outcome = .ok lines ↔
      ∃ lines', outcome = .ok lines' ∧ lines'.map (Line.later k) = lines := by
  rw [shifted, mapError_eq_ok_iff, map_eq_ok_iff]

/-- Two texts can be read together exactly when each of them can be read. -/
theorem parse_append_eq_ok_iff {a b : String} {lines : List Line} :
    parse (a ++ "\n" ++ b) = .ok lines ↔
      ∃ first second, parse a = .ok first ∧ parse b = .ok second ∧
        lines = first ++ second.map (Line.later (a.toList.splitOn '\n').length) := by
  rw [parse_append, bind_eq_ok_iff]
  simp only [functor_map_eq_ok_iff, shifted_eq_ok_iff]
  constructor
  · rintro ⟨first, hfirst, _, ⟨second, hsecond, rfl⟩, rfl⟩
    exact ⟨first, second, hfirst, hsecond, rfl⟩
  · rintro ⟨first, second, hfirst, hsecond, rfl⟩
    exact ⟨first, hfirst, _, ⟨second, hsecond, rfl⟩, rfl⟩

end Source

end MipsAssembler
