/-
What taking a line does to a layout.

Everything that a line can be refused for is found before anything of it is entered, so a line is taken as
a whole or not at all:

* `Layout.piece`, `Layout.add` — what a line adds to a layout, or why it is refused, and the layout with
  it;
* `Layout.on_takeLine` — how an attempt to take a line ends, and the layout that it leaves behind;
* `Layout.advance_of_piece`, `Layout.advance_of_refused` — the layout behind a line, with its words counted;
* `Layout.traceless_pass` — of a refused line nothing stays but the count.

Design notes: the label of a line is entered first, while its instructions and their addresses are not in
place yet.  Nothing can be refused in between, which is seen from the attempt and not from its type.
-/
import MipsAssembler.Layout
import MipsAssembler.Proofs.PassReport

namespace MipsAssembler.Layout

variable {l l' : Layout} {line : Line} {p : Piece} {e : Error}

/-- The entry for the label of a line. -/
def labelEntry (l : Layout) (line : Line) : Except Error (Option Symbol) :=
  match line.label with
  | some name => Address.check l.next >>= fun address => some <$> l.labels.entryFor name address
  | none => .ok none

/-- What a line adds to a layout, or why it is refused. -/
def piece (l : Layout) (line : Line) : Except Error Piece := do
  let instructions ← line.expand
  let placed ← Placed.ofInstructions line.lineNo l.next instructions
  let label ← l.labelEntry line
  return { placed, label }

/-- A layout with one more piece, and the words of the piece counted. -/
def add (l : Layout) (p : Piece) : Layout where
  next := l.next + 4 * p.placed.length
  instructions := l.instructions ++ p.placed
  wordCounts := l.wordCounts.push p.placed.length
  labels := l.labels.pushIfAny p.label

/-! ### Attempts -/

/-- A label is entered if its address and its name are free to be taken. -/
theorem on_enterLabel (name : String) (l : Layout) :
    (enterLabel name).on l =
      match Address.check l.next >>= fun address => l.labels.entryFor name address with
      | .ok s => (.ok s, { l with labels := l.labels.push s })
      | .error e => (.error e, l) := by
  rw [enterLabel, Attempt.on_get_bind, Attempt.on_ofExcept_bind]
  cases Address.check l.next with
  | error e => rfl
  | ok address =>
    dsimp only
    rw [Attempt.on_ofExcept_bind, ok_bind]
    cases l.labels.entryFor name address <;> rfl

theorem on_enterLabelOf (line : Line) (l : Layout) :
    (enterLabelOf line).on l =
      match l.labelEntry line with
      | .ok label => (.ok label, { l with labels := l.labels.pushIfAny label })
      | .error e => (.error e, l) := by
  rw [enterLabelOf, labelEntry]
  cases line.label with
  | none => rfl
  | some name =>
    dsimp only
    rw [map_eq_pure_bind, Attempt.on_bind, on_enterLabel]
    cases Address.check l.next with
    | error e => rfl
    | ok address =>
      rw [ok_bind, ok_bind]
      cases l.labels.entryFor name address <;> rfl

/-- A line leaves its piece behind, or nothing at all. -/
theorem on_takeLine (line : Line) (l : Layout) :
    (takeLine line).on l =
      match l.piece line with
      | .ok p => (.ok p, { l.add p with wordCounts := l.wordCounts })
      | .error e => (.error e, l) := by
  rw [takeLine, piece, Attempt.on_ofExcept_bind]
  cases line.expand with
  | error e => rfl
  | ok instructions =>
    dsimp only
    rw [Attempt.on_get_bind, Attempt.on_ofExcept_bind, ok_bind]
    cases Placed.ofInstructions line.lineNo l.next instructions with
    | error e => rfl
    | ok placed =>
      -- The label is the last thing that can be refused.
      dsimp only
      rw [Attempt.on_bind, on_enterLabelOf, ok_bind]
      cases l.labelEntry line <;> rfl

theorem state_of_refused (h : ((takeLine line).on l).1 = .error e) : ((takeLine line).on l).2 = l := by
  rw [on_takeLine] at h ⊢
  cases hpiece : l.piece line with
  | ok p =>
    rw [hpiece] at h
    cases h
  | error e => rfl

/-! ### The pass -/

theorem look_pass (l : Layout) (line : Line) : pass.look l line = l.piece line := by
  show ((takeLine line).on l).1 = l.piece line
  rw [on_takeLine]
  cases l.piece line <;> rfl

theorem advance_of_piece (h : l.piece line = .ok p) : pass.advance l line = l.add p := by
  rw [Pass.advance, look_pass, h]
  show countWords (.ok p) ((takeLine line).on l).2 = l.add p
  rw [on_takeLine, h]
  rfl

/-- Behind a refused line a layout is as before, with the words of one more line. -/
theorem advance_of_refused (h : l.piece line = .error e) :
    pass.advance l line = { l with wordCounts := l.wordCounts.push 0 } := by
  rw [Pass.advance, look_pass, h]
  show countWords (.error e) ((takeLine line).on l).2 = { l with wordCounts := l.wordCounts.push 0 }
  rw [on_takeLine, h]
  rfl

/-! ### Layouts without their counts -/

/-- A layout without the words of its lines. -/
def uncounted (l : Layout) : Layout := { l with wordCounts := #[] }

theorem eq_of_uncounted (h : l.uncounted = l'.uncounted) :
    l = { l' with wordCounts := l.wordCounts } :=
  congrArg (fun k : Layout => { k with wordCounts := l.wordCounts }) h

theorem piece_uncounted (l : Layout) (line : Line) : l.uncounted.piece line = l.piece line := rfl

theorem piece_congr (h : l.uncounted = l'.uncounted) (line : Line) : l.piece line = l'.piece line := by
  rw [← piece_uncounted l, h, piece_uncounted]

/-- How many words a line took has no part in what becomes of later lines. -/
theorem traceless_pass : pass.Traceless uncounted where
  look_congr := by
    intro l l' h line
    rw [look_pass, look_pass, piece_congr h]
  advance_congr := by
    intro l l' h line
    have hpiece := piece_congr h line
    cases hl : l.piece line with
    | ok p =>
      rw [advance_of_piece hl, advance_of_piece (hpiece.symm.trans hl)]
      -- Adding a piece only appends to the counts.
      have hadd : ∀ l : Layout, (l.add p).uncounted = (l.uncounted.add p).uncounted := fun _ => rfl
      rw [hadd, h, ← hadd]
    | error e =>
      rw [advance_of_refused hl, advance_of_refused (hpiece.symm.trans hl)]
      exact h
  refused := by
    intro l line e h
    rw [look_pass] at h
    rw [advance_of_refused h]
    rfl

end MipsAssembler.Layout
