/-
Whole runs out of operations that need not have an outcome.

The stages of a program are loops of guarded steps.  They also count, lines of the text and bytes of the
address space, and each counter has a place of its own:

* `Guarded.walk` — a loop of guarded steps, and `Guarded.walk_eq` — it does not get stuck if its steps do
  not;
* `Guarded.readLines`, `Guarded.layOutLines`, `Guarded.encodePlaced` — the stages, and `Guarded.assemble` —
  all of them;
* `Guarded.readLines_eq`, `Guarded.layOutLines_eq`, `Guarded.encodePlaced_eq` — no stage gets stuck;
* `Program.no_operation_gets_stuck` — nothing gets stuck, whatever the instruction or the text.

Design notes: the counter of bytes has sixty-four bits, and an address is checked before it is counted
on, so nothing has to be known about the lines.  The counter of lines is as wide as the length of a text,
and its width is a parameter.
-/
import Mathlib
import MipsAssembler.Proofs.GuardedSteps
import MipsAssembler.Proofs.LinewiseReading
import MipsAssembler.Proofs.ProgramForm
import MipsAssembler.Proofs.RefusedLines

namespace MipsAssembler

/-! ### How many lines a text has -/

namespace Source

/-- The pieces between line feeds and the line feeds are all that there is. -/
theorem sum_length_splitOn_newline (cs : List Char) :
    ((cs.splitOn '\n').map List.length).sum + (cs.splitOn '\n').length = cs.length + 1 := by
  induction cs with
  | nil => rfl
  | cons c cs ih =>
    obtain ⟨piece, pieces, hpieces⟩ := List.exists_cons_of_ne_nil (List.splitOn_ne_nil '\n' cs)
    rw [hpieces] at ih
    rw [List.splitOn_cons_eq_if_modifyHead, hpieces]
    split <;> simp at ih ⊢ <;> omega

theorem length_le_utf8Len (cs : List Char) : cs.length ≤ String.utf8Len cs := by
  induction cs with
  | nil => exact Nat.le_refl _
  | cons c cs ih =>
    have hc := c.utf8Size_pos
    rw [List.length_cons, String.utf8Len_cons]
    omega

/-- Every line takes a byte or more. -/
theorem length_physicalLines_le (text : String) :
    (physicalLines text).length ≤ text.utf8ByteSize := by
  obtain ⟨ended, last, hpieces⟩ : ∃ ended last, text.toList.splitOn '\n' = ended ++ [last] :=
    ⟨_, _, (List.dropLast_concat_getLast (List.splitOn_ne_nil _ _)).symm⟩
  have hsum := sum_length_splitOn_newline text.toList
  have hbytes := length_le_utf8Len text.toList
  rw [String.utf8Len_toList] at hbytes
  rw [hpieces] at hsum
  rw [physicalLines, hpieces]
  cases last <;> simp at hsum ⊢ <;> omega

end Source

/-- What a walk reports at its end. -/
def Pass.Progress.outcome {σ : Type} (done : Progress σ) : Except (List Failure) σ :=
  if done.failures.isEmpty then .ok done.state else .error done.failures.toList

namespace Guarded

/-! ### Loops -/

section Loops

variable {ε ε' α β σ δ : Type} {p : Pass σ α δ}
  {step : σ → α → Guarded (List Failure) (Except Error δ × σ)}

/-- What a computation comes to, be it a result or an error. -/
def attempt (x : Guarded ε α) : Guarded ε' (Except ε α) := ExceptT.lift x.run

theorem attempt_ofExcept (x : Except ε α) : (attempt (ofExcept x) : Guarded ε' _) = pure x := rfl

theorem map_ofExcept (f : α → β) (x : Except ε α) : f <$> ofExcept x = ofExcept (f <$> x) := by
  cases x <;> rfl

theorem adapt_ofExcept (x : Except ε α) (f : ε → ε') :
    (ofExcept x).adapt f = ofExcept (x.mapError f) := by
  cases x <;> rfl

/-- Takes one step for each item, the first of which has position `index`.  A step says how its item ends,
and which state it leaves behind. -/
def walk (step : σ → α → Guarded (List Failure) (Except Error δ × σ)) (lineNo : α → Nat)
    (keepGoing : Bool) : (index : Nat) → List α → σ → List Failure → Guarded (List Failure) σ
  | _, [], state, failures => ofExcept (if failures.isEmpty then .ok state else .error failures)
  | index, item :: items, state, failures => do
    let (outcome, state) ← step state item
    match outcome with
    | .ok _ => walk step lineNo keepGoing (index + 1) items state failures
    | .error e =>
      let failures := failures ++ [⟨index, lineNo item, e⟩]
      if e.isFatal || !keepGoing then ofExcept (.error failures)
      else walk step lineNo keepGoing (index + 1) items state failures

/-- A loop does not get stuck if its steps do not.  It is enough to look at states in which some `Inv`
holds, if no item leads out of them. -/
theorem walk_eq (Inv : σ → Prop) {items : List α}
    (hstep : ∀ state, Inv state → ∀ item ∈ items,
      step state item = pure (p.look state item, p.advance state item))
    (hinv : ∀ state item, Inv state → Inv (p.advance state item)) (keepGoing : Bool) :
    ∀ (index : Nat) (state : σ) (failures : Array Failure) (log : Array Event), Inv state →
      walk step p.lineNo keepGoing index items state failures.toList =
        ofExcept (p.walk keepGoing index items state failures log).outcome := by
  induction items with
  | nil =>
    intro index state failures log _
    rw [walk, Pass.walk, Pass.Progress.outcome, Array.isEmpty_toList]
  | cons item items ih =>
    intro index state failures log h
    -- The invariant is handed on to the rest, which has fewer items to be good for.
    have hrest := ih fun state hstate item hitem => hstep state hstate item (.tail _ hitem)
    have hnext := hinv state item h
    rw [walk, hstep state h item (.head _), pure_bind, Pass.walk_cons]
    cases p.look state item with
    | ok addition => exact hrest _ _ _ _ hnext
    | error e =>
      dsimp only
      rw [← Array.toList_push]
      -- A fatal error stops both passes, and so does any error in a pass that does not keep going.
      by_cases hstop : (e.isFatal || !keepGoing) = true
      · rw [if_pos hstop, if_pos hstop, Pass.Progress.outcome]
        simp
      · rw [if_neg hstop, if_neg hstop]
        exact hrest _ _ _ _ hnext

/-- A loop from the first item on comes to what the pass reports. -/
theorem walk_eq_run (Inv : σ → Prop) {items : List α} {state : σ}
    (hstep : ∀ state, Inv state → ∀ item ∈ items,
      step state item = pure (p.look state item, p.advance state item))
    (hinv : ∀ state item, Inv state → Inv (p.advance state item)) (keepGoing : Bool)
    (h : Inv state) :
    walk step p.lineNo keepGoing 0 items state [] =
      ofExcept (p.run keepGoing items state).run.value :=
  walk_eq Inv hstep hinv keepGoing 0 state #[] #[] h

end Loops

/-! ### Reading -/

section Reading

variable {bits index : Nat} {text : String}

/-- What lines hold, the first of which has position `index`.  The number of a line is one more than its
position. -/
def readFrom (bits : Nat) : (index : Nat) → List String → Guarded (Nat × Error) (List Line)
  | _, [] => return []
  | index, text :: texts => do
    let lineNo ← unsigned bits (index + 1)
    let line ← ofExcept ((Line.parse text lineNo).mapError (lineNo, ·))
    let lines ← readFrom bits (index + 1) texts
    return line.toList ++ lines

/-- The lines of a program.  The position of a line that cannot be read is one less than its number. -/
def readLines (bits : Nat) (text : String) : Guarded Rejection (List Line) := do
  match ← attempt (readFrom bits 0 (Source.physicalLines text)) with
  | .ok lines => return lines
  | .error (lineNo, error) =>
    let index ← unsigned bits (lineNo - 1)
    ofExcept (.error { stage := .reading, failures := [{ index, lineNo, error }] })

theorem readFrom_eq {texts : List String} (h : index + texts.length < 2 ^ bits) :
    readFrom bits index texts =
      ofExcept (Source.numbered (index + 1) (texts.map String.toList)) := by
  induction texts generalizing index with
  | nil => rfl
  | cons text texts ih =>
    rw [List.length_cons] at h
    have hnumber : ((index : Int) + 1) < 2 ^ bits := by
      exact_mod_cast (by omega : index + 1 < 2 ^ bits)
    rw [readFrom, unsigned_of_bounds (by omega) hnumber, pure_bind, List.map_cons, Source.numbered,
      String.ofList_toList]
    refine ofExcept_bind fun line _ => ?_
    rw [ih (by omega)]
    exact ofExcept_bind fun _ _ => rfl

/-- A counter that can hold the length of a text can hold the number of each of its lines. -/
theorem readLines_eq (h : text.utf8ByteSize < 2 ^ bits) :
    readLines bits text = ofExcept (Program.readLines text) := by
  have hlines := Source.length_physicalLines_le text
  rw [readLines, readFrom_eq (by omega), attempt_ofExcept, pure_bind, Program.readLines,
    ← Source.parse_eq_numbered_physicalLines]
  cases hparse : Source.parse text with
  | ok lines => rfl
  | error failure =>
    obtain ⟨lineNo, e⟩ := failure
    obtain ⟨k, rfl, ⟨line, hline, -⟩, -⟩ := Source.first_failsAt_of_parse hparse
    -- A text has fewer lines than bytes, so the counter that was wide enough for these has not run
    -- over.
    have hk : k < 2 ^ bits := by
      have hlt := (List.getElem?_eq_some_iff.mp hline).1
      omega
    have hnumber : (((k + 1 : Nat) : Int) - 1) = k := by omega
    dsimp only
    rw [hnumber, unsigned_of_bounds (by omega) (by exact_mod_cast hk)]
    rfl

end Reading

/-! ### Layout -/

/-- Gives consecutive addresses from `address` on to instructions of one line, with the address behind
them. -/
def place (lineNo : Nat) : (address : Nat) → List Instruction → Guarded Error (List Placed × Nat)
  | address, [] => return ([], address)
  | address, i :: is => do
    let here ← ofExcept (Address.check address)
    let next ← unsigned 64 (address + 4)
    let (placed, last) ← place lineNo next is
    return (⟨i, here, lineNo⟩ :: placed, last)

/-- The machine instructions of a line. -/
def expandLine (line : Line) : Guarded Error (List Instruction) :=
  match line.instruction with
  | some i => expand i
  | none => return []

/-- The instructions of a line with their addresses, and the address behind them. -/
def placeLine (l : Layout) (line : Line) : Guarded Error (List Placed × Nat) := do
  let instructions ← expandLine line
  place line.lineNo l.next instructions

/-- Takes a line. -/
def layLine (l : Layout) (line : Line) :
    Guarded (List Failure) (Except Error Layout.Piece × Layout) := do
  match ← attempt (placeLine l line) with
  | .error e => return (.error e, Layout.countWords (.error e) l)
  | .ok (placed, next) =>
    match (Layout.enterLabelOf line).on l with
    | (.error e, l) => return (.error e, Layout.countWords (.error e) l)
    | (.ok label, l) =>
      let p : Layout.Piece := { placed, label }
      return (.ok p, Layout.countWords (.ok p) { l with instructions := l.instructions ++ placed, next })

/-- The layout of a list of lines. -/
def layOutLines (lines : List Line) (options : Options) : Guarded (List Failure) Layout :=
  walk layLine Line.lineNo options.keepGoing 0 lines (Layout.start options.base) []

/-- An address that was checked can be counted on. -/
theorem place_eq (lineNo address : Nat) (is : List Instruction) :
    place lineNo address is =
      (fun placed => (placed, address + 4 * placed.length)) <$>
        ofExcept (Placed.ofInstructions lineNo address is) := by
  induction is generalizing address with
  | nil => rfl
  | cons i is ih =>
    rw [place, Placed.ofInstructions, map_ofExcept, map_bind]
    refine ofExcept_bind fun here hcheck => ?_
    -- The address was checked, and four more stay far below what the counter can hold.
    obtain ⟨hlt, rfl⟩ := Address.check_eq_ok_iff.mp hcheck
    have hlimit : Address.limit = 0x100000000 := rfl
    have hnext : ((address : Int) + 4).toNat = address + 4 := rfl
    rw [unsigned_of_bounds (by omega) (by omega), pure_bind, hnext, ih, bind_map_left, map_bind]
    refine ofExcept_bind fun placed _ => ?_
    have hlast : address + 4 + 4 * placed.length = address + 4 * (placed.length + 1) := by omega
    rw [hlast]
    rfl

theorem expandLine_eq (line : Line) : expandLine line = ofExcept line.expand := by
  rw [expandLine, Line.expand]
  cases line.instruction with
  | none => rfl
  | some i => exact expand_eq i

theorem placeLine_eq (l : Layout) (line : Line) :
    placeLine l line = ofExcept (line.expand >>= fun is =>
      (fun placed => (placed, l.next + 4 * placed.length)) <$>
        Placed.ofInstructions line.lineNo l.next is) := by
  rw [placeLine, expandLine_eq]
  refine ofExcept_bind fun is _ => ?_
  rw [place_eq, map_ofExcept]

theorem layLine_eq (l : Layout) (line : Line) :
    layLine l line = pure (Layout.pass.look l line, Layout.pass.advance l line) := by
  have hok : ∀ p, l.piece line = .ok p →
      (Layout.pass.look l line, Layout.pass.advance l line) = (.ok p, l.add p) := by
    intro p h
    rw [Layout.look_pass, Layout.advance_of_piece h, h]
  have herror : ∀ e, l.piece line = .error e →
      (Layout.pass.look l line, Layout.pass.advance l line) =
        (.error e, Layout.countWords (.error e) l) := by
    intro e h
    rw [Layout.look_pass, Layout.advance_of_refused h, h]
    rfl
  rw [layLine, placeLine_eq, attempt_ofExcept, pure_bind]
  -- A line is refused for its expansion, for want of room, or for its label.
  cases hexpand : line.expand with
  | error e => rw [herror e (by rw [Layout.piece, hexpand]; rfl)]; rfl
  | ok is =>
    rw [ok_bind]
    cases hplaced : Placed.ofInstructions line.lineNo l.next is with
    | error e => rw [herror e (by rw [Layout.piece, hexpand, ok_bind, hplaced]; rfl)]; rfl
    | ok placed =>
      show (match (Layout.enterLabelOf line).on l with
        | (.error e, l) => _
        | (.ok label, l) => _) = _
      rw [Layout.on_enterLabelOf]
      cases hlabel : l.labelEntry line with
      | error e =>
        rw [herror e (by rw [Layout.piece, hexpand, ok_bind, hplaced, ok_bind, hlabel]; rfl)]
      | ok label =>
        rw [hok _ (by rw [Layout.piece, hexpand, ok_bind, hplaced, ok_bind, hlabel]; rfl)]
        rfl

/-- Lines are laid out without getting stuck. -/
theorem layOutLines_eq (lines : List Line) (options : Options) :
    layOutLines lines options = ofExcept (Layout.ofLines lines options).run.value :=
  walk_eq_run (p := Layout.pass) (fun _ => True) (fun l _ line _ => layLine_eq l line)
    (fun _ _ _ => trivial) options.keepGoing trivial

/-! ### Encoding -/

/-- Takes a placed instruction. -/
def encodeNext (a : Assembly) (p : Placed) :
    Guarded (List Failure) (Except Error Emission × Assembly) := do
  match ← attempt (emit p.instruction p.address a.labels a.relocations) with
  | .ok e => return (.ok e, a.add e)
  | .error e => return (.error e, a)

/-- The assembly of placed instructions. -/
def encodePlaced (instructions : List Placed) (labels : SymbolTable) (options : Options) :
    Guarded (List Failure) Assembly :=
  walk encodeNext Placed.lineNo options.keepGoing 0 instructions { labels } []

/-- Instructions in the address space are assembled without getting stuck, if the labels are there,
too. -/
theorem encodePlaced_eq {instructions : List Placed} {labels : SymbolTable}
    (haddress : ∀ p ∈ instructions, p.address < Address.limit) (hlabels : labels.InAddressSpace)
    (options : Options) :
    encodePlaced instructions labels options =
      ofExcept (Assembly.ofPlaced instructions labels options).run.value := by
  -- The labels stay as they are while relocation sites come in.
  refine walk_eq_run (p := Assembly.pass) (fun a => a.labels = labels) ?_
    (fun a p h => (Assembly.labels_advance a p).trans h) options.keepGoing rfl
  rintro a rfl p hp
  rw [encodeNext, emit_eq p.instruction a.relocations (haddress p hp) hlabels, attempt_ofExcept,
    pure_bind, Assembly.look_pass, Assembly.advance_pass]
  cases p.instruction.emit p.address a.labels a.relocations <;> rfl

/-! ### Programs -/

section Programs

variable {bits : Nat} {text : String} {options : Options} {layout : Layout}

/-- The layout of a program text. -/
def layOut (bits : Nat) (text : String) (options : Options) : Guarded Rejection Layout := do
  let lines ← readLines bits text
  (layOutLines lines options).adapt (Rejection.mk .layout)

/-- The assembly of a program text. -/
def assemble (bits : Nat) (text : String) (options : Options) : Guarded Rejection Assembly := do
  let layout ← layOut bits text options
  (encodePlaced layout.instructions.toList layout.labels options).adapt (Rejection.mk .encoding)

/-- Whatever was laid out lies in the address space. -/
theorem inAddressSpace_of_layOut (h : (Program.layOut text options).run.value = .ok layout) :
    (∀ p ∈ layout.instructions.toList, p.address < Address.limit) ∧ layout.labels.InAddressSpace := by
  obtain ⟨lines, -, hlayout⟩ := Program.layOut_eq_ok_iff.mp h
  obtain ⟨hadmissible, rfl⟩ := Layout.ofLines_eq_ok_iff.mp hlayout
  constructor
  · intro p hp
    obtain ⟨k, hk⟩ := List.mem_iff_getElem?.mp hp
    have hlt : k < Line.totalWords lines := by
      rw [← Layout.length_placements options.base.toNat]
      exact (List.getElem?_eq_some_iff.mp hk).1
    -- There are no more instructions than words that fit behind the base.
    have hfit := hadmissible.wordsFit
    rw [Layout.address_of_getElem?_placements hk]
    omega
  · intro s hs
    exact ((Layout.inStep_closedForm options.aligned hadmissible).labels s hs).2.1

theorem layOut_eq (h : text.utf8ByteSize < 2 ^ bits) (options : Options) :
    layOut bits text options = ofExcept (Program.layOut text options).run.value := by
  simp only [Program.layOut, value_run_bind, value_run_mk, Traced.value_pure, value_run_adapt,
    value_run_log, value_run_pure]
  rw [layOut, readLines_eq h]
  refine ofExcept_bind fun lines _ => ?_
  rw [layOutLines_eq, adapt_ofExcept]
  exact congrArg ofExcept (bind_pure _).symm

theorem assemble_eq (h : text.utf8ByteSize < 2 ^ bits) (options : Options) :
    assemble bits text options = ofExcept (Program.assemble text options).run.value := by
  simp only [Program.assemble, Program.encode, value_run_bind, value_run_adapt, value_run_log,
    value_run_pure]
  rw [assemble, layOut_eq h]
  refine ofExcept_bind fun layout hlayout => ?_
  obtain ⟨haddress, hlabels⟩ := inAddressSpace_of_layOut hlayout
  rw [encodePlaced_eq haddress hlabels, adapt_ofExcept]
  exact congrArg ofExcept (bind_pure _).symm

/-- **No operation gets stuck.**  Out of operations that are undefined behind the last operand, inside a
character and outside the width of a number, everything comes to what it comes to without them: every
instruction with any operands is expanded, and assembled at any address; every operand is read as a number,
whatever its bounds are, and is the same in the place of a shift amount or of an offset; every two addresses
have a distance; any lines are laid out; and a program text is laid out and assembled, if the counter of its
lines can hold its length. -/
theorem no_operation_gets_stuck :
    (∀ i : Instruction, expand i = ofExcept i.expand) ∧
    (∀ (i : Instruction) (address : Word) (labels relocations : SymbolTable),
      labels.InAddressSpace →
        emit i address.toNat labels relocations =
          ofExcept (i.emit address.toNat labels relocations)) ∧
    (∀ s lower upper,
      number s lower upper = ofExcept (Operand.fixedWidthNumber s lower upper)) ∧
    (∀ s v, (number s 0 31 = pure v → ((BitVec.ofInt 8 v).toNat : Int) = v) ∧
      (number s (-0x8000) 0x7FFF = pure v → (BitVec.ofInt 16 v).toInt = v)) ∧
    (∀ address target : Word,
      branchOffset address.toNat target.toNat =
        ofExcept (MipsAssembler.branchOffset address.toNat target.toNat)) ∧
    (∀ lines options,
      layOutLines lines options = ofExcept (Layout.ofLines lines options).run.value) ∧
    ∀ bits text options, text.utf8ByteSize < 2 ^ bits →
      layOut bits text options = ofExcept (Program.layOut text options).run.value ∧
      assemble bits text options = ofExcept (Program.assemble text options).run.value := by
  refine ⟨expand_eq, ?_, number_eq_fixedWidthNumber, ?_, ?_, layOutLines_eq, ?_⟩
  · intro i address labels relocations hlabels
    exact emit_eq i relocations address.isLt hlabels
  · intro s v
    exact ⟨toNat_ofInt_of_number, toInt_ofInt_of_number⟩
  · intro address target
    exact branchOffset_eq address.isLt target.isLt
  · intro bits text options h
    exact ⟨layOut_eq h options, assemble_eq h options⟩

/-- A branch from the first word of the address space to its last, the largest shift amount and the smallest
offset, and two texts with a counter that just holds their length. -/
theorem no_operation_gets_stuck_at_limits :
    emit ⟨"beq", ["$0", "$0", "x"]⟩ 0 ⟨.distinct, #[⟨"x", 0xFFFFFFFC⟩]⟩ (.empty .repeating) =
      ofExcept (.error (.unreachableBranch 0 0xFFFFFFFC)) ∧
    ((BitVec.ofInt 8 31).toNat : Int) = 31 ∧
    (BitVec.ofInt 16 (-0x8000)).toInt = -0x8000 ∧
    assemble 6 "x: blt $t0, $t1, x\nsll $t0, $t0, 31" {} =
      ofExcept (.ok ⟨#[0x0109082A#32, 0x1420FFFE#32, 0x000847C0#32], ⟨.distinct, #[⟨"x", 0⟩]⟩,
        .empty .repeating⟩) ∧
    assemble 4 "x:\n\n2x: jr $ra" {} =
      ofExcept (.error ⟨.reading, [⟨2, 3, .invalidOperand "2x"⟩]⟩) := by
  obtain ⟨-, hemit, -, hcasts, -, -, hprograms⟩ := no_operation_gets_stuck
  refine ⟨?_, ?_, ?_, ?_, ?_⟩
  · have hlabels : SymbolTable.InAddressSpace ⟨.distinct, #[⟨"x", 0xFFFFFFFC⟩]⟩ := by
      intro s hs
      obtain rfl := List.mem_singleton.mp hs
      decide
    refine (hemit ⟨"beq", ["$0", "$0", "x"]⟩ 0 _ _ hlabels).trans ?_
    exact congrArg ofExcept (by cbv)
  · refine (hcasts "31" 31).1 ?_
    rw [number_eq _ (by omega) (by omega)]
    rfl
  · refine (hcasts "-32768" (-0x8000)).2 ?_
    rw [number_eq _ (by omega) (by omega)]
    rfl
  · have hread : Source.parse "x: blt $t0, $t1, x\nsll $t0, $t0, 31" =
        .ok [⟨1, some "x", some ⟨"blt", ["$t0", "$t1", "x"]⟩⟩,
          ⟨2, none, some ⟨"sll", ["$t0", "$t0", "31"]⟩⟩] := by
      cbv
    refine (hprograms 6 _ {} (by decide)).2.trans (congrArg ofExcept ?_)
    exact Program.assemble_eq_ok_iff_assembleLines.mpr ⟨_, hread, by cbv⟩
  · have hread : Source.parse "x:\n\n2x: jr $ra" = .error (3, .invalidOperand "2x") := by
      cbv
    refine (hprograms 4 _ {} (by decide)).2.trans (congrArg ofExcept ?_)
    exact Program.assemble_eq_error_iff.mpr
      (.inl (Program.layOut_eq_error_iff.mpr (.inl ⟨3, _, hread, rfl⟩)))

end Programs

end Guarded
end MipsAssembler
