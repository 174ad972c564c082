/-
What a run of a pass comes to.

A pass succeeds exactly when every item is accepted in turn, whether or not it was told to keep going
after a failure.  Its state is then that of the plain succession of steps:

* `Pass.look`, `Pass.advance` — how an item ends, and the state behind it;
* `value_run_eq_ok_iff` — a run that succeeds is the fold of `Pass.step` over the items;
* `foldlM_step_eq_ok_iff` — the fold in closed form, from what a single step does.

Design notes: the closed form is a function of the items seen so far.  A step is described on states
of that form only, so its description may use all that is known about the items before it.
-/
import Mathlib.Data.List.Induction
import MipsAssembler.Pass
import MipsAssembler.Proofs.Outcome

namespace MipsAssembler.Pass

variable {σ α δ : Type} (p : Pass σ α δ)

/-! ### One item -/

/-- How an item ends that is taken in some state. -/
def look (state : σ) (item : α) : Except Error δ := ((p.take item).on state).1

/-- The state behind an item, whether it is accepted or refused. -/
def advance (state : σ) (item : α) : σ :=
  p.tally (p.look state item) ((p.take item).on state).2

/-- The state behind an item that is accepted. -/
def step (state : σ) (item : α) : Except Error σ :=
  (p.look state item).map fun _ => p.advance state item

theorem step_eq_ok_iff {state next : σ} {item : α} :
    p.step state item = .ok next ↔
      (∃ addition, p.look state item = .ok addition) ∧ p.advance state item = next := by
  rw [step, map_eq_ok_iff]
  exact ⟨fun ⟨a, ha, hnext⟩ => ⟨⟨a, ha⟩, hnext⟩, fun ⟨⟨a, ha⟩, hnext⟩ => ⟨a, ha, hnext⟩⟩

/-! ### Walks -/

theorem walk_cons (keepGoing : Bool) (index : Nat) (item : α) (items : List α) (state : σ)
    (failures : Array Failure) (log : Array Event) :
    p.walk keepGoing index (item :: items) state failures log =
      match p.look state item with
      | .ok addition =>
        p.walk keepGoing (index + 1) items (p.advance state item) failures
          (log ++ p.accepted addition)
      | .error e =>
        let failures := failures.push ⟨index, p.lineNo item, e⟩
        let log := log.push (p.refused item e)
        if e.isFatal || !keepGoing then { state := p.advance state item, failures, log }
        else p.walk keepGoing (index + 1) items (p.advance state item) failures log :=
  rfl

theorem size_le_size_failures_walk (keepGoing : Bool) (items : List α) :
    ∀ (index : Nat) (state : σ) (failures : Array Failure) (log : Array Event),
      failures.size ≤ (p.walk keepGoing index items state failures log).failures.size := by
  induction items with
  | nil =>
    intro index state failures log
    exact Nat.le_refl _
  | cons item items ih =>
    intro index state failures log
    rw [walk_cons]
    split
    · exact ih _ _ _ _
    · split
      · simp
      · refine Nat.le_trans ?_ (ih _ _ _ _)
        simp

/-- If every item is accepted, the walk ends in the state of the fold and adds no failure. -/
theorem walk_of_foldlM_eq_ok (keepGoing : Bool) {items : List α} :
    ∀ {state last : σ}, items.foldlM p.step state = .ok last →
      ∀ (index : Nat) (failures : Array Failure) (log : Array Event),
        (p.walk keepGoing index items state failures log).state = last ∧
          (p.walk keepGoing index items state failures log).failures = failures := by
  induction items with
  | nil =>
    intro state last h index failures log
    rw [List.foldlM_nil, pure_eq_ok_iff] at h
    exact ⟨h, rfl⟩
  | cons item items ih =>
    intro state last h index failures log
    rw [List.foldlM_cons, bind_eq_ok_iff] at h
    obtain ⟨next, hnext, hrest⟩ := h
    obtain ⟨⟨addition, hlook⟩, rfl⟩ := p.step_eq_ok_iff.mp hnext
    rw [walk_cons, hlook]
    exact ih hrest _ _ _

/-- If some item is refused, the walk adds a failure. -/
theorem size_lt_size_failures_walk (keepGoing : Bool) {items : List α} :
    ∀ {state : σ} {e : Error}, items.foldlM p.step state = .error e →
      ∀ (index : Nat) (failures : Array Failure) (log : Array Event),
        failures.size < (p.walk keepGoing index items state failures log).failures.size := by
  induction items with
  | nil =>
    intro state e h
    cases h
  | cons item items ih =>
    intro state e h index failures log
    rw [List.foldlM_cons] at h
    rw [walk_cons]
    cases hlook : p.look state item with
    | ok addition =>
      rw [step, hlook] at h
      exact ih h _ _ _
    | error e' =>
      -- The failure of this item is added now, and later items take nothing back.
      dsimp only
      split
      · simp
      · refine Nat.lt_of_lt_of_le ?_ (p.size_le_size_failures_walk keepGoing items _ _ _ _)
        simp

/-! ### Runs -/

/-- A run succeeds exactly when the fold of its steps does, and with the same state. -/
theorem value_run_eq_ok_iff {keepGoing : Bool} {items : List α} {state last : σ} :
    (p.run keepGoing items state).run.value = .ok last ↔
      items.foldlM p.step state = .ok last := by
  rw [run, value_run_mk]
  dsimp only
  cases h : items.foldlM p.step state with
  | ok last' =>
    obtain ⟨hstate, hfailures⟩ := p.walk_of_foldlM_eq_ok keepGoing h 0 #[] #[]
    rw [hstate, hfailures]
    simp
  | error e =>
    have hsize := p.size_lt_size_failures_walk keepGoing h 0 #[] #[]
    -- With a failure at hand the run does not report success.
    rw [if_neg]
    · simp
    · rw [Array.isEmpty_iff]
      intro hempty
      rw [hempty] at hsize
      exact absurd hsize (Nat.lt_irrefl _)

/-- The steps of a pass in closed form.  `Admissible` says which items are accepted after which, and
`state` is what accepted items add up to; it is enough to know what one step does. -/
theorem foldlM_step_eq_ok_iff {Admissible : List α → Prop} {state : List α → σ}
    (hnil : Admissible [])
    (hinit : ∀ {items item}, Admissible (items ++ [item]) → Admissible items)
    (hstep : ∀ {items item next}, Admissible items →
      (p.step (state items) item = .ok next ↔
        Admissible (items ++ [item]) ∧ next = state (items ++ [item])))
    {items : List α} {last : σ} :
    items.foldlM p.step (state []) = .ok last ↔ Admissible items ∧ last = state items := by
  induction items using List.reverseRecOn generalizing last with
  | nil =>
    rw [List.foldlM_nil, pure_eq_ok_iff]
    exact ⟨fun h => ⟨hnil, h.symm⟩, fun h => h.2.symm⟩
  | append_singleton items item ih =>
    -- By `ih` the steps before the last one lead to the closed form, if they succeed.
    rw [List.foldlM_append, bind_eq_ok_iff]
    simp only [List.foldlM_cons, List.foldlM_nil, bind_pure]
    constructor
    · rintro ⟨middle, hmiddle, hlast⟩
      obtain ⟨hitems, rfl⟩ := ih.mp hmiddle
      exact (hstep hitems).mp hlast
    · intro h
      have hitems : Admissible items := hinit h.1
      exact ⟨state items, ih.mpr ⟨hitems, rfl⟩, (hstep hitems).mpr h⟩

end MipsAssembler.Pass
