/-
What a pass reports.

A pass that keeps going looks at every item, so its failures can be written down without the walk:

* `Pass.refusals` — the failures of all items, in order;
* `Pass.value_run_eq` — a run without refusals succeeds; any other reports all refusals, or the first
  of them if it does not keep going;
* `Pass.exists_of_mem_refusals` — where a refusal comes from;
* `Pass.Traceless` — whether a refused item leaves nothing behind that later items look at;
* `Pass.foldlM_step_omitting` — in such a pass the items that are not refused are accepted on their own,
  and lead to the same state;
* `Pass.value_run_refused_item` — and a refused item is refused in the same way behind those items alone.

Design notes: a fatal error ends a pass even if it was told to keep going, and later items are then not
looked at.  The lemmas here are about passes in which there are no such errors (`Pass.NeverFatal`).
-/
import MipsAssembler.Proofs.PassRun

namespace MipsAssembler

/-! ### Items left out -/

section Omitting

variable {α : Type} {positions positions' : List Nat} {items : List α}

/-- A list without the items at some positions. -/
def omitting (positions : List Nat) (items : List α) : List α :=
  (items.zipIdx.filter fun x => x.2 ∉ positions).map Prod.fst

theorem omitting_append_singleton (positions : List Nat) (items : List α) (item : α) :
    omitting positions (items ++ [item]) =
      omitting positions items ++ if items.length ∈ positions then [] else [item] := by
  rw [omitting, List.zipIdx_append, List.filter_append, List.map_append]
  by_cases h : items.length ∈ positions <;> simp [omitting, h]

/-- Only positions in the list matter. -/
theorem omitting_congr (h : ∀ k < items.length, k ∈ positions ↔ k ∈ positions') :
    omitting positions items = omitting positions' items := by
  rw [omitting, omitting, List.filter_congr]
  intro x hx
  have hlt : x.2 < items.length := (List.mem_zipIdx' hx).1
  simp [h x.2 hlt]

end Omitting

namespace Pass

variable {σ α δ : Type} (p : Pass σ α δ)

/-! ### Refusals -/

/-- The failure of an item at position `index`, if it is refused. -/
def refusal? (index : Nat) (state : σ) (item : α) : Option Failure :=
  match p.look state item with
  | .ok _ => none
  | .error e => some ⟨index, p.lineNo item, e⟩

/-- The failures of items, the first of which has position `index`. -/
def refusals (index : Nat) : List α → σ → List Failure
  | [], _ => []
  | item :: items, state =>
    (p.refusal? index state item).toList ++ refusals (index + 1) items (p.advance state item)

/-- Whether no item is ever refused with a fatal error. -/
def NeverFatal : Prop := ∀ state item, Mild (p.look state item)

variable {p} {index : Nat} {state last : σ} {item : α} {items items' : List α} {f : Failure}

theorem refusal?_of_look {addition : δ} (h : p.look state item = .ok addition) :
    p.refusal? index state item = none := by
  rw [refusal?, h]

theorem refusal?_of_refused {e : Error} (h : p.look state item = .error e) :
    p.refusal? index state item = some ⟨index, p.lineNo item, e⟩ := by
  rw [refusal?, h]

@[simp] theorem refusals_nil : p.refusals index [] state = [] := rfl

@[simp] theorem refusals_singleton :
    p.refusals index [item] state = (p.refusal? index state item).toList := by
  simp [refusals]

theorem refusals_append :
    p.refusals index (items ++ items') state =
      p.refusals index items state ++
        p.refusals (index + items.length) items' (items.foldl p.advance state) := by
  induction items generalizing index state with
  | nil => simp
  | cons item items ih =>
    have hindex : index + 1 + items.length = index + (items.length + 1) := by omega
    simp only [List.cons_append, refusals, ih, hindex, List.append_assoc, List.length_cons,
      List.foldl_cons]

/-- A refusal is that of an item, in the state that the items before it leave behind. -/
theorem exists_of_mem_refusals (h : f ∈ p.refusals index items state) :
    ∃ before item after e, items = before ++ item :: after ∧
      p.look (before.foldl p.advance state) item = .error e ∧
      f = ⟨index + before.length, p.lineNo item, e⟩ := by
  induction items generalizing index state with
  | nil => cases h
  | cons item items ih =>
    rw [refusals, List.mem_append] at h
    rcases h with hhere | hlater
    · cases hlook : p.look state item with
      | ok addition =>
        rw [refusal?_of_look hlook] at hhere
        cases hhere
      | error e =>
        rw [refusal?_of_refused hlook] at hhere
        exact ⟨[], item, items, e, rfl, hlook, List.mem_singleton.mp hhere⟩
    · -- A later refusal has this item in front of it, which moves its position by one.
      obtain ⟨before, item', after, e, rfl, hlook, rfl⟩ := ih hlater
      refine ⟨item :: before, item', after, e, rfl, hlook, ?_⟩
      rw [List.length_cons]
      congr 1
      omega

theorem index_bounds_of_mem_refusals (h : f ∈ p.refusals index items state) :
    index ≤ f.index ∧ f.index < index + items.length := by
  obtain ⟨before, item, after, e, rfl, -, rfl⟩ := exists_of_mem_refusals h
  rw [List.length_append, List.length_cons]
  exact ⟨Nat.le_add_right _ _, by dsimp only; omega⟩

theorem length_not_mem_index_refusals (items : List α) (state : σ) :
    items.length ∉ (p.refusals 0 items state).map Failure.index := by
  intro hmem
  obtain ⟨f, hf, hindex⟩ := List.mem_map.mp hmem
  have := (index_bounds_of_mem_refusals hf).2
  omega

/-- Later items have no part in which of the items before them are refused. -/
theorem mem_index_refusals_append_iff {k : Nat} (hk : k < items.length) :
    k ∈ (p.refusals 0 (items ++ items') state).map Failure.index ↔
      k ∈ (p.refusals 0 items state).map Failure.index := by
  rw [refusals_append, List.map_append, List.mem_append]
  refine or_iff_left fun hmem => ?_
  obtain ⟨g, hg, rfl⟩ := List.mem_map.mp hmem
  have := (index_bounds_of_mem_refusals hg).1
  omega

/-- Where the item of a refusal stands, and why it is refused. -/
theorem getElem?_of_mem_refusals (h : f ∈ p.refusals 0 items state) :
    ∃ item, items[f.index]? = some item ∧ p.lineNo item = f.lineNo ∧
      ∃ state', p.look state' item = .error f.error := by
  obtain ⟨before, item, after, e, rfl, hlook, rfl⟩ := exists_of_mem_refusals h
  exact ⟨item, by simp, rfl, _, hlook⟩

theorem pairwise_index_refusals (index : Nat) (items : List α) (state : σ) :
    (p.refusals index items state).Pairwise fun f g => f.index < g.index := by
  induction items generalizing index state with
  | nil => exact .nil
  | cons item items ih =>
    rw [refusals, List.pairwise_append]
    refine ⟨?_, ih _ _, ?_⟩
    · cases p.refusal? index state item <;> simp
    · intro f hf g hg
      rw [← refusals_singleton] at hf
      have hf' := index_bounds_of_mem_refusals hf
      have hg' := index_bounds_of_mem_refusals hg
      rw [List.length_singleton] at hf'
      omega

/-- Refusals are in the order of their line numbers if the items are. -/
theorem pairwise_lineNo_refusals {r : Nat → Nat → Prop}
    (h : items.Pairwise fun x y => r (p.lineNo x) (p.lineNo y)) (state : σ) :
    (p.refusals 0 items state).Pairwise fun f g => r f.lineNo g.lineNo := by
  refine (pairwise_index_refusals 0 items state).imp_of_mem ?_
  intro f g hf hg hlt
  obtain ⟨x, hx, hxno, -⟩ := getElem?_of_mem_refusals hf
  obtain ⟨y, hy, hyno, -⟩ := getElem?_of_mem_refusals hg
  obtain ⟨hflt, rfl⟩ := List.getElem?_eq_some_iff.mp hx
  obtain ⟨hglt, rfl⟩ := List.getElem?_eq_some_iff.mp hy
  rw [← hxno, ← hyno]
  exact List.pairwise_iff_getElem.mp h _ _ hflt hglt hlt

/-! ### Walks and runs -/

/-- All items are accepted in turn exactly when there are no refusals. -/
theorem foldlM_step_eq_ok_iff_refusals :
    items.foldlM p.step state = .ok last ↔
      p.refusals index items state = [] ∧ items.foldl p.advance state = last := by
  induction items generalizing index state with
  | nil =>
    rw [List.foldlM_nil, pure_eq_ok_iff]
    simp
  | cons item items ih =>
    rw [List.foldlM_cons, refusals, List.foldl_cons, step]
    cases hlook : p.look state item with
    | ok addition =>
      rw [refusal?_of_look hlook]
      exact ih
    | error e =>
      rw [refusal?_of_refused hlook]
      constructor
      · intro h
        cases h
      · intro h
        exact absurd h.1 (List.cons_ne_nil _ _)

/-- A walk that keeps going goes on behind a refused item. -/
theorem walk_cons_of_refused (h : p.NeverFatal) {e : Error} (hlook : p.look state item = .error e)
    (index : Nat) (items : List α) (failures : Array Failure) (log : Array Event) :
    p.walk true index (item :: items) state failures log =
      p.walk true (index + 1) items (p.advance state item)
        (failures.push ⟨index, p.lineNo item, e⟩) (log.push (p.refused item e)) := by
  have hmild : e.isFatal = false := h state item e hlook
  rw [walk_cons, hlook]
  simp [hmild]

/-- A walk that keeps going reports every refusal. -/
theorem walk_keepGoing (h : p.NeverFatal) (items : List α) :
    ∀ (index : Nat) (state : σ) (failures : Array Failure) (log : Array Event),
      (p.walk true index items state failures log).state = items.foldl p.advance state ∧
        (p.walk true index items state failures log).failures.toList =
          failures.toList ++ p.refusals index items state := by
  induction items with
  | nil =>
    intro index state failures log
    simp [walk]
  | cons item items ih =>
    intro index state failures log
    rw [refusals, List.foldl_cons]
    cases hlook : p.look state item with
    | ok addition =>
      rw [walk_cons, hlook, refusal?_of_look hlook]
      exact ih _ _ _ _
    | error e =>
      rw [walk_cons_of_refused h hlook, refusal?_of_refused hlook]
      simpa using ih (index + 1) (p.advance state item) (failures.push ⟨index, p.lineNo item, e⟩)
        (log.push (p.refused item e))

/-- A walk that does not keep going reports the first refusal only. -/
theorem failures_walk_stopping (p : Pass σ α δ) (items : List α) :
    ∀ (index : Nat) (state : σ) (failures : Array Failure) (log : Array Event),
      (p.walk false index items state failures log).failures.toList =
        failures.toList ++ (p.refusals index items state).take 1 := by
  induction items with
  | nil =>
    intro index state failures log
    simp [walk]
  | cons item items ih =>
    intro index state failures log
    rw [walk_cons, refusals]
    cases hlook : p.look state item with
    | ok addition =>
      rw [refusal?_of_look hlook]
      exact ih _ _ _ _
    | error e =>
      rw [refusal?_of_refused hlook]
      simp

/-- A walk that keeps going can be interrupted anywhere and taken up again. -/
theorem walk_append (h : p.NeverFatal) (items items' : List α) :
    ∀ (index : Nat) (state : σ) (failures : Array Failure) (log : Array Event),
      p.walk true index (items ++ items') state failures log =
        p.walk true (index + items.length) items'
          (p.walk true index items state failures log).state
          (p.walk true index items state failures log).failures
          (p.walk true index items state failures log).log := by
  induction items with
  | nil =>
    intro index state failures log
    rfl
  | cons item items ih =>
    intro index state failures log
    have hindex : index + (items.length + 1) = index + 1 + items.length := by omega
    rw [List.cons_append, List.length_cons, hindex]
    cases hlook : p.look state item with
    | ok addition =>
      rw [walk_cons, walk_cons, hlook]
      exact ih _ _ _ _
    | error e =>
      rw [walk_cons_of_refused h hlook, walk_cons_of_refused h hlook]
      exact ih _ _ _ _

/-- What a run comes to, whether it succeeds or not. -/
theorem value_run_eq (h : p.NeverFatal) (keepGoing : Bool) (items : List α) (state : σ) :
    (p.run keepGoing items state).run.value =
      if p.refusals 0 items state = [] then .ok (items.foldl p.advance state)
      else .error (if keepGoing then p.refusals 0 items state
        else (p.refusals 0 items state).take 1) := by
  by_cases hnone : p.refusals 0 items state = []
  · rw [if_pos hnone]
    exact p.value_run_eq_ok_iff.mpr (foldlM_step_eq_ok_iff_refusals.mpr ⟨hnone, rfl⟩)
  · rw [if_neg hnone, run, value_run_mk]
    -- What the pass has gathered is all refusals, or the first one if it stopped there.
    have hfailures : (p.walk keepGoing 0 items state #[] #[]).failures.toList =
        if keepGoing then p.refusals 0 items state else (p.refusals 0 items state).take 1 := by
      cases keepGoing with
      | true => exact (walk_keepGoing h items 0 state #[] #[]).2
      | false => exact failures_walk_stopping p items 0 state #[] #[]
    have hsome : (p.walk keepGoing 0 items state #[] #[]).failures.toList ≠ [] := by
      rw [hfailures]
      cases keepGoing <;> simpa using hnone
    dsimp only
    rw [if_neg (by simpa using hsome), hfailures]

/-- The failures that a run reports are refusals, in the same order. -/
theorem sublist_of_value_run_eq_error (h : p.NeverFatal) {keepGoing : Bool}
    {failures : List Failure} (hrun : (p.run keepGoing items state).run.value = .error failures) :
    failures.Sublist (p.refusals 0 items state) ∧ failures ≠ [] := by
  rw [value_run_eq h] at hrun
  split at hrun
  case isTrue => cases hrun
  case isFalse hne =>
    obtain rfl := Except.error.inj hrun
    cases keepGoing with
    | true => exact ⟨.refl _, hne⟩
    | false => exact ⟨List.take_sublist 1 _, by simpa using hne⟩

/-- A run that does not keep going fails when one that does fails, with the first of its failures. -/
theorem value_run_stopping (h : p.NeverFatal) {failures : List Failure}
    (hrun : (p.run true items state).run.value = .error failures) :
    ∃ first rest, failures = first :: rest ∧
      (p.run false items state).run.value = .error [first] := by
  rw [value_run_eq h] at hrun ⊢
  split at hrun
  case isTrue => cases hrun
  case isFalse hne =>
    obtain rfl := Except.error.inj hrun
    obtain ⟨first, rest, hcons⟩ := List.exists_cons_of_ne_nil hne
    rw [if_neg hne, hcons]
    exact ⟨first, rest, rfl, rfl⟩

/-! ### Runs without the refused items -/

/-- Whether a refused item leaves no trace: `key` is all of a state that items are looked at against, and a
refused item leaves it as it was. -/
structure Traceless {κ : Type} (p : Pass σ α δ) (key : σ → κ) : Prop where
  look_congr : ∀ {state state'}, key state = key state' →
    ∀ item, p.look state item = p.look state' item
  advance_congr : ∀ {state state'}, key state = key state' →
    ∀ item, key (p.advance state item) = key (p.advance state' item)
  refused : ∀ {state item e}, p.look state item = .error e → key (p.advance state item) = key state

variable {κ : Type} {key : σ → κ}

/-- The items that are not refused are accepted one after the other. -/
theorem foldlM_step_omitting (h : p.Traceless key) (items : List α) (state : σ) :
    ∃ last, (omitting ((p.refusals 0 items state).map Failure.index) items).foldlM p.step state =
      .ok last ∧ key last = key (items.foldl p.advance state) := by
  induction items using List.reverseRecOn with
  | nil => exact ⟨state, rfl, rfl⟩
  | append_singleton items item ih =>
    obtain ⟨last, hlast, hkey⟩ := ih
    -- The new position is behind all others, so it takes nothing else away.
    have hkept : omitting ((p.refusals 0 (items ++ [item]) state).map Failure.index) items =
        omitting ((p.refusals 0 items state).map Failure.index) items :=
      omitting_congr fun k hk => mem_index_refusals_append_iff hk
    rw [List.foldl_append, List.foldl_cons, List.foldl_nil, omitting_append_singleton, hkept,
      refusals_append, refusals_singleton, Nat.zero_add]
    cases hlook : p.look (items.foldl p.advance state) item with
    | ok addition =>
      -- Behind the items that are kept the item is looked at against the same key.
      have hlook' : p.look last item = .ok addition := (h.look_congr hkey item).trans hlook
      refine ⟨p.advance last item, ?_, h.advance_congr hkey item⟩
      rw [refusal?_of_look hlook, Option.toList_none, List.append_nil,
        if_neg (length_not_mem_index_refusals items state), List.foldlM_append, hlast]
      show [item].foldlM p.step last = .ok (p.advance last item)
      rw [List.foldlM_cons, p.step_eq_ok_iff.mpr ⟨⟨addition, hlook'⟩, rfl⟩]
      rfl
    | error e =>
      refine ⟨last, ?_, hkey.trans (h.refused hlook).symm⟩
      rw [refusal?_of_refused hlook, List.map_append, if_pos (by simp), List.append_nil, hlast]

/-- A refused item is refused in the same way behind the items before it that are not. -/
theorem value_run_refused_item (h : p.Traceless key) (hmild : p.NeverFatal) (keepGoing : Bool)
    (hf : f ∈ p.refusals 0 items state) :
    ∃ item kept, items[f.index]? = some item ∧ p.lineNo item = f.lineNo ∧
      kept = omitting ((p.refusals 0 items state).map Failure.index) (items.take f.index) ∧
      (p.run keepGoing (kept ++ [item]) state).run.value =
        .error [⟨kept.length, f.lineNo, f.error⟩] := by
  obtain ⟨before, item, after, e, rfl, hlook, rfl⟩ := exists_of_mem_refusals hf
  refine ⟨item, _, by simp, rfl, rfl, ?_⟩
  dsimp only
  rw [Nat.zero_add, List.take_left']
  -- What is refused from this item on has no part in the items before it.
  have hkept : omitting ((p.refusals 0 (before ++ item :: after) state).map Failure.index) before =
      omitting ((p.refusals 0 before state).map Failure.index) before :=
    omitting_congr fun k hk => mem_index_refusals_append_iff hk
  obtain ⟨last, hlast, hkey⟩ := foldlM_step_omitting h before state
  obtain ⟨hnone, hstate⟩ := foldlM_step_eq_ok_iff_refusals.mp hlast
  have hlook' : p.look last item = .error e := (h.look_congr hkey item).trans hlook
  rw [hkept, value_run_eq hmild, refusals_append, hnone, hstate, refusals_singleton,
    refusal?_of_refused hlook']
  cases keepGoing <;> simp
  rfl

end Pass

end MipsAssembler
