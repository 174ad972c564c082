/-
The assembly of placed instructions in closed form.

The labels are fixed before the first instruction is assembled, and relocation sites may repeat, so no
instruction depends on the ones before it:

* `Placed.emit` — what a placed instruction gives, whatever stands before it;
* `Assembly.closedForm` — the words and relocation sites of a list of placed instructions;
* `Assembly.ofPlaced_eq_ok_iff` — placed instructions are assembled to the closed form, provided that
  each of them can be.
-/
import MipsAssembler.Assembly
import MipsAssembler.Proofs.PassRun

namespace MipsAssembler

/-! ### One instruction -/

theorem SymbolTable.entryFor_of_repeating {t : SymbolTable} (h : t.mode = .repeating)
    (name : String) (address : Nat) :
    t.entryFor name address = (empty .repeating).entryFor name address := by
  simp [entryFor, empty, h]

theorem Instruction.emit_of_repeating {relocations : SymbolTable}
    (h : relocations.mode = .repeating) (i : Instruction) (address : Nat) (labels : SymbolTable) :
    i.emit address labels relocations = i.emit address labels (.empty .repeating) := by
  simp only [emit, SymbolTable.entryFor_of_repeating h]

namespace Placed

/-- The word and the relocation site of a placed instruction. -/
def emit (labels : SymbolTable) (p : Placed) : Except Error Emission :=
  p.instruction.emit p.address labels (.empty .repeating)

/-- The emission of a placed instruction that can be assembled. -/
def emission (labels : SymbolTable) (p : Placed) : Emission :=
  match p.emit labels with
  | .ok e => e
  | .error _ => ⟨0, none⟩

theorem emission_of_emit {labels : SymbolTable} {p : Placed} {e : Emission}
    (h : p.emit labels = .ok e) : p.emission labels = e := by
  rw [emission, h]

end Placed

/-! ### The pass -/

namespace Assembly

/-- An instruction leaves its emission behind, or nothing at all. -/
theorem on_takePlaced (p : Placed) (a : Assembly) :
    (takePlaced p).on a =
      match p.instruction.emit p.address a.labels a.relocations with
      | .ok e => (.ok e, a.add e)
      | .error e => (.error e, a) := by
  rw [takePlaced, Attempt.on_get_bind, Attempt.on_ofExcept_bind]
  cases p.instruction.emit p.address a.labels a.relocations <;> rfl

theorem look_pass (a : Assembly) (p : Placed) :
    pass.look a p = p.instruction.emit p.address a.labels a.relocations := by
  show ((takePlaced p).on a).1 = _
  rw [on_takePlaced]
  cases p.instruction.emit p.address a.labels a.relocations <;> rfl

theorem advance_pass (a : Assembly) (p : Placed) :
    pass.advance a p =
      match p.instruction.emit p.address a.labels a.relocations with
      | .ok e => a.add e
      | .error _ => a := by
  show ((takePlaced p).on a).2 = _
  rw [on_takePlaced]
  cases p.instruction.emit p.address a.labels a.relocations <;> rfl

theorem labels_advance (a : Assembly) (p : Placed) : (pass.advance a p).labels = a.labels := by
  rw [advance_pass]
  split <;> rfl

/-! ### All instructions -/

/-- The assembly of a list of placed instructions. -/
def closedForm (labels : SymbolTable) (placed : List Placed) : Assembly where
  words := (placed.map fun p => (p.emission labels).word).toArray
  labels := labels
  relocations :=
    { mode := .repeating
      symbols := (placed.filterMap fun p => (p.emission labels).relocation).toArray }

/-- Whether every placed instruction of a list can be assembled. -/
def Admissible (labels : SymbolTable) (placed : List Placed) : Prop :=
  ∀ p ∈ placed, ∃ e, p.emit labels = .ok e

theorem size_words_closedForm (labels : SymbolTable) (placed : List Placed) :
    (closedForm labels placed).words.size = placed.length := by
  simp [closedForm]

theorem getElem?_words_closedForm {labels : SymbolTable} {placed : List Placed} {i : Nat}
    {p : Placed} {e : Emission} (hp : placed[i]? = some p) (he : p.emit labels = .ok e) :
    (closedForm labels placed).words[i]? = some e.word := by
  rw [← Array.getElem?_toList]
  simp only [closedForm, List.getElem?_map, hp, Option.map_some, Placed.emission_of_emit he]

theorem admissible_singleton_iff {labels : SymbolTable} {p : Placed} :
    Admissible labels [p] ↔ ∃ e, p.emit labels = .ok e := by
  simp [Admissible]

theorem admissible_append_iff {labels : SymbolTable} {placed placed' : List Placed} :
    Admissible labels (placed ++ placed') ↔
      Admissible labels placed ∧ Admissible labels placed' := by
  simp [Admissible, or_imp, forall_and]

theorem add_closedForm (labels : SymbolTable) (placed : List Placed) (p : Placed) :
    (closedForm labels placed).add (p.emission labels) = closedForm labels (placed ++ [p]) := by
  simp only [add, closedForm, mk.injEq, true_and]
  refine ⟨by simp, ?_⟩
  cases h : (p.emission labels).relocation <;> simp [h, SymbolTable.pushIfAny, SymbolTable.push]

/-- An instruction is accepted exactly when it can be assembled, and the assembly keeps its closed
form. -/
theorem step_closedForm_eq_ok_iff {labels : SymbolTable} {placed : List Placed} {p : Placed}
    {next : Assembly} (h : Admissible labels placed) :
    pass.step (closedForm labels placed) p = .ok next ↔
      Admissible labels (placed ++ [p]) ∧ next = closedForm labels (placed ++ [p]) := by
  -- The sites so far are in a table whose names may repeat, so they do not matter.
  have hemit : p.instruction.emit p.address (closedForm labels placed).labels
      (closedForm labels placed).relocations = p.emit labels :=
    Instruction.emit_of_repeating rfl p.instruction p.address labels
  rw [Pass.step_eq_ok_iff, look_pass, hemit, admissible_append_iff, admissible_singleton_iff,
    ← add_closedForm]
  constructor
  · rintro ⟨⟨e, he⟩, rfl⟩
    rw [advance_pass, hemit, he, Placed.emission_of_emit he]
    exact ⟨⟨h, e, rfl⟩, rfl⟩
  · rintro ⟨⟨-, e, he⟩, rfl⟩
    rw [advance_pass, hemit, he, Placed.emission_of_emit he]
    exact ⟨⟨e, rfl⟩, rfl⟩

/-- Placed instructions have an assembly exactly when each of them can be assembled, and it is the
closed form. -/
theorem ofPlaced_eq_ok_iff {placed : List Placed} {labels : SymbolTable} {options : Options}
    {a : Assembly} :
    (ofPlaced placed labels options).run.value = .ok a ↔
      Admissible labels placed ∧ a = closedForm labels placed := by
  rw [ofPlaced, Pass.value_run_eq_ok_iff]
  exact pass.foldlM_step_eq_ok_iff (fun p hp => absurd hp List.not_mem_nil)
    (fun h => (admissible_append_iff.mp h).1) step_closedForm_eq_ok_iff

end Assembly

end MipsAssembler
