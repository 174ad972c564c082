/-
What operands spell.

* `Register.ofSpelling?_eq_some_iff` — a register is read from its name and its numeral and from
  nothing else;
* `Operand.register_eq_ok_iff`, `Operand.number_eq_ok_iff`, `Operand.label_eq_ok_iff` — when each
  reader accepts an operand, and what it then gives.
-/
import MipsAssembler.Operand

namespace MipsAssembler

namespace Register

/-- Whether `s` is the name or the numeral of `r`. -/
def IsSpelled (r : Register) (s : String) : Prop := s = r.name ∨ s = r.numeral

theorem mem_all (r : Register) : r ∈ all :=
  List.mem_map.mpr ⟨r.number, List.mem_finRange r.number, rfl⟩

theorem mem_spellings_iff {s : String} {r : Register} :
    (s, r) ∈ spellings ↔ r.IsSpelled s := by
  simp only [spellings, IsSpelled, List.mem_append, List.mem_map, Prod.mk.injEq]
  constructor
  · rintro (⟨r', -, rfl, rfl⟩ | ⟨r', -, rfl, rfl⟩)
    · exact .inl rfl
    · exact .inr rfl
  · rintro (rfl | rfl)
    · exact .inl ⟨r, r.mem_all, rfl, rfl⟩
    · exact .inr ⟨r, r.mem_all, rfl, rfl⟩

/-- The sixty-four spellings are distinct. -/
theorem nodup_spellings : (spellings.map Prod.fst).Nodup := by
  decide +kernel

/-- A register is read from its two spellings and from nothing else. -/
theorem ofSpelling?_eq_some_iff {s : String} {r : Register} :
    ofSpelling? s = some r ↔ r.IsSpelled s := by
  rw [ofSpelling?, ← mem_spellings_iff]
  constructor
  · intro h
    obtain ⟨before, after, hsplit, -⟩ := List.lookup_eq_some_iff.mp h
    rw [hsplit]
    simp
  · intro h
    obtain ⟨before, after, hsplit⟩ := List.append_of_mem h
    refine List.lookup_eq_some_iff.mpr ⟨before, after, hsplit, fun p hp => ?_⟩
    -- An earlier entry with the same spelling would be a repetition.
    have hnodup := nodup_spellings
    rw [hsplit, List.map_append, List.map_cons, List.nodup_append] at hnodup
    have hne := hnodup.2.2 p.1 (List.mem_map_of_mem hp) s (List.mem_cons_self)
    simpa using Ne.symm hne

end Register

namespace Operand

theorem register_eq_ok_iff {s : String} {r : Register} :
    register s = .ok r ↔ r.IsSpelled s := by
  rw [register, ← Register.ofSpelling?_eq_some_iff]
  cases Register.ofSpelling? s <;> simp

theorem number_eq_ok_iff {s : String} {lower upper v : Int} :
    number s lower upper = .ok v ↔ literal? s.toList = some v ∧ lower ≤ v ∧ v ≤ upper := by
  rw [number]
  cases h : literal? s.toList with
  | none => simp
  | some v' =>
    dsimp only
    by_cases hrange : lower ≤ v' ∧ v' ≤ upper
    · rw [if_pos hrange, Except.ok.injEq, Option.some_inj]
      constructor
      · rintro rfl
        exact ⟨rfl, hrange⟩
      · exact And.left
    · rw [if_neg hrange, Option.some_inj]
      constructor
      · intro hc
        cases hc
      · rintro ⟨rfl, hr⟩
        exact absurd hr hrange

theorem label_eq_ok_iff {s name : String} :
    label s = .ok name ↔ isLabel s.toList ∧ s = name := by
  rw [label]
  split <;> simp [*]

end Operand

end MipsAssembler
