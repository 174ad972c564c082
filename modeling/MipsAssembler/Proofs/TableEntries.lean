/-
Which entries a symbol table takes, and which it gives back.

* `entryFor_eq_ok_iff` — a table refuses an entry only for its alignment or, where names are
  distinct, for its name;
* `lookup_eq_ok_iff`, `lookup_eq_error_iff` — an address that is looked up belongs to the first entry
  with that name, and there is none if no entry has it;
* `lookup_of_isPrefix` — entries behind those of a table do not change what is found;
* `aligned_of_ofEntries` — a table that was filled entry by entry holds multiples of 4 only.
-/
import MipsAssembler.Proofs.Outcome
import MipsAssembler.SymbolTable

namespace MipsAssembler.SymbolTable

theorem hasName_iff {t : SymbolTable} {name : String} :
    t.hasName name ↔ name ∈ t.symbols.toList.map Symbol.name := by
  rw [hasName, Array.any_eq_true']
  simp

theorem entryFor_eq_ok_iff {t : SymbolTable} {name : String} {address : Nat} {s : Symbol} :
    t.entryFor name address = .ok s ↔
      address % 4 = 0 ∧ ¬(t.mode = .distinct ∧ t.hasName name) ∧ s = ⟨name, address⟩ := by
  rw [entryFor]
  split
  case isTrue hmisaligned => simp [hmisaligned]
  case isFalse haligned =>
    split
    case isTrue hname => simp [hname]
    case isFalse hname =>
      rw [Except.ok.injEq, eq_comm]
      exact ⟨fun h => ⟨by omega, hname, h⟩, fun h => h.2.2⟩

theorem lookup_eq_ok_iff {t : SymbolTable} {name : String} {address : Nat} :
    t.lookup name = .ok address ↔
      ∃ s, t.symbols.toList.find? (·.name == name) = some s ∧ s.address = address := by
  rw [lookup, ← Array.find?_toList]
  cases t.symbols.toList.find? (·.name == name) <;> simp

theorem lookup_eq_error_iff {t : SymbolTable} {name : String} {e : Error} :
    t.lookup name = .error e ↔ ¬t.hasName name ∧ e = .notFound name := by
  rw [hasName_iff, lookup, ← Array.find?_toList]
  cases hfind : t.symbols.toList.find? (·.name == name) with
  | some s =>
    have hname : s.name = name := by simpa using List.find?_some hfind
    have hmem : name ∈ t.symbols.toList.map Symbol.name :=
      List.mem_map.mpr ⟨s, List.mem_of_find?_eq_some hfind, hname⟩
    simp [hmem]
  | none =>
    have hmem : name ∉ t.symbols.toList.map Symbol.name := by
      simpa [List.find?_eq_none] using hfind
    rw [Except.error.injEq, eq_comm]
    exact ⟨fun he => ⟨hmem, he⟩, And.right⟩

theorem mem_of_lookup {t : SymbolTable} {name : String} {address : Nat}
    (h : t.lookup name = .ok address) : ⟨name, address⟩ ∈ t.symbols.toList := by
  obtain ⟨s, hfind, rfl⟩ := lookup_eq_ok_iff.mp h
  have hname : s.name = name := by simpa using List.find?_some hfind
  rw [← hname]
  exact List.mem_of_find?_eq_some hfind

/-- What is found in a table is found in every table that starts with its entries. -/
theorem lookup_of_isPrefix {t t' : SymbolTable} (hstart : t.symbols.toList <+: t'.symbols.toList)
    {name : String} {address : Nat} (h : t.lookup name = .ok address) :
    t'.lookup name = .ok address := by
  obtain ⟨later, hlater⟩ := hstart
  obtain ⟨s, hfind, rfl⟩ := lookup_eq_ok_iff.mp h
  refine lookup_eq_ok_iff.mpr ⟨s, ?_, rfl⟩
  rw [← hlater, List.find?_append, hfind, Option.some_or]

/-! ### Alignment -/

/-- Whether every address of a table is a multiple of 4. -/
def Aligned (t : SymbolTable) : Prop := ∀ s ∈ t.symbols.toList, s.address % 4 = 0

theorem Aligned.insert {t t' : SymbolTable} {name : String} {address : Nat} (ht : t.Aligned)
    (h : t.insert name address = .ok t') : t'.Aligned := by
  obtain ⟨s, hs, rfl⟩ := map_eq_ok_iff.mp h
  obtain ⟨haligned, -, rfl⟩ := entryFor_eq_ok_iff.mp hs
  intro s' hs'
  rw [toList_symbols_push, List.mem_append] at hs'
  rcases hs' with hs' | hs'
  · exact ht s' hs'
  · rw [List.mem_singleton.mp hs']
    exact haligned

theorem Aligned.foldlM_insert {entries : List (String × Nat)} {t t' : SymbolTable}
    (ht : t.Aligned)
    (h : entries.foldlM (fun t (name, address) => t.insert name address) t = .ok t') :
    t'.Aligned := by
  induction entries generalizing t with
  | nil =>
    rw [List.foldlM_nil, pure_eq_ok_iff] at h
    exact h ▸ ht
  | cons entry entries ih =>
    rw [List.foldlM_cons, bind_eq_ok_iff] at h
    obtain ⟨next, hnext, hrest⟩ := h
    exact ih (ht.insert hnext) hrest

theorem aligned_of_ofEntries {mode : NameMode} {entries : List (String × Nat)} {t : SymbolTable}
    (h : ofEntries mode entries = .ok t) : t.Aligned := by
  have hempty : (empty mode).Aligned := fun s hs => absurd hs List.not_mem_nil
  exact hempty.foldlM_insert h

theorem Aligned.lookup {t : SymbolTable} {name : String} {address : Nat} (ht : t.Aligned)
    (h : t.lookup name = .ok address) : address % 4 = 0 :=
  ht _ (mem_of_lookup h)

end MipsAssembler.SymbolTable
