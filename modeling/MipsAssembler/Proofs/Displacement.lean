/-
Programs at another address.

A branch holds a distance and a jump leaves its target open, so no word depends on where a program
stands.  What moves with the program are the addresses in its tables:

* `Symbol.Displaced`, `Placed.Displaced`, `Emission.Displaced` — the same thing at an address that
  differs by `d`;
* `Placed.emit_displaced` — a placed instruction that is moved keeps its word, provided that every
  label it can name has moved along;
* `Assembly.closedForm_displaced` — the same for all instructions of a program;
* `Program.Admissible.displaced` — the same for lines, which can be assembled elsewhere if they fit;
* `Program.words_independent_of_base` — a program that is assembled elsewhere has the same words.

Design notes: displacements are integers, so that a program can be moved down as well as up.  Labels
need not be in the same table, they only have to be found (`SymbolTable.FoundIn`), and lines need not
have the same numbers (`Line.Alike`), so the lemmas also serve a program that becomes part of another.
-/
import Mathlib
import MipsAssembler.Proofs.ProgramForm
import MipsAssembler.Proofs.Translation

namespace MipsAssembler

/-! ### Symbols -/

/-- Whether `s'` is `s` at an address that is greater by `d`. -/
def Symbol.Displaced (d : Int) (s s' : Symbol) : Prop :=
  s'.name = s.name ∧ (s'.address : Int) = s.address + d

namespace SymbolTable

/-- Whether `t'` lists the names of `t` in the same order, with every address greater by `d`. -/
def Displaced (d : Int) (t t' : SymbolTable) : Prop :=
  t'.mode = t.mode ∧ List.Forall₂ (Symbol.Displaced d) t.symbols.toList t'.symbols.toList

/-- Whether every name that `t` knows is known to `t'`, at an address that is greater by `d`. -/
def FoundIn (d : Int) (t t' : SymbolTable) : Prop :=
  ∀ name address, t.lookup name = .ok address →
    ∃ address', t'.lookup name = .ok address' ∧ (address' : Int) = address + d

/-- The first of some displaced symbols with a name is the first of the symbols with that name. -/
theorem find?_displaced {d : Int} {xs ys : List Symbol}
    (h : List.Forall₂ (Symbol.Displaced d) xs ys) {name : String} {s : Symbol}
    (hs : xs.find? (·.name == name) = some s) :
    ∃ s', ys.find? (·.name == name) = some s' ∧ s.Displaced d s' := by
  induction h with
  | nil => cases hs
  | @cons x y xs ys hxy _ ih =>
    rw [List.find?_cons] at hs ⊢
    rw [hxy.1]
    cases hname : x.name == name with
    | true =>
      rw [hname] at hs
      obtain rfl := Option.some_inj.mp hs
      exact ⟨y, rfl, hxy⟩
    | false =>
      rw [hname] at hs
      exact ih hs

theorem Displaced.foundIn {d : Int} {t t' : SymbolTable} (h : t.Displaced d t') :
    t.FoundIn d t' := by
  intro name address haddress
  obtain ⟨s, hs, rfl⟩ := lookup_eq_ok_iff.mp haddress
  obtain ⟨s', hs', hdisplaced⟩ := find?_displaced h.2 hs
  exact ⟨s'.address, lookup_eq_ok_iff.mpr ⟨s', hs', rfl⟩, hdisplaced.2⟩

end SymbolTable

/-! ### One instruction -/

/-- Whether `p'` is the instruction of `p` at an address that is greater by `d`. -/
def Placed.Displaced (d : Int) (p p' : Placed) : Prop :=
  p'.instruction = p.instruction ∧ (p'.address : Int) = p.address + d

/-- Whether `e'` is `e` with its relocation site, if any, at an address that is greater by `d`. -/
def Emission.Displaced (d : Int) (e e' : Emission) : Prop :=
  e'.word = e.word ∧ Option.Rel (Symbol.Displaced d) e.relocation e'.relocation

/-- Only a branch looks at its address and at the labels, and it finds both moved alike. -/
theorem Mnemonic.resolve_displaced {d : Int} {m : Mnemonic} {operands : List String}
    {address address' : Nat} {labels labels' : SymbolTable} {op : Op}
    (haddress : (address' : Int) = address + d) (hlabels : labels.FoundIn d labels')
    (h : m.resolve operands address labels = .ok op) :
    m.resolve operands address' labels' = .ok op := by
  obtain ⟨rfl, hspelled⟩ := isSpelled_of_resolve h
  cases hspelled with
  | @branch code rs rt offset s t name target hs ht hname htarget hoffset =>
    obtain ⟨target', htarget', hmoved⟩ := hlabels _ _ htarget
    -- The distance is what it was.
    have hoffset' : branchOffset address' target' = .ok offset :=
      branchOffset_eq_ok_iff.mpr (by omega)
    rw [← Operand.register_eq_ok_iff] at hs ht
    rw [← branchTarget_eq_ok_iff] at htarget'
    have hlabel : Operand.label name = .ok name := Operand.label_eq_ok_iff.mpr ⟨hname, rfl⟩
    refine bind_eq_ok_iff.mpr ⟨rs, hs, bind_eq_ok_iff.mpr ⟨rt, ht, ?_⟩⟩
    refine bind_eq_ok_iff.mpr ⟨name, hlabel, bind_eq_ok_iff.mpr ⟨target', htarget', ?_⟩⟩
    exact bind_eq_ok_iff.mpr ⟨offset, hoffset', rfl⟩
  | _ => exact h

theorem Placed.emit_displaced {d : Int} {p p' : Placed} {labels labels' : SymbolTable}
    {e : Emission} (hd : d % 4 = 0) (hp : p.Displaced d p') (hlabels : labels.FoundIn d labels')
    (h : p.emit labels = .ok e) :
    ∃ e', p'.emit labels' = .ok e' ∧ e.Displaced d e' := by
  obtain ⟨hinstruction, haddress⟩ := hp
  unfold emit Instruction.emit at h ⊢
  rw [hinstruction]
  cases hm : Mnemonic.ofText? p.instruction.mnemonic with
  | none =>
    rw [hm] at h
    cases h
  | some m =>
    rw [hm] at h
    simp only [bind_eq_ok_iff, mapError_eq_ok_iff] at h ⊢
    obtain ⟨op, hop, word, hword, h⟩ := h
    have hop' := Mnemonic.resolve_displaced haddress hlabels hop
    -- A jump enters a site at its own address, every other instruction enters none.
    split at h
    case h_1 code name _ =>
      simp only [bind_eq_ok_iff, pure_eq_ok_iff, SymbolTable.entryFor_eq_ok_iff] at h
      obtain ⟨_, ⟨haligned, hnew, rfl⟩, rfl⟩ := h
      refine ⟨⟨word, some ⟨name, p'.address⟩⟩, ⟨op, hop', word, hword, ?_⟩, rfl,
        .some ⟨rfl, haddress⟩⟩
      simp only [bind_eq_ok_iff, pure_eq_ok_iff, SymbolTable.entryFor_eq_ok_iff]
      exact ⟨_, ⟨by omega, hnew, rfl⟩, rfl⟩
    case h_2 =>
      obtain rfl := pure_eq_ok_iff.mp h
      exact ⟨⟨word, none⟩, ⟨op, hop', word, hword, rfl⟩, rfl, .none⟩

/-! ### All instructions -/

/-- Instructions that are moved can still be assembled, and each of them keeps its word. -/
theorem Assembly.emissions_displaced {d : Int} {labels labels' : SymbolTable}
    {placed placed' : List Placed} (hd : d % 4 = 0)
    (hplaced : List.Forall₂ (Placed.Displaced d) placed placed') (hlabels : labels.FoundIn d labels')
    (h : Admissible labels placed) :
    Admissible labels' placed' ∧
      List.Forall₂ (fun p p' => (p.emission labels).Displaced d (p'.emission labels'))
        placed placed' := by
  induction hplaced with
  | nil => exact ⟨fun p hp => absurd hp List.not_mem_nil, .nil⟩
  | @cons p p' placed placed' hp _ ih =>
    obtain ⟨⟨e, he⟩, hrest⟩ := List.forall_mem_cons.mp h
    obtain ⟨e', he', hdisplaced⟩ := Placed.emit_displaced hd hp hlabels he
    obtain ⟨hadmissible, hemissions⟩ := ih hrest
    refine ⟨List.forall_mem_cons.mpr ⟨⟨e', he'⟩, hadmissible⟩, .cons ?_ hemissions⟩
    rw [Placed.emission_of_emit he, Placed.emission_of_emit he']
    exact hdisplaced

/-- The words stay as they are, and the relocation sites move along. -/
theorem Assembly.closedForm_displaced {d : Int} {labels labels' : SymbolTable}
    {placed placed' : List Placed} (hd : d % 4 = 0)
    (hplaced : List.Forall₂ (Placed.Displaced d) placed placed') (hlabels : labels.FoundIn d labels')
    (h : Admissible labels placed) :
    Admissible labels' placed' ∧
      (closedForm labels' placed').words = (closedForm labels placed).words ∧
      (closedForm labels placed).relocations.Displaced d
        (closedForm labels' placed').relocations := by
  obtain ⟨hadmissible, hemissions⟩ := emissions_displaced hd hplaced hlabels h
  refine ⟨hadmissible, congrArg List.toArray ?_, rfl, ?_⟩
  · rw [eq_comm, ← List.forall₂_eq_eq_eq]
    exact List.rel_map (fun _ _ hp => hp.1.symm) hemissions
  · exact List.rel_filterMap (fun _ _ hp => hp.2) hemissions

/-! ### Lines -/

/-- Whether two lines hold the same, whatever their numbers. -/
def Line.Alike (line line' : Line) : Prop :=
  line'.label = line.label ∧ line'.instruction = line.instruction

namespace Line

variable {line line' : Line} {lines lines' : List Line}

theorem Alike.expand_eq (h : line.Alike line') : line'.expand = line.expand := by
  rw [expand, expand, h.2]

theorem Alike.expansion_eq (h : line.Alike line') : line'.expansion = line.expansion := by
  rw [expansion, expansion, h.expand_eq]

theorem Alike.wordCount_eq (h : line.Alike line') : line'.wordCount = line.wordCount := by
  rw [wordCount, wordCount, h.expansion_eq]

theorem filterMap_label_of_alike (h : List.Forall₂ Alike lines lines') :
    lines'.filterMap label = lines.filterMap label := by
  induction h with
  | nil => rfl
  | cons hline _ ih => rw [List.filterMap_cons, List.filterMap_cons, hline.1, ih]

end Line

namespace Layout

variable {d : Int} {base base' : Nat} {lines lines' : List Line}

theorem placements_displaced (h : List.Forall₂ Line.Alike lines lines')
    (hbase : (base' : Int) = base + d) :
    List.Forall₂ (Placed.Displaced d) (placements base lines) (placements base' lines') := by
  induction h generalizing base base' with
  | nil => exact .nil
  | @cons line line' lines lines' hline _ ih =>
    rw [placements_cons, placements_cons, hline.expansion_eq, hline.wordCount_eq]
    refine List.rel_append (List.forall₂_iff_get.mpr ⟨by simp, ?_⟩) (ih (by omega))
    intro k _ _
    simp only [List.get_eq_getElem, List.getElem_mapIdx]
    refine ⟨rfl, ?_⟩
    push_cast
    omega

theorem entries_displaced (h : List.Forall₂ Line.Alike lines lines')
    (hbase : (base' : Int) = base + d) :
    List.Forall₂ (Symbol.Displaced d) (entries base lines) (entries base' lines') := by
  induction h generalizing base base' with
  | nil => exact .nil
  | @cons line line' lines lines' hline _ ih =>
    rw [entries_cons, entries_cons, hline.1, hline.wordCount_eq]
    refine List.rel_append ?_ (ih (by omega))
    cases line.label with
    | none => exact .nil
    | some name => exact .cons ⟨rfl, hbase⟩ .nil

/-- Lines can be laid out elsewhere if they are moved down, or if they end below the limit. -/
theorem Admissible.displaced (h : Admissible base lines)
    (hlines : List.Forall₂ Line.Alike lines lines')
    (hfit : base' ≤ base ∨ base' + 4 * Line.totalWords lines < Address.limit) :
    Admissible base' lines' := by
  induction hlines generalizing base base' with
  | nil =>
    have hbase := h.wordsFit
    rw [Line.totalWords_nil] at hbase hfit
    exact ⟨by simp, by simp, by rw [Line.totalWords_nil]; omega, by simp⟩
  | @cons line line' lines lines' hline hlines ih =>
    rw [← List.singleton_append, admissible_append_iff, admissible_singleton_iff,
      Line.totalWords_singleton] at h ⊢
    rw [← List.singleton_append, Line.totalWords_append, Line.totalWords_singleton] at hfit
    obtain ⟨⟨hexpand, hwords, hlabel⟩, hrest, hnew⟩ := h
    rw [hline.expand_eq, hline.wordCount_eq, hline.1, Line.filterMap_label_of_alike hlines,
      Line.filterMap_label_of_alike (.cons hline .nil)]
    refine ⟨⟨hexpand, by omega, fun name hname => ?_⟩, ih hrest (by omega), hnew⟩
    -- Below the old base there is room for what had room before.
    have := hlabel name hname
    omega

theorem labels_closedForm_displaced (h : List.Forall₂ Line.Alike lines lines')
    (hbase : (base' : Int) = base + d) :
    (closedForm base lines).labels.Displaced d (closedForm base' lines').labels :=
  ⟨rfl, entries_displaced h hbase⟩

end Layout

/-! ### Programs -/

namespace Program

variable {d : Int} {base base' : Nat} {lines lines' : List Line}

theorem Admissible.displaced (h : Admissible base lines)
    (hlines : List.Forall₂ Line.Alike lines lines') (hd : d % 4 = 0)
    (hbase : (base' : Int) = base + d)
    (hfit : base' ≤ base ∨ base' + 4 * Line.totalWords lines < Address.limit) :
    Admissible base' lines' ∧
      (closedForm base' lines').words = (closedForm base lines).words ∧
      (closedForm base lines).labels.Displaced d (closedForm base' lines').labels ∧
      (closedForm base lines).relocations.Displaced d (closedForm base' lines').relocations := by
  have hlabels := Layout.labels_closedForm_displaced hlines hbase
  obtain ⟨hencoding, hwords, hrelocations⟩ :=
    Assembly.closedForm_displaced hd (Layout.placements_displaced hlines hbase) hlabels.foundIn
      h.encoding
  exact ⟨⟨h.layout.displaced hlines hfit, hencoding⟩, hwords, hlabels, hrelocations⟩

/-- **A program can be assembled anywhere, to the same words.**  If a program has an assembly at one
base, then it has one at every base that is not above it, and at every base from which the words end
below the limit.  Both assemblies have the same words, and the tables list the same names in the same
order, with every address changed by the distance of the bases. -/
theorem words_independent_of_base (text : String) (options options' : Options)
    (assembly : Assembly) (h : (assemble text options).run.value = .ok assembly)
    (hfit : options'.base.toNat ≤ options.base.toNat ∨
      options'.base.toNat + 4 * assembly.words.size < Address.limit) :
    ∃ assembly', (assemble text options').run.value = .ok assembly' ∧
      assembly'.words = assembly.words ∧
      assembly.labels.Displaced (options'.base.toNat - options.base.toNat) assembly'.labels ∧
      assembly.relocations.Displaced (options'.base.toNat - options.base.toNat)
        assembly'.relocations := by
  obtain ⟨lines, hlines, hadmissible, rfl⟩ := assemble_eq_ok_iff_admissible.mp h
  rw [size_words_closedForm] at hfit
  have haligned := options.aligned
  have haligned' := options'.aligned
  -- The lines are the same, and the bases differ by a whole number of words.
  obtain ⟨hadmissible', hsame⟩ := hadmissible.displaced
    (d := options'.base.toNat - options.base.toNat)
    (List.forall₂_same.mpr fun line _ => ⟨rfl, rfl⟩) (by omega) (by omega) hfit
  exact ⟨_, assemble_eq_ok_iff_admissible.mpr ⟨lines, hlines, hadmissible', rfl⟩, hsame⟩

/-- A loop with a call behind it, moved from the start of the address space close to its end. -/
theorem words_independent_of_base_at_end :
    ∃ assembly, (assemble "loop: bne $t0, $0, loop\njal loop\nend: j end" {}).run.value =
        .ok assembly ∧
      (0xFFFFFFF0 + 4 * assembly.words.size < Address.limit) ∧
      ∃ assembly', (assemble "loop: bne $t0, $0, loop\njal loop\nend: j end"
          { base := 0xFFFFFFF0#32 }).run.value = .ok assembly' ∧
        assembly'.words = assembly.words ∧
        assembly.labels.Displaced 0xFFFFFFF0 assembly'.labels ∧
        assembly.relocations.Displaced 0xFFFFFFF0 assembly'.relocations := by
  have h : (assemble "loop: bne $t0, $0, loop\njal loop\nend: j end" {}).run.value =
      .ok ⟨#[0x1500FFFF#32, 0x0C000000#32, 0x08000000#32],
        ⟨.distinct, #[⟨"loop", 0⟩, ⟨"end", 8⟩]⟩,
        ⟨.repeating, #[⟨"loop", 4⟩, ⟨"end", 8⟩]⟩⟩ := by
    cbv
  exact ⟨_, h, by decide,
    words_independent_of_base _ {} { base := 0xFFFFFFF0#32 } _ h (.inr (by decide))⟩

end Program

end MipsAssembler
