/-
Programs that are assembled apart and then joined.

A program needs nothing of what stands around it, so two programs that were assembled apart can be put
one behind the other.  The text of both gives the words of both; the tables of the second program are
moved to where it now stands:

* `SymbolTable.append` — the entries of two tables, one behind the other;
* `Assembly.closedForm_of_foundIn` — instructions keep their words in a larger table of labels;
* `Program.closedForm_append` — lines that can be assembled keep their words when others follow;
* `Program.Admissible.append` — lines that can be assembled where others end can be assembled with them;
* `Program.assemble_append` — the assembly of two texts with a line feed between them.

Design notes: a name that both programs define would be refused.  A name that only one of them defines
is found where it was, since no entry of the other table stands in its way.
-/
import MipsAssembler.Proofs.Displacement
import MipsAssembler.Proofs.SourceLines

namespace MipsAssembler

/-! ### Tables one behind the other -/

namespace SymbolTable

variable {t t' : SymbolTable}

/-- The entries of `t`, followed by those of `t'`. -/
def append (t t' : SymbolTable) : SymbolTable := { t with symbols := t.symbols ++ t'.symbols }

/-- Whether `joined` holds the entries of `first`, followed by those of `second` at addresses that are
greater by `d`. -/
def Joins (d : Int) (first second joined : SymbolTable) : Prop :=
  ∃ moved, second.Displaced d moved ∧ joined = first.append moved

@[simp] theorem toList_symbols_append (t t' : SymbolTable) :
    (t.append t').symbols.toList = t.symbols.toList ++ t'.symbols.toList := by
  simp [append]

theorem foundIn_append_left (t t' : SymbolTable) : t.FoundIn 0 (t.append t') := by
  intro name address haddress
  have hstart : t.symbols.toList <+: (t.append t').symbols.toList := by
    rw [toList_symbols_append]
    exact List.prefix_append _ _
  exact ⟨address, lookup_of_isPrefix hstart haddress, by omega⟩

/-- A table can be searched behind another one that has none of its names. -/
theorem foundIn_append_right (h : ∀ name, t'.hasName name → ¬t.hasName name) :
    t'.FoundIn 0 (t.append t') := by
  intro name address haddress
  obtain ⟨s, hs, rfl⟩ := lookup_eq_ok_iff.mp haddress
  have hname : t'.hasName name :=
    hasName_iff.mpr (List.mem_map_of_mem (f := Symbol.name) (mem_of_lookup haddress))
  have hnone : t.symbols.toList.find? (·.name == name) = none := by
    have hnot := h name hname
    rw [hasName_iff] at hnot
    simpa [List.find?_eq_none] using hnot
  refine ⟨s.address, lookup_eq_ok_iff.mpr ⟨s, ?_, rfl⟩, by omega⟩
  rw [toList_symbols_append, List.find?_append, hnone, Option.none_or, hs]

/-- A table that has not moved is the same table. -/
theorem Displaced.eq_of_zero (h : t.Displaced 0 t') : t' = t := by
  obtain ⟨mode, symbols⟩ := t
  obtain ⟨mode', symbols'⟩ := t'
  obtain ⟨rfl, hsymbols⟩ := h
  have heq : symbols.toList = symbols'.toList := by
    rw [← List.forall₂_eq_eq_eq]
    refine hsymbols.imp fun s s' hs => ?_
    obtain ⟨name, address⟩ := s
    obtain ⟨name', address'⟩ := s'
    obtain ⟨rfl, haddress⟩ := hs
    dsimp only at haddress
    obtain rfl : address' = address := by omega
    rfl
  rw [Array.toList_inj.mp heq]

end SymbolTable

/-! ### Instructions one behind the other -/

namespace Assembly

variable {labels labels' : SymbolTable} {placed : List Placed}

/-- Instructions keep their words in every table that has their labels where they were. -/
theorem closedForm_of_foundIn (h : labels.FoundIn 0 labels') (hplaced : Admissible labels placed) :
    Admissible labels' placed ∧
      (closedForm labels' placed).words = (closedForm labels placed).words ∧
      (closedForm labels' placed).relocations = (closedForm labels placed).relocations := by
  have hsame : List.Forall₂ (Placed.Displaced 0) placed placed :=
    List.forall₂_same.mpr fun p _ => ⟨rfl, (Int.add_zero _).symm⟩
  obtain ⟨hadmissible, hwords, hrelocations⟩ := closedForm_displaced rfl hsame h hplaced
  exact ⟨hadmissible, hwords, hrelocations.eq_of_zero⟩

theorem words_closedForm_append (labels : SymbolTable) (placed placed' : List Placed) :
    (closedForm labels (placed ++ placed')).words =
      (closedForm labels placed).words ++ (closedForm labels placed').words := by
  simp [closedForm]

theorem relocations_closedForm_append (labels : SymbolTable) (placed placed' : List Placed) :
    (closedForm labels (placed ++ placed')).relocations =
      (closedForm labels placed).relocations.append (closedForm labels placed').relocations := by
  simp [closedForm, SymbolTable.append]

end Assembly

/-! ### Programs one behind the other -/

theorem Layout.labels_closedForm_append (base : Nat) (lines lines' : List Line) :
    (closedForm base (lines ++ lines')).labels = (closedForm base lines).labels.append
      (closedForm (base + 4 * Line.totalWords lines) lines').labels := by
  simp [closedForm, SymbolTable.append, entries_append]

theorem Line.forall₂_alike_later (k : Nat) (lines : List Line) :
    List.Forall₂ Alike lines (lines.map (later k)) :=
  List.forall₂_map_right_iff.mpr (List.forall₂_same.mpr fun _ _ => ⟨rfl, rfl⟩)

namespace Program

/-- Lines that can be assembled keep their words and sites when others follow, since their labels are
found where they were.  The others are assembled with the labels of both. -/
theorem closedForm_append {base : Nat} {lines : List Line} (h : Admissible base lines)
    (lines' : List Line) :
    let labels := (Layout.closedForm base (lines ++ lines')).labels
    let placed := Layout.placements (base + 4 * Line.totalWords lines) lines'
    Assembly.Admissible labels (Layout.placements base lines) ∧
      (closedForm base (lines ++ lines')).words =
        (closedForm base lines).words ++ (Assembly.closedForm labels placed).words ∧
      (closedForm base (lines ++ lines')).relocations =
        (closedForm base lines).relocations.append
          (Assembly.closedForm labels placed).relocations := by
  intro labels placed
  -- The labels of the first text are all found in front of the others.
  have hfound : (Layout.closedForm base lines).labels.FoundIn 0 labels := by
    show (Layout.closedForm base lines).labels.FoundIn 0
      (Layout.closedForm base (lines ++ lines')).labels
    rw [Layout.labels_closedForm_append]
    exact SymbolTable.foundIn_append_left _ _
  obtain ⟨hencoding, hwords, hrelocations⟩ := Assembly.closedForm_of_foundIn hfound h.encoding
  refine ⟨hencoding, ?_, ?_⟩
  · rw [closedForm, Layout.placements_append, Assembly.words_closedForm_append, hwords]
    rfl
  · rw [closedForm, Layout.placements_append, Assembly.relocations_closedForm_append, hrelocations]
    rfl

/-- Lines that can be assembled can be assembled behind others, where these end and if these define
none of their labels. -/
theorem Admissible.append {base : Nat} {lines lines' : List Line} (h : Admissible base lines)
    (h' : Admissible (base + 4 * Line.totalWords lines) lines')
    (hnames : ∀ name ∈ lines'.filterMap Line.label, name ∉ lines.filterMap Line.label) :
    Admissible base (lines ++ lines') ∧
      (closedForm base (lines ++ lines')).words = (closedForm base lines).words ++
        (closedForm (base + 4 * Line.totalWords lines) lines').words ∧
      (closedForm base (lines ++ lines')).labels = (closedForm base lines).labels.append
        (closedForm (base + 4 * Line.totalWords lines) lines').labels ∧
      (closedForm base (lines ++ lines')).relocations = (closedForm base lines).relocations.append
        (closedForm (base + 4 * Line.totalWords lines) lines').relocations := by
  obtain ⟨hencoding, hwords, hrelocations⟩ := closedForm_append h lines'
  -- The lines behind find their labels in the table of both as well.
  have hfound : (Layout.closedForm (base + 4 * Line.totalWords lines) lines').labels.FoundIn 0
      (Layout.closedForm base (lines ++ lines')).labels := by
    rw [Layout.labels_closedForm_append]
    refine SymbolTable.foundIn_append_right fun name => ?_
    simpa only [Layout.hasName_labels_closedForm_iff] using hnames name
  obtain ⟨hencoding', hwords', hrelocations'⟩ := Assembly.closedForm_of_foundIn hfound h'.encoding
  refine ⟨⟨Layout.admissible_append_iff.mpr ⟨h.layout, h'.layout, hnames⟩, ?_⟩, ?_,
    Layout.labels_closedForm_append base lines lines', ?_⟩
  · rw [Layout.placements_append]
    exact Assembly.admissible_append_iff.mpr ⟨hencoding, hencoding'⟩
  · rw [hwords, hwords']
    rfl
  · rw [hrelocations, hrelocations']
    rfl

/-- **Programs can be assembled apart.**  If two texts have assemblies that define no name twice, and
the words of both end below the limit, then the two texts with a line feed between them have one.
Its words are those of the first assembly and then those of the second; its tables hold the entries
of the first, followed by those of the second, moved to the end of the first. -/
theorem assemble_append (a b : String) (options options' whole : Options)
    (first second : Assembly) (hfirst : (assemble a options).run.value = .ok first)
    (hsecond : (assemble b options').run.value = .ok second) (hwhole : whole.base = options.base)
    (hnames : ∀ name, ¬(first.labels.hasName name ∧ second.labels.hasName name))
    (hfit : options.base.toNat + 4 * (first.words.size + second.words.size) < Address.limit) :
    ∃ joined, (assemble (a ++ "\n" ++ b) whole).run.value = .ok joined ∧
      joined.words = first.words ++ second.words ∧
      SymbolTable.Joins (options.base.toNat + 4 * first.words.size - options'.base.toNat)
        first.labels second.labels joined.labels ∧
      SymbolTable.Joins (options.base.toNat + 4 * first.words.size - options'.base.toNat)
        first.relocations second.relocations joined.relocations := by
  obtain ⟨lines, hlines, hadmissible, rfl⟩ := assemble_eq_ok_iff_admissible.mp hfirst
  obtain ⟨lines', hlines', hadmissible', rfl⟩ := assemble_eq_ok_iff_admissible.mp hsecond
  rw [size_words_closedForm, size_words_closedForm] at hfit
  rw [size_words_closedForm]
  have haligned := options.aligned
  have haligned' := options'.aligned
  have hend : ((options.base.toNat + 4 * Line.totalWords lines : Nat) : Int) =
      options'.base.toNat +
        (options.base.toNat + 4 * Line.totalWords lines - options'.base.toNat) := by
    push_cast
    omega
  -- The second program is moved to the end of the first, and then appended to it.
  have hlater := Line.forall₂_alike_later (a.toList.splitOn '\n').length lines'
  obtain ⟨hmoved, hwords, hlabels, hrelocations⟩ :=
    hadmissible'.displaced hlater (by omega) hend (.inr (by omega))
  have hparsed := Source.parse_append_eq_ok_iff.mpr ⟨_, _, hlines, hlines', rfl⟩
  generalize lines'.map _ = moved at hlater hmoved hwords hlabels hrelocations hparsed
  have hnew : ∀ name ∈ moved.filterMap Line.label, name ∉ lines.filterMap Line.label := by
    intro name hname hmem
    rw [Line.filterMap_label_of_alike hlater] at hname
    exact hnames name ⟨(Layout.hasName_labels_closedForm_iff _).mpr hmem,
      (Layout.hasName_labels_closedForm_iff _).mpr hname⟩
  obtain ⟨hjoined, hwords', hlabels', hrelocations'⟩ := hadmissible.append hmoved hnew
  rw [hwords] at hwords'
  have hassembled : (assemble (a ++ "\n" ++ b) whole).run.value =
      .ok (closedForm options.base.toNat (lines ++ moved)) :=
    assemble_eq_ok_iff_admissible.mpr ⟨_, hparsed, by rwa [hwhole], by rw [hwhole]⟩
  exact ⟨_, hassembled, hwords', ⟨_, hlabels, hlabels'⟩, ⟨_, hrelocations, hrelocations'⟩⟩

/-- Two programs that jump to each other.  The first ends in a carriage return, and the second moves
down by `0xFFC`. -/
theorem assemble_append_moving_down :
    ∃ first second joined,
      (assemble "x: j y\r" { base := 0x1000#32 }).run.value = .ok first ∧
      (assemble "y: beq $0, $0, y\nj x" { base := 0x2000#32 }).run.value = .ok second ∧
      (assemble ("x: j y\r" ++ "\n" ++ "y: beq $0, $0, y\nj x")
        { base := 0x1000#32, keepGoing := true }).run.value = .ok joined ∧
      joined.words = first.words ++ second.words ∧
      SymbolTable.Joins (-0xFFC) first.labels second.labels joined.labels ∧
      SymbolTable.Joins (-0xFFC) first.relocations second.relocations joined.relocations := by
  have hfirst : (assemble "x: j y\r" { base := 0x1000#32 }).run.value =
      .ok ⟨#[0x08000000#32], ⟨.distinct, #[⟨"x", 0x1000⟩]⟩, ⟨.repeating, #[⟨"y", 0x1000⟩]⟩⟩ := by
    cbv
  have hsecond : (assemble "y: beq $0, $0, y\nj x" { base := 0x2000#32 }).run.value =
      .ok ⟨#[0x1000FFFF#32, 0x08000000#32], ⟨.distinct, #[⟨"y", 0x2000⟩]⟩,
        ⟨.repeating, #[⟨"x", 0x2004⟩]⟩⟩ := by
    cbv
  have hnames : ∀ name, ¬((⟨.distinct, #[⟨"x", 0x1000⟩]⟩ : SymbolTable).hasName name ∧
      (⟨.distinct, #[⟨"y", 0x2000⟩]⟩ : SymbolTable).hasName name) := by
    rintro name ⟨hx, hy⟩
    rw [SymbolTable.hasName_iff] at hx hy
    obtain rfl := List.mem_singleton.mp hx
    exact absurd hy (by decide)
  obtain ⟨joined, h⟩ := assemble_append _ _ _ _ { base := 0x1000#32, keepGoing := true } _ _ hfirst
    hsecond rfl hnames (by decide)
  exact ⟨_, _, joined, hfirst, hsecond, h⟩

end Program

end MipsAssembler
