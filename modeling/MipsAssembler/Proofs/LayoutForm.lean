/-
The layout of a list of lines in closed form.

Lines are placed one after the other without gaps, so everything about a layout follows from how many
words each line takes:

* `Layout.closedForm` — the placed instructions, word counts and labels of a list of lines, written
  down without a running address;
* `Layout.Admissible` — what the lines have to satisfy;
* `Layout.ofLines_eq_ok_iff` — the layout of admissible lines is the closed form, and no other lines
  have one.

Design notes: words may fill the address space to its very end, and the next address is then one past
it.  A label is refused there, although nothing else would be.
-/
import Mathlib.Algebra.GroupWithZero.Nat
import Mathlib.Data.List.Basic
import MipsAssembler.Proofs.LineEffect
import MipsAssembler.Proofs.TableEntries

namespace MipsAssembler

/-! ### Words of lines -/

namespace Line

/-- The instructions of a line that can be expanded. -/
def expansion (line : Line) : List Instruction :=
  match line.expand with
  | .ok is => is
  | .error _ => []

/-- How many words a line takes. -/
def wordCount (line : Line) : Nat := line.expansion.length

/-- How many words a list of lines takes. -/
def totalWords (lines : List Line) : Nat := (lines.map wordCount).sum

theorem expansion_of_expand {line : Line} {is : List Instruction} (h : line.expand = .ok is) :
    line.expansion = is := by
  rw [expansion, h]

@[simp] theorem totalWords_nil : totalWords [] = 0 := rfl

@[simp] theorem totalWords_singleton (line : Line) : totalWords [line] = line.wordCount := by
  simp [totalWords]

@[simp] theorem totalWords_append (lines lines' : List Line) :
    totalWords (lines ++ lines') = totalWords lines + totalWords lines' := by
  simp [totalWords]

end Line

namespace Layout

/-- The instructions of a list of lines at consecutive addresses from `base` on. -/
def placements (base : Nat) (lines : List Line) : List Placed :=
  (lines.flatMap fun line => line.expansion.map fun i => (i, line.lineNo)).mapIdx
    fun k (i, lineNo) => ⟨i, base + 4 * k, lineNo⟩

/-- The labels of a list of lines, each with the address after all words of the lines above. -/
def entries (base : Nat) (lines : List Line) : List Symbol :=
  lines.zipIdx.filterMap fun (line, k) =>
    line.label.map fun name => ⟨name, base + 4 * Line.totalWords (lines.take k)⟩

/-- The layout of a list of lines that starts at `base`. -/
def closedForm (base : Nat) (lines : List Line) : Layout where
  next := base + 4 * Line.totalWords lines
  instructions := (placements base lines).toArray
  wordCounts := (lines.map Line.wordCount).toArray
  labels := { mode := .distinct, symbols := (entries base lines).toArray }

theorem length_placements (base : Nat) (lines : List Line) :
    (placements base lines).length = Line.totalWords lines := by
  simp only [placements, List.length_mapIdx, List.length_flatMap, List.length_map]
  rfl

theorem placements_singleton (base : Nat) (line : Line) :
    placements base [line] = line.expansion.mapIdx fun k i => ⟨i, base + 4 * k, line.lineNo⟩ := by
  apply List.ext_getElem?
  simp [placements, Function.comp_def]

/-- Lines that follow others are placed as if they started where those end. -/
theorem placements_append (base : Nat) (lines lines' : List Line) :
    placements base (lines ++ lines') =
      placements base lines ++ placements (base + 4 * Line.totalWords lines) lines' := by
  have hlength : (lines.flatMap fun line => line.expansion.map fun i => (i, line.lineNo)).length =
      Line.totalWords lines := by
    simp only [List.length_flatMap, List.length_map]
    rfl
  -- The new instructions are counted on from the old ones.
  simp only [placements, List.flatMap_append, List.mapIdx_append, hlength]
  congr 1
  apply List.ext_getElem?
  intro k
  have haddress : base + 4 * (k + Line.totalWords lines) =
      base + 4 * Line.totalWords lines + 4 * k := by omega
  simp [haddress]

theorem placements_cons (base : Nat) (line : Line) (lines : List Line) :
    placements base (line :: lines) =
      (line.expansion.mapIdx fun k i => ⟨i, base + 4 * k, line.lineNo⟩) ++
        placements (base + 4 * line.wordCount) lines := by
  rw [← List.singleton_append, placements_append, placements_singleton,
    Line.totalWords_singleton]

theorem entries_singleton (base : Nat) (line : Line) :
    entries base [line] = (line.label.map fun name => (⟨name, base⟩ : Symbol)).toList := by
  cases h : line.label <;> simp [entries, h]

theorem entries_append (base : Nat) (lines lines' : List Line) :
    entries base (lines ++ lines') =
      entries base lines ++ entries (base + 4 * Line.totalWords lines) lines' := by
  -- The entry of a line looks only at the lines above it.
  have hbefore : ∀ x ∈ lines.zipIdx,
      (x.1.label.map fun name =>
        (⟨name, base + 4 * Line.totalWords ((lines ++ lines').take x.2)⟩ : Symbol)) =
      x.1.label.map fun name => ⟨name, base + 4 * Line.totalWords (lines.take x.2)⟩ := by
    intro x hx
    have hlt : x.2 < lines.length := (List.mem_zipIdx' hx).1
    rw [List.take_append_of_le_length (by omega)]
  have hafter : ∀ k, base + 4 * Line.totalWords ((lines ++ lines').take (lines.length + k)) =
      base + 4 * Line.totalWords lines + 4 * Line.totalWords (lines'.take k) := by
    intro k
    rw [List.take_length_add_append, Line.totalWords_append]
    omega
  simp only [entries, List.zipIdx_append, List.filterMap_append]
  rw [List.filterMap_congr hbefore, Nat.zero_add, List.zipIdx_eq_map_add (i := lines.length),
    List.filterMap_map]
  congr 1
  apply List.filterMap_congr
  intro x hx
  simp [hafter]

theorem entries_cons (base : Nat) (line : Line) (lines : List Line) :
    entries base (line :: lines) =
      (line.label.map fun name => (⟨name, base⟩ : Symbol)).toList ++
        entries (base + 4 * line.wordCount) lines := by
  rw [← List.singleton_append, entries_append, entries_singleton, Line.totalWords_singleton]

theorem map_name_entries (base : Nat) (lines : List Line) :
    (entries base lines).map Symbol.name = lines.filterMap Line.label := by
  induction lines using List.reverseRecOn with
  | nil => rfl
  | append_singleton lines line ih =>
    rw [entries_append, entries_singleton, List.map_append, ih, List.filterMap_append]
    cases h : line.label <;> simp [h]

theorem hasName_labels_closedForm_iff (base : Nat) {lines : List Line} {name : String} :
    (closedForm base lines).labels.hasName name ↔ name ∈ lines.filterMap Line.label := by
  rw [SymbolTable.hasName_iff, ← map_name_entries base lines]
  rfl

theorem address_of_getElem?_placements {base : Nat} {lines : List Line} {i : Nat} {p : Placed}
    (h : (placements base lines)[i]? = some p) : p.address = base + 4 * i := by
  rw [placements, List.getElem?_mapIdx, Option.map_eq_some_iff] at h
  obtain ⟨_, -, rfl⟩ := h
  rfl

/-- Every entry is the label of some line, with the address of that line. -/
theorem exists_of_mem_entries {base : Nat} {lines : List Line} {s : Symbol}
    (h : s ∈ entries base lines) :
    ∃ k, lines[k]?.bind Line.label = some s.name ∧
      s.address = base + 4 * Line.totalWords (lines.take k) := by
  obtain ⟨⟨line, k⟩, hline, hs⟩ := List.mem_filterMap.mp h
  obtain ⟨name, hname, rfl⟩ := Option.map_eq_some_iff.mp hs
  refine ⟨k, ?_, rfl⟩
  rw [List.mem_zipIdx_iff_getElem?.mp hline]
  exact hname

/-! ### Admissible lines -/

/-- What lines have to satisfy to be laid out from `base` on. -/
structure Admissible (base : Nat) (lines : List Line) : Prop where
  /-- Every line can be expanded. -/
  expands : ∀ line ∈ lines, ∃ is, line.expand = .ok is
  /-- No label is defined twice. -/
  distinct : (lines.filterMap Line.label).Nodup
  /-- The words end within the address space. -/
  wordsFit : base + 4 * Line.totalWords lines ≤ Address.limit
  /-- Every label names an address. -/
  labelsFit : ∀ k line name, lines[k]? = some line → line.label = some name →
    base + 4 * Line.totalWords (lines.take k) < Address.limit

/-- A label is that of one line only. -/
theorem Admissible.eq_of_label {base : Nat} {lines : List Line} (h : Admissible base lines)
    {j k : Nat} {name : String} (hj : lines[j]?.bind Line.label = some name)
    (hk : lines[k]?.bind Line.label = some name) : j = k := by
  obtain ⟨x, hx, hxname⟩ := Option.bind_eq_some_iff.mp hj
  obtain ⟨y, hy, hyname⟩ := Option.bind_eq_some_iff.mp hk
  obtain ⟨hjlt, rfl⟩ := List.getElem?_eq_some_iff.mp hx
  obtain ⟨hklt, rfl⟩ := List.getElem?_eq_some_iff.mp hy
  have hpairs := List.pairwise_iff_getElem.mp (List.pairwise_filterMap.mp h.distinct)
  rcases Nat.lt_trichotomy j k with hlt | heq | hgt
  · exact absurd rfl (hpairs j k hjlt hklt hlt name hxname name hyname)
  · exact heq
  · exact absurd rfl (hpairs k j hklt hjlt hgt name hyname name hxname)

theorem admissible_nil (base : Word) : Admissible base.toNat [] where
  expands := by simp
  distinct := by simp
  wordsFit := by
    have hbase : base.toNat < 0x100000000 := base.isLt
    simp [Address.limit]
    omega
  labelsFit := by simp

theorem admissible_singleton_iff {base : Nat} {line : Line} :
    Admissible base [line] ↔
      (∃ is, line.expand = .ok is) ∧ base + 4 * line.wordCount ≤ Address.limit ∧
        ∀ name, line.label = some name → base < Address.limit := by
  constructor
  · intro h
    have hwords := h.wordsFit
    rw [Line.totalWords_singleton] at hwords
    exact ⟨h.expands line (by simp), hwords, fun name => h.labelsFit 0 line name rfl⟩
  · rintro ⟨hexpand, hwords, hlabel⟩
    refine ⟨?_, ?_, by simpa using hwords, ?_⟩
    · intro x hx
      rw [List.mem_singleton.mp hx]
      exact hexpand
    · cases hl : line.label <;> simp [hl]
    · intro k x name hk hname
      -- There is no other line for the label to be on.
      have hk0 : k = 0 := by
        have hlt := (List.getElem?_eq_some_iff.mp hk).1
        simpa using hlt
      subst hk0
      obtain rfl := Option.some_inj.mp hk
      exact hlabel name hname

/-- Lines and lines behind them are admissible if both are where they stand and no label is defined
in both. -/
theorem admissible_append_iff {base : Nat} {lines lines' : List Line} :
    Admissible base (lines ++ lines') ↔
      Admissible base lines ∧ Admissible (base + 4 * Line.totalWords lines) lines' ∧
        ∀ name ∈ lines'.filterMap Line.label, name ∉ lines.filterMap Line.label := by
  constructor
  · intro h
    have hwords := h.wordsFit
    rw [Line.totalWords_append] at hwords
    have hdistinct := h.distinct
    rw [List.filterMap_append, List.nodup_append] at hdistinct
    refine ⟨⟨fun x hx => h.expands x (by simp [hx]), hdistinct.1, by omega, ?_⟩,
      ⟨fun x hx => h.expands x (by simp [hx]), hdistinct.2.1, by omega, ?_⟩,
      fun name hname hmem => hdistinct.2.2 name hmem name hname rfl⟩
    · intro k x name hk hname
      -- A label of the first lines has only first lines above it.
      have hlt : k < lines.length := (List.getElem?_eq_some_iff.mp hk).1
      have hfit := h.labelsFit k x name (by rw [List.getElem?_append_left hlt, hk]) hname
      rwa [List.take_append_of_le_length (by omega)] at hfit
    · intro k x name hk hname
      -- Behind them, all of the first lines are above as well, and their words are in the new base.
      have hk' : (lines ++ lines')[lines.length + k]? = some x := by
        rw [List.getElem?_append_right (by omega), Nat.add_sub_cancel_left, hk]
      have hfit := h.labelsFit (lines.length + k) x name hk' hname
      rw [List.take_length_add_append, Line.totalWords_append] at hfit
      omega
  · rintro ⟨h, h', hlabel⟩
    refine ⟨?_, ?_, ?_, ?_⟩
    · intro x hx
      rcases List.mem_append.mp hx with hx | hx
      · exact h.expands x hx
      · exact h'.expands x hx
    · rw [List.filterMap_append, List.nodup_append]
      refine ⟨h.distinct, h'.distinct, ?_⟩
      intro a ha b hb hab
      exact hlabel b hb (hab ▸ ha)
    · have hwords := h'.wordsFit
      rw [Line.totalWords_append]
      omega
    · intro k x name hk hname
      rcases Nat.lt_or_ge k lines.length with hlt | hge
      · rw [List.getElem?_append_left hlt] at hk
        rw [List.take_append_of_le_length (by omega)]
        exact h.labelsFit k x name hk hname
      · -- Behind the first lines the addresses count on from their end.
        rw [List.getElem?_append_right hge] at hk
        have hfit := h'.labelsFit _ x name hk hname
        have hk' : k = lines.length + (k - lines.length) := by omega
        rw [hk', List.take_length_add_append, Line.totalWords_append]
        omega

end Layout

/-! ### One line -/

theorem Address.check_eq_ok_iff {address address' : Nat} :
    check address = .ok address' ↔ address < limit ∧ address = address' := by
  rw [check]
  split <;> simp [*]

/-- Instructions of one line are placed if the last of them ends within the address space. -/
theorem Placed.ofInstructions_eq_ok_iff {lineNo : Nat} {is : List Instruction} :
    ∀ {address : Nat} {placed : List Placed}, address % 4 = 0 → address ≤ Address.limit →
      (ofInstructions lineNo address is = .ok placed ↔
        address + 4 * is.length ≤ Address.limit ∧
          placed = is.mapIdx fun k i => ⟨i, address + 4 * k, lineNo⟩) := by
  induction is with
  | nil =>
    intro address placed haligned hle
    simp [ofInstructions, hle, eq_comm]
  | cons i is ih =>
    intro address placed haligned hle
    -- An address below the limit leaves room for its word, since both are multiples of 4.
    have hlimit : Address.limit % 4 = 0 := by decide
    simp only [ofInstructions, bind_eq_ok_iff, Address.check_eq_ok_iff, pure_eq_ok_iff]
    constructor
    · rintro ⟨_, ⟨hlt, rfl⟩, rest, hrest, rfl⟩
      obtain ⟨hend, rfl⟩ := (ih (by omega) (by omega)).mp hrest
      refine ⟨by simp; omega, ?_⟩
      simp [List.mapIdx_cons, Nat.mul_add, Nat.add_assoc, Nat.add_comm]
    · rintro ⟨hend, rfl⟩
      rw [List.length_cons] at hend
      refine ⟨address, ⟨by omega, rfl⟩, _, (ih (by omega) (by omega)).mpr ⟨by omega, rfl⟩, ?_⟩
      simp [List.mapIdx_cons, Nat.mul_add, Nat.add_assoc, Nat.add_comm]

namespace Layout

/-- What a line adds to a layout that ends at `next`. -/
def pieceAt (next : Nat) (line : Line) : Piece where
  placed := line.expansion.mapIdx fun k i => ⟨i, next + 4 * k, line.lineNo⟩
  label := line.label.map fun name => ⟨name, next⟩

theorem labelEntry_eq_ok_iff {l : Layout} {line : Line} {label : Option Symbol}
    (haligned : l.next % 4 = 0) (hmode : l.labels.mode = .distinct) :
    l.labelEntry line = .ok label ↔
      (∀ name, line.label = some name → ¬l.labels.hasName name ∧ l.next < Address.limit) ∧
        label = line.label.map fun name => ⟨name, l.next⟩ := by
  rw [labelEntry]
  cases line.label with
  | none =>
    refine ⟨fun h => ⟨by simp, (Except.ok.inj h).symm⟩, ?_⟩
    rintro ⟨-, rfl⟩
    rfl
  | some name =>
    -- The address is a word boundary, so only the range and the name can be refused.
    simp only [bind_eq_ok_iff, Address.check_eq_ok_iff, functor_map_eq_ok_iff,
      SymbolTable.entryFor_eq_ok_iff, Option.some_inj, forall_eq', Option.map_some, hmode, true_and]
    constructor
    · rintro ⟨_, ⟨hlt, rfl⟩, _, ⟨-, hname, rfl⟩, rfl⟩
      exact ⟨⟨hname, hlt⟩, rfl⟩
    · rintro ⟨⟨hname, hlt⟩, rfl⟩
      exact ⟨l.next, ⟨hlt, rfl⟩, _, ⟨haligned, hname, rfl⟩, rfl⟩

/-- When a line is accepted, and what it adds. -/
theorem piece_eq_ok_iff {l : Layout} {line : Line} {p : Piece} (haligned : l.next % 4 = 0)
    (hle : l.next ≤ Address.limit) (hmode : l.labels.mode = .distinct) :
    l.piece line = .ok p ↔
      (∃ is, line.expand = .ok is) ∧ l.next + 4 * line.wordCount ≤ Address.limit ∧
        (∀ name, line.label = some name → ¬l.labels.hasName name ∧ l.next < Address.limit) ∧
        p = pieceAt l.next line := by
  rw [piece]
  simp only [bind_eq_ok_iff, pure_eq_ok_iff, labelEntry_eq_ok_iff haligned hmode,
    Placed.ofInstructions_eq_ok_iff haligned hle]
  constructor
  · rintro ⟨is, his, placed, ⟨hend, rfl⟩, label, ⟨hlabel, rfl⟩, rfl⟩
    obtain rfl := Line.expansion_of_expand his
    exact ⟨⟨_, his⟩, hend, hlabel, rfl⟩
  · rintro ⟨⟨is, his⟩, hend, hlabel, rfl⟩
    obtain rfl := Line.expansion_of_expand his
    exact ⟨_, his, _, ⟨hend, rfl⟩, _, ⟨hlabel, rfl⟩, rfl⟩

/-! ### All lines -/

theorem add_closedForm (base : Nat) (lines : List Line) (line : Line) :
    (closedForm base lines).add (pieceAt (closedForm base lines).next line) =
      closedForm base (lines ++ [line]) := by
  simp only [add, closedForm, pieceAt, placements_append, placements_singleton, entries_append,
    entries_singleton, mk.injEq]
  refine ⟨?_, ?_, ?_, ?_⟩
  · simp [Line.wordCount]
    omega
  · simp
  · simp [Line.wordCount]
  · cases line.label <;> simp [SymbolTable.pushIfAny, SymbolTable.push]

/-- A line is accepted after admissible lines exactly when it keeps them admissible, and the layout
keeps its closed form. -/
theorem step_closedForm_eq_ok_iff {base : Nat} (haligned : base % 4 = 0) {lines : List Line}
    {line : Line} {next : Layout} (h : Admissible base lines) :
    pass.step (closedForm base lines) line = .ok next ↔
      Admissible base (lines ++ [line]) ∧ next = closedForm base (lines ++ [line]) := by
  have hnext : (closedForm base lines).next % 4 = 0 := by
    show (base + 4 * Line.totalWords lines) % 4 = 0
    omega
  rw [Pass.step_eq_ok_iff, admissible_append_iff, admissible_singleton_iff, ← add_closedForm]
  -- The line has one label at most, which must be new among those above.
  have hown : ∀ name, name ∈ [line].filterMap Line.label ↔ line.label = some name := by
    intro name
    simp
  simp only [hown, look_pass]
  constructor
  · rintro ⟨⟨p, hp⟩, rfl⟩
    rw [advance_of_piece hp]
    obtain ⟨hexpand, hend, hlabel, rfl⟩ := (piece_eq_ok_iff hnext h.wordsFit rfl).mp hp
    simp only [hasName_labels_closedForm_iff] at hlabel
    exact ⟨⟨h, ⟨hexpand, hend, fun name hname => (hlabel name hname).2⟩,
      fun name hname => (hlabel name hname).1⟩, rfl⟩
  · rintro ⟨⟨-, ⟨hexpand, hend, hfit⟩, hnew⟩, rfl⟩
    simp only [← hasName_labels_closedForm_iff base] at hnew
    have hpiece := (piece_eq_ok_iff hnext h.wordsFit rfl).mpr
      ⟨hexpand, hend, fun name hname => ⟨hnew name hname, hfit name hname⟩, rfl⟩
    exact ⟨⟨_, hpiece⟩, advance_of_piece hpiece⟩

/-- Lines have a layout exactly when they are admissible, and it is the closed form. -/
theorem ofLines_eq_ok_iff {lines : List Line} {options : Options} {layout : Layout} :
    (ofLines lines options).run.value = .ok layout ↔
      Admissible options.base.toNat lines ∧ layout = closedForm options.base.toNat lines := by
  rw [ofLines, Pass.value_run_eq_ok_iff]
  exact pass.foldlM_step_eq_ok_iff (admissible_nil options.base)
    (fun h => (admissible_append_iff.mp h).1) (step_closedForm_eq_ok_iff options.aligned)

/-- **Which lines can be laid out, and how.**  The four conditions of `Admissible` decide, whether or
not the pass keeps going after a failure; the layout lists the expansions in order at consecutive
addresses, counts the words of every line, and holds each label with the address of its line. -/
theorem ofLines_exactly (lines : List Line) (options : Options) :
    ((∃ layout, (ofLines lines options).run.value = .ok layout) ↔
      Admissible options.base.toNat lines) ∧
    ∀ layout, (ofLines lines options).run.value = .ok layout →
      layout.wordCounts.toList = lines.map Line.wordCount ∧
      layout.instructions.toList = placements options.base.toNat lines ∧
      layout.labels.mode = .distinct ∧
      layout.labels.symbols.toList = entries options.base.toNat lines := by
  constructor
  · constructor
    · rintro ⟨layout, hlayout⟩
      exact (ofLines_eq_ok_iff.mp hlayout).1
    · intro h
      exact ⟨_, ofLines_eq_ok_iff.mpr ⟨h, rfl⟩⟩
  · intro layout hlayout
    obtain ⟨-, rfl⟩ := ofLines_eq_ok_iff.mp hlayout
    exact ⟨rfl, rfl, rfl, rfl⟩

/-- Two words fill the address space to its end, and a label behind them has no address. -/
theorem ofLines_exactly_at_limit :
    (∃ layout, (ofLines [⟨1, some "last", some ⟨"li", ["$t0", "0x12345678"]⟩⟩]
        { base := 0xFFFFFFF8#32 }).run.value = .ok layout) ∧
      ¬∃ layout, (ofLines [⟨1, some "last", some ⟨"li", ["$t0", "0x12345678"]⟩⟩,
        ⟨2, some "end", none⟩] { base := 0xFFFFFFF8#32 }).run.value = .ok layout := by
  constructor
  · rw [(ofLines_exactly _ _).1]
    refine ⟨?_, by decide, by decide, ?_⟩
    · intro line hline
      rw [List.mem_singleton.mp hline]
      exact ⟨_, rfl⟩
    · intro k line name hk hname
      have hk0 : k = 0 := by
        have hlt := (List.getElem?_eq_some_iff.mp hk).1
        simpa using hlt
      subst hk0
      decide
  · rw [(ofLines_exactly _ _).1]
    intro h
    have hfit := h.labelsFit 1 _ "end" rfl rfl
    revert hfit
    decide

end Layout

end MipsAssembler
