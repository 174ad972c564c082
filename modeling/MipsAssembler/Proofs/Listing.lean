/-
Listings that are read back.

A listing shows the words, the labels and the relocation sites of an assembly, one to a line, and nothing
of that is lost.  There is a reader for it, which does not know how listings are made:

* `Listing.word?`, `Listing.symbol?` — what one line of digits, and one row of a table, stands for;
* `Listing.read?` — the words and both tables of a listing, cut apart at the headings;
* `Listing.words?_renderLines`, `Listing.symbols?_render`, `Listing.read?_render` — what is printed is
  read back;
* `Assembly.listing_determines_contents` — so equal listings show equal contents.

Design notes: a line of a listing can be told from every heading, because lines of words have eight
characters and rows hold a tab.  A name may hold a tab itself, as an address does not, but no line feed.
The names of an assembled program are labels and hold neither.
-/
import Mathlib.Data.Nat.Digits.Defs
import MipsAssembler.Proofs.LineGrammar
import MipsAssembler.Proofs.LineOrigin
import MipsAssembler.Proofs.Relocations
import MipsAssembler.Proofs.WrittenNumbers

namespace MipsAssembler

/-! ### Padded numerals -/

namespace Numeral

variable {base n : Nat} {c : Char} {cs : List Char}

theorem Writes.cons_zero (hbase : 0 < base) (h : Writes base n cs) : Writes base n ('0' :: cs) := by
  have hzero : Writes base 0 ['0'] := .digit hbase (.inl rfl)
  induction h with
  | @digit d c hd hc =>
    have hsnoc := hzero.snoc hd hc
    rwa [Nat.zero_mul, Nat.zero_add] at hsnoc
  | snoc _ hd hc ih => exact ih.snoc hd hc

theorem Writes.replicate_append (hbase : 0 < base) (h : Writes base n cs) (k : Nat) :
    Writes base n (List.replicate k '0' ++ cs) := by
  induction k with
  | zero => exact h
  | succ k ih => exact ih.cons_zero hbase

/-- The digits below sixteen, in lower case. -/
def lowerDigits : List Char := "0123456789abcdef".toList

theorem mem_lowerDigits_of_mem_toDigits (h : c ∈ Nat.toDigits 16 n) : c ∈ lowerDigits := by
  have hdigit : ∀ d < 16, d.digitChar ∈ lowerDigits := by decide
  induction n using Nat.strongRecOn with
  | ind n ih =>
    rw [Nat.toDigits_eq_if (by omega)] at h
    split at h
    case isTrue hlt =>
      rw [List.mem_singleton.mp h]
      exact hdigit n hlt
    case isFalse hge =>
      rcases List.mem_append.mp h with hmem | hmem
      · exact ih (n / 16) (by omega) hmem
      · rw [List.mem_singleton.mp hmem]
        exact hdigit (n % 16) (by omega)

end Numeral

namespace Word

/-- Whether a line writes `w`: eight digits in lower case, with the value of `w`. -/
structure IsWritten (w : Word) (line : List Char) : Prop where
  length_eq : line.length = 8
  digits : ∀ c ∈ line, c ∈ Numeral.lowerDigits
  value : Numeral.value? 16 line = some w.toNat

/-- The line of a word. -/
def line (w : Word) : List Char := (Numeral.paddedHex 8 w.toNat).toList

theorem isWritten_line (w : Word) : w.IsWritten w.line := by
  have hpad : w.line = List.replicate (8 - (Nat.toDigits 16 w.toNat).length) '0' ++
      Nat.toDigits 16 w.toNat := by
    rw [line, Numeral.paddedHex, String.toList_ofList]
    rfl
  -- A word has eight digits at most, and is padded to eight.
  have hfit : (Nat.toDigits 16 w.toNat).length ≤ 8 := by
    have hbound : w.toNat < 16 ^ 8 := w.isLt
    exact Nat.toDigits_length 16 w.toNat 8 (by omega) hbound
  rw [hpad]
  refine ⟨?_, fun c hc => ?_, ?_⟩
  · rw [List.length_append, List.length_replicate]
    omega
  · rcases List.mem_append.mp hc with hmem | hmem
    · rw [List.eq_of_mem_replicate hmem]
      decide
    · exact Numeral.mem_lowerDigits_of_mem_toDigits hmem
  · have hdigits : Numeral.Writes 16 w.toNat (Nat.toDigits 16 w.toNat) :=
      Numeral.writes_toDigits (by omega) w.toNat
    exact Numeral.value?_of_writes (by omega) (hdigits.replicate_append (by omega) _)

theorem IsWritten.newline_not_mem {w : Word} {line : List Char} (h : w.IsWritten line) :
    '\n' ∉ line :=
  fun hmem => absurd (h.digits _ hmem) (by decide)

theorem toList_renderLines (words : List Word) :
    (renderLines words).toList = Text.endLines (words.map line) :=
  Text.toList_join_lines _ words

end Word

/-! ### Rows -/

namespace Symbol

/-- The row of a symbol: its address, a tab and its name. -/
def row (s : Symbol) : List Char := Nat.toDigits 10 s.address ++ '\t' :: s.name.toList

/-- A character that is no decimal digit does not occur in an address. -/
theorem not_mem_toDigits {c : Char} (hc : c.isDigit = false) (n : Nat) : c ∉ Nat.toDigits 10 n :=
  Operand.not_mem_of_writes hc (Numeral.writes_toDigits (by omega) n)

theorem newline_not_mem_row {s : Symbol} (h : '\n' ∉ s.name.toList) : '\n' ∉ s.row := by
  intro hmem
  rcases List.mem_append.mp hmem with hmem | hmem
  · exact not_mem_toDigits rfl s.address hmem
  · rcases List.mem_cons.mp hmem with heq | hmem
    · exact absurd heq (by decide)
    · exact h hmem

end Symbol

namespace SymbolTable

/-- Whether no name of a table takes more than one line. -/
def OnLines (t : SymbolTable) : Prop := ∀ s ∈ t.symbols.toList, '\n' ∉ s.name.toList

theorem toList_render (t : SymbolTable) :
    t.render.toList = Text.endLines (t.symbols.toList.map Symbol.row) := by
  have hrow : ∀ s : Symbol,
      (Numeral.decimal s.address ++ "\t" ++ s.name).toList = s.row := by
    intro s
    simp [Numeral.decimal, Symbol.row]
  rw [render]
  show (String.join (t.symbols.toList.map fun s =>
    Numeral.decimal s.address ++ "\t" ++ s.name ++ "\n")).toList = _
  rw [Text.toList_join_lines]
  simp only [hrow]

theorem OnLines.newline_not_mem {t : SymbolTable} (h : t.OnLines) :
    ∀ row ∈ t.symbols.toList.map Symbol.row, '\n' ∉ row := by
  intro row hrow
  obtain ⟨s, hs, rfl⟩ := List.mem_map.mp hrow
  exact Symbol.newline_not_mem_row (h s hs)

end SymbolTable

/-! ### The reader -/

/-- The contents of a listing. -/
structure Listing where
  words : List Word
  labels : List Symbol
  relocations : List Symbol
deriving DecidableEq, Repr

namespace Listing

/-- The word that a line of eight digits writes. -/
def word? (line : List Char) : Option Word :=
  if line.length = 8 then (Numeral.value? 16 line).map (BitVec.ofNat 32) else none

/-- The symbol that a row writes: an address up to the first tab, and a name behind it. -/
def symbol? (row : List Char) : Option Symbol :=
  match row.dropWhile (· != '\t') with
  | [] => none
  | _ :: name => (Numeral.value? 10 (row.takeWhile (· != '\t'))).map fun address =>
    ⟨String.ofList name, address⟩

/-- The lines of a text in which every line is ended. -/
def endedLines (text : String) : List (List Char) := (text.toList.splitOn '\n').dropLast

/-- The lines in front of a heading, and those behind it. -/
def cutAt (heading : List Char) (lines : List (List Char)) :
    Option (List (List Char) × List (List Char)) :=
  match lines.dropWhile (· != heading) with
  | [] => none
  | _ :: behind => some (lines.takeWhile (· != heading), behind)

/-- The words of a text with one word to a line. -/
def words? (text : String) : Option (List Word) := (endedLines text).mapM word?

/-- The symbols of a text with one row to a line. -/
def symbols? (text : String) : Option (List Symbol) := (endedLines text).mapM symbol?

/-- The contents of a listing: words between the first two headings, labels up to the third and
relocation sites behind it. -/
def read? (text : String) : Option Listing := do
  let (_, lines) ← cutAt ".text".toList (endedLines text)
  let (words, lines) ← cutAt ".symbol".toList lines
  let (labels, relocations) ← cutAt ".relocation".toList lines
  return {
    words := ← words.mapM word?
    labels := ← labels.mapM symbol?
    relocations := ← relocations.mapM symbol? }

theorem word?_of_isWritten {w : Word} {line : List Char} (h : w.IsWritten line) :
    word? line = some w := by
  rw [word?, if_pos h.length_eq, h.value, Option.map_some, BitVec.ofNat_toNat, BitVec.setWidth_eq]

theorem symbol?_row (s : Symbol) : symbol? s.row = some s := by
  -- No digit is a tab, so the address ends at the first one.
  have hplain : ∀ c ∈ Nat.toDigits 10 s.address, (c != '\t') = true := by
    intro c hc
    rw [bne_iff_ne]
    rintro rfl
    exact Symbol.not_mem_toDigits rfl s.address hc
  have hvalue : Numeral.value? 10 (Nat.toDigits 10 s.address) = some s.address :=
    Numeral.value?_of_writes (by omega) (Numeral.writes_toDigits (by omega) s.address)
  have hfront : s.row.takeWhile (· != '\t') = Nat.toDigits 10 s.address := by
    rw [Symbol.row, List.takeWhile_append_of_pos hplain]
    simp
  have hback : s.row.dropWhile (· != '\t') = '\t' :: s.name.toList := by
    rw [Symbol.row, List.dropWhile_append_of_pos hplain]
    simp
  simp only [symbol?, hfront, hback, hvalue, Option.map_some, String.ofList_toList]

theorem endedLines_of_toList {text : String} {lines : List (List Char)}
    (htext : text.toList = Text.endLines lines) (h : ∀ line ∈ lines, '\n' ∉ line) :
    endedLines text = lines := by
  rw [endedLines, htext, Text.splitOn_endLines h, List.dropLast_concat]

theorem cutAt_append (heading : List Char) {lines : List (List Char)} (h : heading ∉ lines)
    (behind : List (List Char)) :
    cutAt heading (lines ++ heading :: behind) = some (lines, behind) := by
  have hfront : ∀ line ∈ lines, (line != heading) = true := by
    intro line hline
    rw [bne_iff_ne]
    rintro rfl
    exact h hline
  rw [cutAt, List.dropWhile_append_of_pos hfront, List.takeWhile_append_of_pos hfront]
  simp

/-- Values that are written one by one are read one by one. -/
theorem mapM_map_of_inverse {α β : Type} {f : α → β} {g : β → Option α}
    (h : ∀ x, g (f x) = some x) (xs : List α) : (xs.map f).mapM g = some xs := by
  induction xs with
  | nil => rfl
  | cons x xs ih =>
    rw [List.map_cons, List.mapM_cons, h, ih]
    rfl

theorem mapM_word?_lines (words : List Word) : (words.map Word.line).mapM word? = some words :=
  mapM_map_of_inverse (fun w => word?_of_isWritten w.isWritten_line) words

theorem mapM_symbol?_rows (symbols : List Symbol) :
    (symbols.map Symbol.row).mapM symbol? = some symbols :=
  mapM_map_of_inverse symbol?_row symbols

/-! ### What is printed is read back -/

theorem newline_not_mem_words (words : List Word) : ∀ line ∈ words.map Word.line, '\n' ∉ line := by
  intro line hline
  obtain ⟨w, -, rfl⟩ := List.mem_map.mp hline
  exact w.isWritten_line.newline_not_mem

theorem words?_renderLines (words : List Word) : words? (Word.renderLines words) = some words := by
  rw [words?, endedLines_of_toList (Word.toList_renderLines words) (newline_not_mem_words words),
    mapM_word?_lines]

theorem symbols?_render {t : SymbolTable} (h : t.OnLines) :
    symbols? t.render = some t.symbols.toList := by
  rw [symbols?, endedLines_of_toList t.toList_render h.newline_not_mem, mapM_symbol?_rows]

/-- The lines of the listing of an assembly. -/
def linesOf (a : Assembly) : List (List Char) :=
  ".text".toList :: (a.words.toList.map Word.line ++
    ".symbol".toList :: (a.labels.symbols.toList.map Symbol.row ++
      ".relocation".toList :: a.relocations.symbols.toList.map Symbol.row))

theorem toList_render (a : Assembly) : a.render.toList = Text.endLines (linesOf a) := by
  simp only [linesOf, Text.endLines_cons, Text.endLines_append, ← Word.toList_renderLines,
    ← SymbolTable.toList_render]
  simp [Assembly.render, Assembly.renderText, Assembly.renderLabels, Assembly.renderRelocations]

theorem newline_not_mem_linesOf {a : Assembly} (hlabels : a.labels.OnLines)
    (hrelocations : a.relocations.OnLines) : ∀ line ∈ linesOf a, '\n' ∉ line := by
  intro line hline
  simp only [linesOf, List.mem_cons, List.mem_append] at hline
  rcases hline with rfl | hline | rfl | hline | rfl | hline
  · decide
  · exact newline_not_mem_words _ line hline
  · decide
  · exact hlabels.newline_not_mem line hline
  · decide
  · exact hrelocations.newline_not_mem line hline

/-- Lines of words are no heading. -/
theorem heading_not_mem_words {heading : List Char} (h : heading.length ≠ 8) (words : List Word) :
    heading ∉ words.map Word.line := by
  intro hmem
  obtain ⟨w, -, rfl⟩ := List.mem_map.mp hmem
  exact h w.isWritten_line.length_eq

/-- Rows are no heading. -/
theorem heading_not_mem_rows {heading : List Char} (h : '\t' ∉ heading) (symbols : List Symbol) :
    heading ∉ symbols.map Symbol.row := by
  intro hmem
  obtain ⟨s, -, rfl⟩ := List.mem_map.mp hmem
  exact h (by simp [Symbol.row])

/-- A listing is read as the contents of its assembly. -/
theorem read?_render {a : Assembly} (hlabels : a.labels.OnLines)
    (hrelocations : a.relocations.OnLines) :
    read? a.render =
      some ⟨a.words.toList, a.labels.symbols.toList, a.relocations.symbols.toList⟩ := by
  have hlines := endedLines_of_toList (toList_render a)
    (newline_not_mem_linesOf hlabels hrelocations)
  -- Each heading is found where it was put, as no line in front of it looks like it.
  have htext := cutAt_append ".text".toList List.not_mem_nil
  have hwords := cutAt_append ".symbol".toList
    (heading_not_mem_words (by decide) a.words.toList)
  have hrows := cutAt_append ".relocation".toList
    (heading_not_mem_rows (by decide) a.labels.symbols.toList)
  rw [read?, hlines, linesOf, ← List.nil_append (".text".toList :: _), htext]
  simp only [Option.bind_eq_bind, Option.bind_some, hwords, hrows, mapM_word?_lines,
    mapM_symbol?_rows]
  rfl

end Listing

/-! ### The names of an assembled program -/

theorem Line.isLabel_of_parse {text name : String} {lineNo : Nat} {line : Line}
    (h : Line.parse text lineNo = .ok (some line)) (hname : line.label = some name) :
    Operand.isLabel name.toList := by
  obtain ⟨t, -, hreads⟩ := Line.parse_eq_iff_reads.mp h
  cases hreads with
  | label _ hlabel _ =>
    obtain rfl := Option.some_inj.mp hname
    rw [String.toList_ofList]
    exact Line.isName_iff.mp hlabel
  | both _ hlabel _ =>
    obtain rfl := Option.some_inj.mp hname
    rw [String.toList_ofList]
    exact Line.isName_iff.mp hlabel
  | instruction => cases hname

theorem Operand.newline_not_mem_of_isLabel {cs : List Char} (h : isLabel cs) : '\n' ∉ cs := by
  cases Line.isName_iff.mpr h with
  | mk hstart hpart =>
    intro hmem
    rcases List.mem_cons.mp hmem with rfl | hmem
    · exact absurd hstart (by decide)
    · exact absurd (hpart _ hmem) (by decide)

namespace Program

/-- The labels of an assembled program are labels of its lines, and the names of its relocation sites are
operands of its jumps; both have been checked. -/
theorem onLines_of_assemble {text : String} {options : Options} {a : Assembly}
    (h : (assemble text options).run.value = .ok a) :
    a.labels.OnLines ∧ a.relocations.OnLines := by
  refine ⟨fun s hs => ?_, fun s hs => ?_⟩
  · obtain ⟨lines, layout, hlines, -, -, rfl, -, rfl⟩ := assemble_closedForm h
    have hname : s.name ∈ lines.filterMap Line.label := by
      rw [← Layout.map_name_entries options.base.toNat]
      exact List.mem_map_of_mem hs
    obtain ⟨line, hline, hlabel⟩ := List.mem_filterMap.mp hname
    obtain ⟨k, s', -, -, hparse⟩ := Source.exists_of_mem_parse hlines hline
    exact Operand.newline_not_mem_of_isLabel (Line.isLabel_of_parse hparse hlabel)
  · obtain ⟨layout, -, hjumps⟩ := recordsJumps_of_assemble h
    exact Operand.newline_not_mem_of_isLabel (hjumps.names s hs)

end Program

namespace Assembly

open Listing

/-- **A listing loses nothing.**  It has three sections, in which each word takes a line of eight digits
and each symbol a row.  If no name takes more than one line, as is the case for every assembled program,
then assemblies with the same listing have the same words, labels and relocation sites, in order, and the
printed words, or a printed table, determine what was printed. -/
theorem listing_determines_contents :
    (∀ a : Assembly, a.render = ".text\n" ++ Word.renderLines a.words.toList ++
      ".symbol\n" ++ a.labels.render ++ ".relocation\n" ++ a.relocations.render) ∧
    (∀ a b : Assembly, a.labels.OnLines → a.relocations.OnLines → b.labels.OnLines →
      b.relocations.OnLines → a.render = b.render →
        a.words = b.words ∧ a.labels.symbols = b.labels.symbols ∧
          a.relocations.symbols = b.relocations.symbols) ∧
    (∀ (text : String) (options : Options) (a : Assembly),
      (Program.assemble text options).run.value = .ok a →
        a.labels.OnLines ∧ a.relocations.OnLines) ∧
    (∀ words : List Word, ∃ lines, (Word.renderLines words).toList = Text.endLines lines ∧
      List.Forall₂ Word.IsWritten words lines) ∧
    (∀ words words' : List Word, Word.renderLines words = Word.renderLines words' →
      words = words') ∧
    ∀ t t' : SymbolTable, t.OnLines → t'.OnLines → t.render = t'.render →
      t.symbols = t'.symbols := by
  refine ⟨fun a => ?_, ?_, fun text options a => Program.onLines_of_assemble, fun words => ?_,
    fun words words' h => ?_, fun t t' ht ht' h => ?_⟩
  · simp only [render, renderText, renderLabels, renderRelocations, String.append_assoc]
  · intro a b halabels harelocations hblabels hbrelocations h
    -- What is read back from one text cannot be two things.
    have hread := read?_render halabels harelocations
    rw [h, read?_render hblabels hbrelocations] at hread
    obtain ⟨hwords, hlabels, hrelocations⟩ := Listing.mk.inj (Option.some_inj.mp hread)
    exact ⟨(Array.toList_inj.mp hwords).symm, (Array.toList_inj.mp hlabels).symm,
      (Array.toList_inj.mp hrelocations).symm⟩
  · refine ⟨words.map Word.line, Word.toList_renderLines words, ?_⟩
    rw [List.forall₂_map_right_iff, List.forall₂_same]
    exact fun w _ => w.isWritten_line
  · have hread := words?_renderLines words
    rw [h, words?_renderLines words'] at hread
    exact (Option.some_inj.mp hread).symm
  · have hread := symbols?_render ht
    rw [h, symbols?_render ht'] at hread
    exact (Array.toList_inj.mp (Option.some_inj.mp hread)).symm

theorem listing_determines_contents_of_call :
    let a : Assembly := ⟨#[0x0C000000#32], ⟨.distinct, #[⟨"main", 0⟩]⟩, ⟨.repeating, #[⟨"f", 0⟩]⟩⟩
    a.render = ".text\n0c000000\n.symbol\n0\tmain\n.relocation\n0\tf\n" ∧
      ∀ b : Assembly, b.labels.OnLines → b.relocations.OnLines → b.render = a.render →
        b.words = a.words ∧ b.labels.symbols = a.labels.symbols ∧
          b.relocations.symbols = a.relocations.symbols := by
  intro a
  obtain ⟨-, hlisting, -⟩ := listing_determines_contents
  refine ⟨by cbv, fun b hlabels hrelocations h => ?_⟩
  have hnames : a.labels.OnLines ∧ a.relocations.OnLines := by
    constructor <;> simp [a, SymbolTable.OnLines]
  exact hlisting b a hlabels hrelocations hnames.1 hnames.2 h

end Assembly

end MipsAssembler
