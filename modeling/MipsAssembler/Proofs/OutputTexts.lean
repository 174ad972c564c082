/-
The texts that an assembler writes, line by line.

Every output is a text of lines, each with a line feed behind it.  What the lines are is said here from the
words, the tables and the instructions alone, digit by digit where there are digits:

* `Word.digits`, `Symbol.entry`, `Instruction.written` — the line of a word, of an entry and of an
  instruction;
* `Word.renderLines_eq`, `SymbolTable.render_eq`, `Layout.render_eq` — the three kinds of files;
* `Assembly.render_eq` — the listing, which is made of the same lines and three headings.

Design notes: a digit of a word is a remainder of a quotient, which does not depend on how many digits the
number has.  So a word has eight digits because eight are asked for, and not because it is padded.
-/
import Mathlib.Data.Nat.Digits.Defs
import MipsAssembler.Program

namespace MipsAssembler

/-- The text of some lines. -/
def Text.ofLines (lines : List String) : String := String.join (lines.map (· ++ "\n"))

theorem Text.ofLines_append (lines lines' : List String) :
    ofLines (lines ++ lines') = ofLines lines ++ ofLines lines' := by
  rw [ofLines, List.map_append, String.join_append]
  rfl

/-! ### Words -/

/-- The eight hexadecimal digits of a word, from the highest to the lowest. -/
def Word.digits (w : Word) : String :=
  String.ofList ((List.range 8).map fun k => (w.toNat / 16 ^ (7 - k) % 16).digitChar)

/-- A last digit stays behind the padding. -/
theorem Numeral.leftpad_append_singleton (k : Nat) (cs : List Char) (c : Char) :
    List.leftpad (k + 1) '0' (cs ++ [c]) = List.leftpad k '0' cs ++ [c] := by
  simp [List.leftpad]

/-- The digits of a number that is padded with zeros are those of its quotients by powers of the base. -/
theorem Numeral.leftpad_toDigits {base : Nat} (hbase : 1 < base) (k : Nat) :
    ∀ n < base ^ (k + 1), List.leftpad (k + 1) '0' (Nat.toDigits base n) =
      (List.range (k + 1)).map fun i => (n / base ^ (k - i) % base).digitChar := by
  induction k with
  | zero =>
    intro n hn
    rw [Nat.zero_add, Nat.pow_one] at hn
    rw [Nat.toDigits_of_lt_base hn]
    simp [List.leftpad, Nat.mod_eq_of_lt hn]
  | succ k ih =>
    intro n hn
    have hquotient : n / base < base ^ (k + 1) := by
      rw [Nat.div_lt_iff_lt_mul (by omega), ← Nat.pow_succ]
      exact hn
    -- All digits but the last are those of the quotient by the base.
    have hfront : ∀ i ∈ List.range (k + 1), (n / base ^ (k + 1 - i) % base).digitChar =
        (n / base / base ^ (k - i) % base).digitChar := by
      intro i hi
      have hexponent : k + 1 - i = (k - i) + 1 := by
        have := List.mem_range.mp hi
        omega
      rw [hexponent, Nat.pow_succ, Nat.mul_comm, Nat.div_div_eq_div_mul]
    rw [List.range_succ, List.map_append, List.map_congr_left hfront, ← ih _ hquotient,
      List.map_singleton, Nat.sub_self, Nat.pow_zero, Nat.div_one, Nat.toDigits_eq_if hbase]
    split
    case isTrue hlt =>
      have hzeros : List.leftpad (k + 1) '0' ['0'] = List.leftpad (k + 1) '0' [] := by
        simp [List.leftpad, List.replicate_succ']
      rw [Nat.mod_eq_of_lt hlt, Nat.div_eq_of_lt hlt, Nat.toDigits_zero, hzeros]
      exact leftpad_append_singleton (k + 1) [] _
    case isFalse => exact leftpad_append_singleton (k + 1) _ _

theorem Word.paddedHex_toNat (w : Word) : Numeral.paddedHex 8 w.toNat = w.digits := by
  have hbound : w.toNat < 16 ^ (7 + 1) := w.isLt
  rw [Numeral.paddedHex, Numeral.leftpad_toDigits (by omega) 7 _ hbound]
  rfl

theorem Word.renderLines_eq (words : List Word) :
    renderLines words = Text.ofLines (words.map digits) := by
  simp only [renderLines, paddedHex_toNat, Text.ofLines, List.map_map]
  rfl

example : Word.renderLines [0x0109082A#32, 12#32] = "0109082a\n0000000c\n" := by decide

/-! ### Tables -/

/-- The address of a symbol in decimal digits, a tab, and its name. -/
def Symbol.entry (s : Symbol) : String := toString s.address ++ "\t" ++ s.name

/-- The lines of a table, in the order of its entries. -/
def SymbolTable.entryLines (t : SymbolTable) : List String := t.symbols.toList.map Symbol.entry

theorem SymbolTable.render_eq (t : SymbolTable) : t.render = Text.ofLines t.entryLines := by
  rw [render, Text.ofLines, entryLines, List.map_map]
  rfl

/-! ### Instructions -/

/-- The mnemonic of an instruction, and its operands with a space in front of each. -/
def Instruction.written (i : Instruction) : String :=
  i.mnemonic ++ String.join (i.operands.map (" " ++ ·))

theorem Instruction.render_eq (i : Instruction) : i.render = i.written := by
  obtain ⟨mnemonic, operands⟩ := i
  show " ".intercalate (mnemonic :: operands) = mnemonic ++ String.join (operands.map (" " ++ ·))
  induction operands generalizing mnemonic with
  | nil => simp
  | cons operand operands ih =>
    rw [String.intercalate_cons_cons, ih operand, List.map_cons, String.join_cons]
    simp only [String.append_assoc]

/-- The lines of an expanded program. -/
def Layout.expandedLines (l : Layout) : List String :=
  l.instructions.toList.map fun p => p.instruction.written

theorem Layout.render_eq (l : Layout) : l.render = Text.ofLines l.expandedLines := by
  simp only [render, Instruction.renderLines, Instruction.render_eq, Text.ofLines, expandedLines,
    List.map_map]
  rfl

/-! ### Listings -/

/-- The lines of a listing: the words, the labels and the relocation sites, each under a heading. -/
def Assembly.listingLines (a : Assembly) : List String :=
  ".text" :: a.words.toList.map Word.digits ++ ".symbol" :: a.labels.entryLines ++
    ".relocation" :: a.relocations.entryLines

theorem Assembly.render_eq (a : Assembly) : a.render = Text.ofLines a.listingLines := by
  rw [render, renderText, renderLabels, renderRelocations, Word.renderLines_eq,
    SymbolTable.render_eq, SymbolTable.render_eq, listingLines, Text.ofLines_append,
    Text.ofLines_append]
  simp only [Text.ofLines, List.map_cons, String.join_cons]
  rfl

end MipsAssembler
