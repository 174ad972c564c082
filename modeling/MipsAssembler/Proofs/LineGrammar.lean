/-
The grammar of a line.

`Line.Reads` says what a line holds in the terms of a grammar, with one rule for each kind of line and
without a word on how a line is taken apart:

* `Line.IsCode` — the part of a line in front of its comment;
* `Line.whiteSpace`, `Line.separators` — the blanks, and the characters that separate words;
* `Line.IsLabelled` — a run and a colon, with nothing but blanks before, between and then anything;
* `Line.Tokens` — a list of words with gaps around them, none of which is empty between two words;
* `Line.tokens_iff` — the words of a text are the only list of words that it can be taken for;
* `Line.parse_eq_iff_reads` — a line is read as the grammar says and in no other way.

Design notes: a colon belongs to a label only if a single run stands in front of it.  Anywhere else it is
a character like any other, and so are commas and parentheses inside that run: they make an ill-formed
label and not a line without one.
-/
import Mathlib
import MipsAssembler.Proofs.PrintedLines
import MipsAssembler.Proofs.Spelling

namespace MipsAssembler.Line

open Text (isBlank blankRanges)

variable {c : Char} {cs t gap rest name comment : List Char} {ts : List (List Char)}
  {text : String} {lineNo : Nat} {r : Except Error (Option Line)}

/-! ### Comments -/

/-- Whether `t` is `cs` up to its first `#`, or all of it if there is none. -/
def IsCode (cs t : List Char) : Prop := '#' ∉ t ∧ (cs = t ∨ ∃ comment, cs = t ++ '#' :: comment)

theorem code_append_comment (t comment : List Char) : code (t ++ '#' :: comment) = code t := by
  induction t with
  | nil => rfl
  | cons c t ih =>
    rw [code, List.cons_append, List.takeWhile_cons, code, List.takeWhile_cons]
    by_cases hc : c != '#'
    · rw [if_pos hc, if_pos hc]
      exact congrArg (c :: ·) ih
    · rw [if_neg hc, if_neg hc]

theorem isCode_code (cs : List Char) : IsCode cs (code cs) := by
  refine ⟨fun hmem => ?_, ?_⟩
  · have hne := List.mem_takeWhile_imp hmem
    exact absurd rfl (bne_iff_ne.mp hne)
  · have hsplit : code cs ++ cs.dropWhile (· != '#') = cs := List.takeWhile_append_dropWhile
    cases hrest : cs.dropWhile (· != '#') with
    | nil =>
      rw [hrest, List.append_nil] at hsplit
      exact .inl hsplit.symm
    | cons c comment =>
      -- What is left starts with the first character that ends the code.
      have hc : c = '#' := by
        have hhead := List.head?_dropWhile_not (· != '#') cs
        rw [hrest] at hhead
        simpa using hhead
      rw [hrest, hc] at hsplit
      exact .inr ⟨comment, hsplit.symm⟩

theorem isCode_iff : IsCode cs t ↔ code cs = t := by
  constructor
  · rintro ⟨hmem, rfl | ⟨comment, rfl⟩⟩
    · exact code_of_not_mem hmem
    · rw [code_append_comment, code_of_not_mem hmem]
  · rintro rfl
    exact isCode_code cs

/-! ### Separators -/

/-- The characters with the Unicode property `White_Space`. -/
def whiteSpace : List Char :=
  ['\t', '\n', '\x0b', '\x0c', '\r', ' ', '\u0085', '\u00a0', '\u1680', '\u2000', '\u2001', '\u2002',
    '\u2003', '\u2004', '\u2005', '\u2006', '\u2007', '\u2008', '\u2009', '\u200a', '\u2028', '\u2029',
    '\u202f', '\u205f', '\u3000']

/-- The characters that separate words. -/
def separators : List Char := whiteSpace ++ [',', '(', ')']

theorem isBlank_iff : isBlank c ↔ c ∈ whiteSpace := by
  constructor
  · intro h
    have hranges : ∀ r ∈ blankRanges, ∀ n ∈ List.range' r.1 (r.2 + 1 - r.1),
        Char.ofNat n ∈ whiteSpace := by decide
    obtain ⟨r, hr, hin⟩ := List.any_eq_true.mp h
    simp only [Bool.and_eq_true, decide_eq_true_eq] at hin
    have hmem : c.toNat ∈ List.range' r.1 (r.2 + 1 - r.1) := by
      rw [List.mem_range'_1]
      omega
    rw [← Char.ofNat_toNat c]
    exact hranges r hr _ hmem
  · have hall : whiteSpace.all isBlank := by rfl
    exact List.all_eq_true.mp hall c

theorem isSeparator_iff : isSeparator c ↔ c ∈ separators := by
  simp only [isSeparator, Bool.or_eq_true, isBlank_iff, beq_iff_eq, separators, List.mem_append,
    List.mem_cons, List.not_mem_nil, or_false, or_assoc]

/-! ### Words -/

/-- Whether `cs` holds nothing but separators. -/
def IsGap (cs : List Char) : Prop := ∀ c ∈ cs, c ∈ separators

/-- Whether `cs` holds something, and no separator. -/
def IsToken (cs : List Char) : Prop := cs ≠ [] ∧ ∀ c ∈ cs, c ∉ separators

/-- Whether `cs` consists of the words `ts`, each with a gap behind it that may be empty only behind the
last one. -/
inductive Pieces : List Char → List (List Char) → Prop
  | nil : Pieces [] []
  | cons {t gap rest : List Char} {ts : List (List Char)} :
    IsToken t → IsGap gap → (ts ≠ [] → gap ≠ []) → Pieces rest ts →
      Pieces (t ++ gap ++ rest) (t :: ts)

/-- Whether `cs` consists of a gap and then the words `ts`, each with a gap behind it. -/
def Tokens (cs : List Char) (ts : List (List Char)) : Prop :=
  ∃ lead rest, IsGap lead ∧ cs = lead ++ rest ∧ Pieces rest ts

theorem Pieces.eq_nil (h : Pieces cs []) : cs = [] := by
  cases h
  rfl

theorem words_append_of_isGap (h : IsGap gap) (cs : List Char) :
    words (gap ++ cs) = words cs := by
  induction gap with
  | nil => rfl
  | cons c gap ih =>
    obtain ⟨hc, hgap⟩ := List.forall_mem_cons.mp h
    have hcut : words ([] ++ c :: (gap ++ cs)) = words [] ++ words (gap ++ cs) :=
      words_append_separator (isSeparator_iff.mpr hc)
    rw [List.cons_append, ← List.nil_append (c :: (gap ++ cs)), hcut, ih hgap]
    rfl

theorem words_of_pieces (h : Pieces cs ts) : words cs = ts.map String.ofList := by
  induction h with
  | nil => rfl
  | @cons t gap rest ts ht hgap hbetween hrest ih =>
    have hword : words t = [String.ofList t] := words_of_not_isSeparator ht.1 fun c hc => by
      rw [← Bool.not_eq_true, isSeparator_iff]
      exact ht.2 c hc
    rw [List.append_assoc]
    cases gap with
    | nil =>
      -- Without a gap this is the last word, and nothing is left behind it.
      have hlast : ts = [] := by
        by_contra hne
        exact hbetween hne rfl
      subst hlast
      rw [hrest.eq_nil, List.nil_append, List.append_nil, hword]
      rfl
    | cons c gap =>
      obtain ⟨hc, hgap⟩ := List.forall_mem_cons.mp hgap
      rw [List.cons_append, words_append_separator (isSeparator_iff.mpr hc), words_append_of_isGap hgap, hword, ih]
      rfl

theorem words_of_tokens (h : Tokens cs ts) : words cs = ts.map String.ofList := by
  obtain ⟨lead, rest, hlead, rfl, hpieces⟩ := h
  rw [words_append_of_isGap hlead, words_of_pieces hpieces]

/-- Every text can be taken for a list of words.  The induction puts one character in front of the text:
a separator joins the first gap, and any other character starts a word or joins the first one. -/
theorem exists_tokens (cs : List Char) : ∃ ts, Tokens cs ts := by
  induction cs with
  | nil => exact ⟨[], [], [], by simp [IsGap], rfl, .nil⟩
  | cons c cs ih =>
    obtain ⟨ts, lead, rest, hlead, rfl, hpieces⟩ := ih
    by_cases hc : c ∈ separators
    · exact ⟨ts, c :: lead, rest, List.forall_mem_cons.mpr ⟨hc, hlead⟩, rfl, hpieces⟩
    -- A character that separates nothing starts a token or joins the one behind it, depending on
    -- whether there is a gap in between.
    have hsingle : IsToken [c] := ⟨List.cons_ne_nil c [], by simpa using hc⟩
    have hnone : IsGap [] := by simp [IsGap]
    cases lead with
    | cons x lead =>
      exact ⟨[c] :: ts, [], _, hnone, by simp,
        .cons hsingle hlead (fun _ => List.cons_ne_nil x lead) hpieces⟩
    | nil =>
      cases hpieces with
      | nil => exact ⟨[[c]], [], _, hnone, rfl, .cons hsingle hnone (fun h => absurd rfl h) .nil⟩
      | @cons t gap rest ts ht hgap hbetween hrest =>
        have ht : IsToken (c :: t) :=
          ⟨List.cons_ne_nil c t, List.forall_mem_cons.mpr ⟨hc, ht.2⟩⟩
        exact ⟨(c :: t) :: ts, [], _, hnone, by simp, .cons ht hgap hbetween hrest⟩

theorem map_ofList_injective : Function.Injective (List.map String.ofList) :=
  List.map_injective_iff.mpr fun _ _ => String.ofList_inj.mp

/-- The words of a text are the only list of words that it can be taken for. -/
theorem tokens_iff : Tokens cs ts ↔ words cs = ts.map String.ofList := by
  refine ⟨words_of_tokens, fun h => ?_⟩
  obtain ⟨ts', hts'⟩ := exists_tokens cs
  have heq : ts' = ts := map_ofList_injective ((words_of_tokens hts').symm.trans h)
  rwa [heq] at hts'

theorem existsUnique_tokens (cs : List Char) : ∃! ts, Tokens cs ts := by
  obtain ⟨ts, hts⟩ := exists_tokens cs
  refine ⟨ts, hts, fun ts' hts' => ?_⟩
  exact map_ofList_injective ((words_of_tokens hts').symm.trans (words_of_tokens hts))

/-! ### Labels -/

/-- Whether `t` is `name`, a run without blanks and colons, then a colon and then `rest`, with nothing but
blanks before `name` and between `name` and the colon. -/
def IsLabelled (t name rest : List Char) : Prop :=
  ∃ before after, (∀ c ∈ before, c ∈ whiteSpace) ∧ (∀ c ∈ after, c ∈ whiteSpace) ∧
    name ≠ [] ∧ (∀ c ∈ name, c ∉ whiteSpace ∧ c ≠ ':') ∧
      t = before ++ name ++ after ++ ':' :: rest

theorem isLabelled_iff : IsLabelled t name rest ↔ splitLabel? t = some (name, rest) := by
  have hrun : ∀ c, isRun c ↔ c ∉ whiteSpace ∧ c ≠ ':' := by
    intro c
    rw [isRun, Bool.and_eq_true, Bool.not_eq_true', bne_iff_ne, ← Bool.not_eq_true, isBlank_iff]
  simp only [splitLabel?_eq_some_iff, hrun, isBlank_iff, IsLabelled, List.append_assoc]
  constructor
  · rintro ⟨before, after, hbefore, hafter, hne, hname, rfl⟩
    exact ⟨hne, hname, before, after, hbefore, hafter, rfl⟩
  · rintro ⟨hne, hname, before, after, hbefore, hafter, rfl⟩
    exact ⟨before, after, hbefore, hafter, hne, hname, rfl⟩

/-- Whether `c` is one of the fifty-two letters of ASCII. -/
def IsLetter (c : Char) : Prop := ('A' ≤ c ∧ c ≤ 'Z') ∨ ('a' ≤ c ∧ c ≤ 'z')

instance : DecidablePred IsLetter := fun _ => inferInstanceAs (Decidable (_ ∨ _))

/-- Whether `cs` is a letter or underscore and then letters, digits and underscores. -/
inductive IsName : List Char → Prop
  | mk {c : Char} {cs : List Char} : IsLetter c ∨ c = '_' →
    (∀ c ∈ cs, IsLetter c ∨ ('0' ≤ c ∧ c ≤ '9') ∨ c = '_') → IsName (c :: cs)

theorem isAlpha_iff : c.isAlpha ↔ IsLetter c := by
  simp only [Char.isAlpha, Char.isUpper, Char.isLower, Bool.or_eq_true, Bool.and_eq_true,
    decide_eq_true_eq]
  exact Iff.rfl

theorem isName_iff : IsName cs ↔ Operand.isLabel cs := by
  have hstart : ∀ c, Operand.isLabelStart c ↔ IsLetter c ∨ c = '_' := by
    intro c
    rw [Operand.isLabelStart, Bool.or_eq_true, isAlpha_iff, beq_iff_eq]
  have hpart : ∀ c, Operand.isLabelPart c ↔ IsLetter c ∨ ('0' ≤ c ∧ c ≤ '9') ∨ c = '_' := by
    intro c
    -- The library compares code points here, and characters are ordered by these.
    have hdigit : c.isDigit ↔ '0' ≤ c ∧ c ≤ '9' := by
      simp only [Char.isDigit, Bool.and_eq_true, decide_eq_true_eq]
      exact Iff.rfl
    rw [Operand.isLabelPart, Char.isAlphanum, Bool.or_eq_true, Bool.or_eq_true, isAlpha_iff, hdigit,
      beq_iff_eq, or_assoc]
  cases cs with
  | nil => exact ⟨nofun, nofun⟩
  | cons c cs =>
    simp only [Operand.isLabel, Bool.and_eq_true, List.all_eq_true, hstart, hpart]
    constructor
    · rintro ⟨hc, hcs⟩
      exact ⟨hc, hcs⟩
    · rintro ⟨hc, hcs⟩
      exact ⟨hc, hcs⟩

/-! ### Lines -/

/-- What the line with number `lineNo` and code `t` is read as. -/
inductive Reads (lineNo : Nat) (t : List Char) : Except Error (Option Line) → Prop
  | illFormed {name rest : List Char} :
    IsLabelled t name rest → ¬IsName name →
      Reads lineNo t (.error (.invalidOperand (String.ofList name)))
  | label {name rest : List Char} :
    IsLabelled t name rest → IsName name → Tokens rest [] →
      Reads lineNo t (.ok (some ⟨lineNo, some (String.ofList name), none⟩))
  | both {name rest mnemonic : List Char} {operands : List (List Char)} :
    IsLabelled t name rest → IsName name → Tokens rest (mnemonic :: operands) →
      Reads lineNo t (.ok (some ⟨lineNo, some (String.ofList name),
        some ⟨String.ofList mnemonic, operands.map String.ofList⟩⟩))
  | instruction {mnemonic : List Char} {operands : List (List Char)} :
    (∀ name rest, ¬IsLabelled t name rest) → Tokens t (mnemonic :: operands) →
      Reads lineNo t (.ok (some ⟨lineNo, none,
        some ⟨String.ofList mnemonic, operands.map String.ofList⟩⟩))
  | nothing :
    (∀ name rest, ¬IsLabelled t name rest) → Tokens t [] → Reads lineNo t (.ok none)

theorem parse_of_isLabelled (h : IsLabelled (code text.toList) name rest) (lineNo : Nat) :
    parse text lineNo = (Operand.label (String.ofList name)).map fun label =>
      some ⟨lineNo, some label, Instruction.ofWords? (words rest)⟩ := by
  simp only [parse, isLabelled_iff.mp h]
  rfl

theorem parse_of_not_isLabelled (h : ∀ name rest, ¬IsLabelled (code text.toList) name rest)
    (lineNo : Nat) :
    parse text lineNo = .ok ((Instruction.ofWords? (words (code text.toList))).map
      fun i => ⟨lineNo, none, some i⟩) := by
  have hnone : splitLabel? (code text.toList) = none := by
    refine Option.eq_none_iff_forall_ne_some.mpr fun label hlabel => ?_
    exact h label.1 label.2 (isLabelled_iff.mpr hlabel)
  simp only [parse, hnone]
  rfl

theorem label_of_isName (h : IsName name) :
    Operand.label (String.ofList name) = .ok (String.ofList name) := by
  refine Operand.label_eq_ok_iff.mpr ⟨?_, rfl⟩
  rw [String.toList_ofList]
  exact isName_iff.mp h

theorem label_of_not_isName (h : ¬IsName name) :
    Operand.label (String.ofList name) = .error (.invalidOperand (String.ofList name)) := by
  rw [isName_iff] at h
  rw [Operand.label, String.toList_ofList, if_neg h]

/-- A line is read as each rule says. -/
theorem Reads.parse_eq (h : Reads lineNo (code text.toList) r) : parse text lineNo = r := by
  cases h with
  | illFormed hlabel hname =>
    rw [parse_of_isLabelled hlabel, label_of_not_isName hname]
    rfl
  | label hlabel hname htokens =>
    rw [parse_of_isLabelled hlabel, label_of_isName hname, words_of_tokens htokens]
    rfl
  | both hlabel hname htokens =>
    rw [parse_of_isLabelled hlabel, label_of_isName hname, words_of_tokens htokens]
    rfl
  | instruction hnone htokens =>
    rw [parse_of_not_isLabelled hnone, words_of_tokens htokens]
    rfl
  | nothing hnone htokens =>
    rw [parse_of_not_isLabelled hnone, words_of_tokens htokens]
    rfl

/-- Some rule applies to every line. -/
theorem exists_reads (lineNo : Nat) (t : List Char) : ∃ r, Reads lineNo t r := by
  by_cases hlabel : ∃ name rest, IsLabelled t name rest
  · obtain ⟨name, rest, hlabel⟩ := hlabel
    by_cases hname : IsName name
    · obtain ⟨ts, htokens⟩ := exists_tokens rest
      cases ts with
      | nil => exact ⟨_, .label hlabel hname htokens⟩
      | cons mnemonic operands => exact ⟨_, .both hlabel hname htokens⟩
    · exact ⟨_, .illFormed hlabel hname⟩
  · have hnone : ∀ name rest, ¬IsLabelled t name rest :=
      fun name rest h => hlabel ⟨name, rest, h⟩
    obtain ⟨ts, htokens⟩ := exists_tokens t
    cases ts with
    | nil => exact ⟨_, .nothing hnone htokens⟩
    | cons mnemonic operands => exact ⟨_, .instruction hnone htokens⟩

theorem parse_eq_iff_reads :
    parse text lineNo = r ↔ ∃ t, IsCode text.toList t ∧ Reads lineNo t r := by
  constructor
  · rintro rfl
    obtain ⟨r, hr⟩ := exists_reads lineNo (code text.toList)
    rw [hr.parse_eq]
    exact ⟨_, isCode_code _, hr⟩
  · rintro ⟨t, ht, hr⟩
    rw [← isCode_iff.mp ht] at hr
    exact hr.parse_eq

theorem parse_append_comment (a comment : String) (lineNo : Nat) :
    parse (a ++ "#" ++ comment) lineNo = parse a lineNo := by
  have htext : (a ++ "#" ++ comment).toList = a.toList ++ '#' :: comment.toList := by simp
  simp only [parse, htext, code_append_comment]

/-- **A line is read by its grammar.**  The result for a line is the one that the grammar gives for its
code, whatever the line: an ill-formed label is refused as a whole, and otherwise the line holds its
label, if a colon makes one, with the first word behind it as the mnemonic and all others as operands.
There is one way only to take a text for words, and a comment changes nothing. -/
theorem reads_by_grammar (text : String) (lineNo : Nat) :
    (∀ r, parse text lineNo = r ↔ ∃ t, IsCode text.toList t ∧ Reads lineNo t r) ∧
    (parse text lineNo = .ok none ↔ ∃ t, IsCode text.toList t ∧
      (∀ name rest, ¬IsLabelled t name rest) ∧ Tokens t []) ∧
    (∀ cs, ∃! ts, Tokens cs ts) ∧
    ∀ a comment, parse (a ++ "#" ++ comment) lineNo = parse a lineNo := by
  refine ⟨fun r => parse_eq_iff_reads, ?_, existsUnique_tokens,
    fun a comment => parse_append_comment a comment lineNo⟩
  rw [parse_eq_iff_reads]
  constructor
  · rintro ⟨t, ht, ⟨⟩⟩
    exact ⟨t, ht, ‹_›, ‹_›⟩
  · rintro ⟨t, ht, hnone, htokens⟩
    exact ⟨t, ht, .nothing hnone htokens⟩

/-- A label with blanks around it, one of them outside ASCII, in front of an instruction whose operands
are separated by a comma and parentheses, and a comment with a colon in it. -/
theorem reads_by_grammar_of_labelled_load :
    parse " loop\u00a0:lw $t0,4($sp)# a: b" 7 =
      .ok (some ⟨7, some "loop", some ⟨"lw", ["$t0", "4", "$sp"]⟩⟩) := by
  have hlabel : IsLabelled " loop\u00a0:lw $t0,4($sp)".toList "loop".toList
      "lw $t0,4($sp)".toList :=
    ⟨[' '], ['\u00a0'], by simp [whiteSpace], by simp [whiteSpace], by simp, by simp [whiteSpace], rfl⟩
  have hname : IsName "loop".toList := isName_iff.mpr rfl
  have htokens : Tokens "lw $t0,4($sp)".toList ["lw".toList, "$t0".toList, "4".toList, "$sp".toList] :=
    tokens_iff.mpr (by decide)
  exact ((reads_by_grammar _ 7).1 _).mpr
    ⟨_, ⟨by decide, .inr ⟨" a: b".toList, rfl⟩⟩, .both hlabel hname htokens⟩

end MipsAssembler.Line
