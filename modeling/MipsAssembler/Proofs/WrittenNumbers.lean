/-
Numbers that are written and then read.

An expansion hands its constants on as text, so what it means depends on numerals that come back with
the value that they were written for.  There is more than one way to write a number, and all of them are
read alike:

* `Numeral.Writes` — the numerals of a number: leading zeros are allowed, and digits may be in either
  case;
* `Operand.Writes` — the literals of a number: decimal, or hexadecimal behind `0x`, with a sign or without;
* `Operand.literal?_of_writes` — every literal of a number is read as that number;
* `Operand.writes_decimal`, `Operand.writes_signed` — the numerals that are printed are among them.

Design notes: an operand could be mistaken for something else by its first characters, a sign or `0x`.
Digits in base ten are neither, which is all that the readers of operands need to know about them.
-/
import MipsAssembler.Proofs.Spelling

namespace MipsAssembler

/-! ### Numerals -/

namespace Numeral

/-- Whether `c` is the digit `d`, in lower or in upper case. -/
def IsDigit (d : Nat) (c : Char) : Prop := c = d.digitChar ∨ c = d.digitChar.toUpper

/-- Whether `cs` is a numeral of `n`: one digit, or a numeral with one more digit at its end. -/
inductive Writes (base : Nat) : Nat → List Char → Prop
  | digit {d : Nat} {c : Char} : d < base → IsDigit d c → Writes base d [c]
  | snoc {n d : Nat} {cs : List Char} {c : Char} :
    Writes base n cs → d < base → IsDigit d c → Writes base (n * base + d) (cs ++ [c])

variable {base d n : Nat} {c : Char} {cs : List Char}

theorem digit?_of_isDigit (hd : d < base) (hbase : base ≤ 16) (hc : IsDigit d c) :
    digit? base c = some d := by
  have hvalue : digitValue? c = some d := by
    have hall : ∀ d < 16, digitValue? d.digitChar = some d ∧
        digitValue? d.digitChar.toUpper = some d := by decide
    rcases hc with rfl | rfl
    · exact (hall d (by omega)).1
    · exact (hall d (by omega)).2
  rw [digit?, hvalue, Option.filter_some, if_pos (decide_eq_true hd)]

theorem extend?_append (base : Nat) (cs ds : List Char) :
    ∀ acc, extend? base acc (cs ++ ds) = (extend? base acc cs).bind (extend? base · ds) := by
  induction cs with
  | nil =>
    intro acc
    rfl
  | cons c cs ih =>
    intro acc
    rw [List.cons_append, extend?, extend?]
    cases digit? base c with
    | none => rfl
    | some d => exact ih _

/-- A numeral has the value of the number that it writes. -/
theorem value?_of_writes (hbase : base ≤ 16) (h : Writes base n cs) : value? base cs = some n := by
  have hextend : extend? base 0 cs = some n := by
    induction h with
    | digit hd hc => simp [extend?, digit?_of_isDigit hd hbase hc]
    | snoc _ hd hc ih =>
      rw [extend?_append, ih]
      simp [extend?, digit?_of_isDigit hd hbase hc]
  cases h with
  | digit => exact hextend
  | @snoc _ _ cs c =>
    cases cs with
    | nil => exact hextend
    | cons => exact hextend

/-- The digits of `n` are a numeral of `n`. -/
theorem writes_toDigits (hlow : 1 < base) (n : Nat) : Writes base n (Nat.toDigits base n) := by
  induction n using Nat.strongRecOn with
  | ind n ih =>
    rw [Nat.toDigits_eq_if hlow]
    split
    case isTrue hlt => exact .digit hlt (.inl rfl)
    case isFalse hge =>
      -- The last digit comes off the end, and what is left is a smaller number.
      have hmod : n % base < base := Nat.mod_lt n (by omega)
      have hdiv : n / base < n := Nat.div_lt_self (by omega) hlow
      have hsnoc := (ih (n / base) hdiv).snoc hmod (.inl rfl)
      rwa [Nat.div_add_mod'] at hsnoc

/-- Numerals in base ten consist of the ten digits. -/
theorem Writes.isDigit_of_mem (h : Writes 10 n cs) (hc : c ∈ cs) : c.isDigit := by
  have hall : ∀ d < 10, d.digitChar.isDigit ∧ d.digitChar.toUpper.isDigit := by decide
  have hdigit : ∀ {d c}, d < 10 → IsDigit d c → c.isDigit := by
    rintro d c hd (rfl | rfl)
    · exact (hall d hd).1
    · exact (hall d hd).2
  induction h with
  | digit hd hc' =>
    rw [List.mem_singleton.mp hc]
    exact hdigit hd hc'
  | snoc _ hd hc' ih =>
    rcases List.mem_append.mp hc with hmem | hmem
    · exact ih hmem
    · rw [List.mem_singleton.mp hmem]
      exact hdigit hd hc'

end Numeral

/-! ### Literals -/

namespace Operand

/-- Whether `cs` writes `n` without a sign, in base ten or, behind `0x`, in base sixteen. -/
inductive WritesMagnitude (n : Nat) : List Char → Prop
  | decimal {cs : List Char} : Numeral.Writes 10 n cs → WritesMagnitude n cs
  | hex {cs : List Char} : Numeral.Writes 16 n cs → WritesMagnitude n ('0' :: 'x' :: cs)
  | upperHex {cs : List Char} : Numeral.Writes 16 n cs → WritesMagnitude n ('0' :: 'X' :: cs)

/-- Whether `cs` writes a number, with at most one sign. -/
inductive Writes : Int → List Char → Prop
  | unsigned {n : Nat} {cs : List Char} : WritesMagnitude n cs → Writes n cs
  | plus {n : Nat} {cs : List Char} : WritesMagnitude n cs → Writes n ('+' :: cs)
  | minus {n : Nat} {cs : List Char} : WritesMagnitude n cs → Writes (-n) ('-' :: cs)

variable {n : Nat} {v : Int} {cs : List Char}

/-- A character that is no digit does not occur in a decimal numeral. -/
theorem not_mem_of_writes {c : Char} (hc : c.isDigit = false) (h : Numeral.Writes 10 n cs) :
    c ∉ cs := by
  intro hmem
  rw [h.isDigit_of_mem hmem] at hc
  cases hc

theorem magnitude?_of_writes (h : WritesMagnitude n cs) : magnitude? cs = some n := by
  cases h with
  | hex h => exact Numeral.value?_of_writes (by omega) h
  | upperHex h => exact Numeral.value?_of_writes (by omega) h
  | decimal h =>
    rw [magnitude?.eq_def]
    split
    case h_1 cs =>
      have hx := not_mem_of_writes (c := 'x') rfl h
      simp at hx
    case h_2 cs =>
      have hx := not_mem_of_writes (c := 'X') rfl h
      simp at hx
    case h_3 => exact Numeral.value?_of_writes (by omega) h

/-- A magnitude does not start with a sign. -/
theorem WritesMagnitude.not_sign {c : Char} (h : WritesMagnitude n (c :: cs)) : c ≠ '-' ∧ c ≠ '+' := by
  cases h with
  | hex | upperHex => decide
  | decimal h =>
    constructor
    · rintro rfl
      exact not_mem_of_writes rfl h List.mem_cons_self
    · rintro rfl
      exact not_mem_of_writes rfl h List.mem_cons_self

/-- Every literal of a number is read as that number. -/
theorem literal?_of_writes (h : Writes v cs) : literal? cs = some v := by
  cases h with
  | plus h =>
    rw [literal?, magnitude?_of_writes h]
    rfl
  | minus h =>
    rw [literal?, magnitude?_of_writes h]
    rfl
  | unsigned h =>
    -- A magnitude starts with a digit, so neither of the signs is taken off.
    rw [literal?.eq_def]
    split
    case h_1 cs => exact absurd rfl h.not_sign.1
    case h_2 cs => exact absurd rfl h.not_sign.2
    case h_3 =>
      rw [magnitude?_of_writes h]
      rfl

/-- A number is read wherever it lies in range, however it is written. -/
theorem number_of_writes {n : String} {lower upper : Int} (h : Writes v n.toList)
    (hlower : lower ≤ v) (hupper : v ≤ upper) : number n lower upper = .ok v :=
  number_eq_ok_iff.mpr ⟨literal?_of_writes h, hlower, hupper⟩

/-! ### Printed numbers -/

theorem writes_decimal (n : Nat) : Writes n (Numeral.decimal n).toList := by
  rw [Numeral.decimal, String.toList_ofList]
  exact .unsigned (.decimal (Numeral.writes_toDigits (by omega) n))

theorem writes_signed (v : Int) : Writes v (Numeral.signed v).toList := by
  rw [Numeral.signed]
  split
  case isTrue hneg =>
    have htext : ("-" ++ Numeral.decimal v.natAbs).toList = '-' :: Nat.toDigits 10 v.natAbs := by
      simp [Numeral.decimal]
    have hv : -(v.natAbs : Int) = v := by omega
    have hminus := Writes.minus (.decimal (Numeral.writes_toDigits (by omega) v.natAbs))
    rw [hv] at hminus
    rw [htext]
    exact hminus
  case isFalse hnonneg =>
    have hv : (v.natAbs : Int) = v := by omega
    have hdecimal := writes_decimal v.natAbs
    rwa [hv] at hdecimal

end Operand

end MipsAssembler
