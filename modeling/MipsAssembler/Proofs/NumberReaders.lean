/-
Which texts are numbers.

Numbers are read from operands and from the command line, by readers that differ in the signs that they
take and in the width that they allow.  What each of them accepts is a grammar, and where the grammars
agree the readers do:

* `Operand.literal?_eq_some_iff` — the literals of a number are read as that number, and nothing else is
  read at all;
* `Operand.fixedWidthNumber` — the reading of an operand in sixty-four bits, one digit at a time;
* `Operand.number_reads_literals` — what is accepted between two bounds, and that sixty-four bits are
  enough for it;
* `Address.Writes` — the ways to write an address;
* `Address.parse_agrees_with_number` — an address is read from just these, and without a sign it is read
  as an operand would be.

Design notes: a reader with a fixed width gives up at the first digit that takes it out of its range.
Digits behind it can only take it further away, so it gives up exactly on the numbers that are too wide
as a whole.
-/
import Mathlib.Algebra.Group.Nat.Defs
import MipsAssembler.Address
import MipsAssembler.Proofs.Outcome
import MipsAssembler.Proofs.WrittenNumbers

namespace MipsAssembler

/-! ### Numerals -/

namespace Numeral

variable {base d n acc : Nat} {c : Char} {cs ds : List Char}

theorem isDigit_of_digitValue? (h : digitValue? c = some d) : IsDigit d c := by
  -- A digit is one of three ranges of characters, and its value is its place in the range.
  have hplace : ∀ {low high : Char}, low ≤ c ∧ c ≤ high →
      c = Char.ofNat (low.toNat + (c.toNat - low.toNat)) ∧ c.toNat - low.toNat ≤ high.toNat - low.toNat := by
    intro low high hc
    have hlow : low.toNat ≤ c.toNat := hc.1
    have hhigh : c.toNat ≤ high.toNat := hc.2
    rw [Nat.add_sub_cancel' hlow, Char.ofNat_toNat]
    exact ⟨rfl, by omega⟩
  have hdecimal : ∀ d ≤ 9, Char.ofNat ('0'.toNat + d) = d.digitChar := by decide
  have hlower : ∀ d ≤ 5, Char.ofNat ('a'.toNat + d) = (d + 10).digitChar := by decide
  have hupper : ∀ d ≤ 5, Char.ofNat ('A'.toNat + d) = (d + 10).digitChar.toUpper := by decide
  unfold digitValue? at h
  split at h
  case isTrue hc =>
    obtain rfl := Option.some_inj.mp h
    obtain ⟨heq, hle⟩ := hplace hc
    exact .inl (heq.trans (hdecimal _ hle))
  case isFalse =>
    split at h
    case isTrue hc =>
      obtain rfl := Option.some_inj.mp h
      obtain ⟨heq, hle⟩ := hplace hc
      exact .inl (heq.trans (hlower _ hle))
    case isFalse =>
      split at h
      case isTrue hc =>
        obtain rfl := Option.some_inj.mp h
        obtain ⟨heq, hle⟩ := hplace hc
        exact .inr (heq.trans (hupper _ hle))
      case isFalse => cases h

theorem isDigit_of_digit? (h : digit? base c = some d) : d < base ∧ IsDigit d c := by
  obtain ⟨hvalue, hlt⟩ := Option.filter_eq_some_iff.mp h
  exact ⟨of_decide_eq_true hlt, isDigit_of_digitValue? hvalue⟩

/-- Digits that are read behind a numeral make a longer numeral. -/
theorem Writes.append_of_extend? (h : Writes base acc ds) (hcs : extend? base acc cs = some n) :
    Writes base n (ds ++ cs) := by
  induction cs generalizing acc ds with
  | nil =>
    obtain rfl := Option.some_inj.mp hcs
    rwa [List.append_nil]
  | cons c cs ih =>
    rw [extend?] at hcs
    split at hcs
    case h_1 d hd =>
      obtain ⟨hlt, hdigit⟩ := isDigit_of_digit? hd
      have hlonger := ih (h.snoc hlt hdigit) hcs
      rwa [List.append_assoc] at hlonger
    case h_2 => cases hcs

theorem writes_of_value? (h : value? base cs = some n) : Writes base n cs := by
  cases cs with
  | nil => cases h
  | cons c cs =>
    rw [value?.eq_2 _ _ (List.cons_ne_nil c cs), extend?] at h
    split at h
    case h_1 d hd =>
      obtain ⟨hlt, hdigit⟩ := isDigit_of_digit? hd
      rw [Nat.zero_mul, Nat.zero_add] at h
      exact (Writes.digit hlt hdigit).append_of_extend? h
    case h_2 => cases h

/-- A number is read from its numerals and from nothing else. -/
theorem value?_eq_some_iff (hbase : base ≤ 16) : value? base cs = some n ↔ Writes base n cs :=
  ⟨writes_of_value?, value?_of_writes hbase⟩

/-- A numeral starts with a digit, and so with no sign. -/
theorem Writes.exists_cons (hbase : base ≤ 16) (h : Writes base n cs) :
    ∃ c ds, cs = c :: ds ∧ c ≠ '+' ∧ c ≠ '-' := by
  have hvalue := value?_of_writes hbase h
  cases cs with
  | nil => cases hvalue
  | cons c ds =>
    refine ⟨c, ds, rfl, ?_, ?_⟩
    · rintro rfl
      cases hvalue
    · rintro rfl
      cases hvalue

/-- Digits that are written behind a number never make it smaller. -/
theorem le_of_extend? (hbase : 0 < base) (h : extend? base acc cs = some n) : acc ≤ n := by
  induction cs generalizing acc with
  | nil => exact Nat.le_of_eq (Option.some_inj.mp h)
  | cons c cs ih =>
    rw [extend?] at h
    split at h
    case h_1 d _ =>
      have hmul : acc ≤ acc * base := Nat.le_mul_of_pos_right acc hbase
      have hle := ih h
      omega
    case h_2 => cases h

/-! ### Digits in sixty-four bits -/

/-- `v`, if sixty-four bits in two's complement hold it. -/
def fit? (v : Int) : Option Int :=
  if -0x8000000000000000 ≤ v ∧ v ≤ 0x7FFFFFFFFFFFFFFF then some v else none

/-- The number that `acc` becomes when the digits `cs` are written after it, each of them counted with
`sign`.  No step may leave sixty-four bits. -/
def extendFit? (base : Nat) (sign acc : Int) : List Char → Option Int
  | [] => some acc
  | c :: cs => do
    let d ← digit? base c
    let shifted ← fit? (acc * base)
    let next ← fit? (shifted + sign * d)
    extendFit? base sign next cs

/-- The number that one or more digits write, with at most one sign in front. -/
def signedFit? (base : Nat) : List Char → Option Int
  | [] => none
  | ['+'] => none
  | ['-'] => none
  | '+' :: cs => extendFit? base 1 0 cs
  | '-' :: cs => extendFit? base (-1) 0 cs
  | cs => extendFit? base 1 0 cs

theorem fit?_of_lt (h : n < 0x8000000000000000) : fit? n = some (n : Int) := by
  rw [fit?, if_pos (by omega)]

theorem fit?_of_le (h : 0x8000000000000000 ≤ n) : fit? n = none := by
  rw [fit?, if_neg (by omega)]

/-- Once a number is too wide, no digits behind it bring it back. -/
theorem extend?_bind_fit?_of_le (hbase : 0 < base) (h : 0x8000000000000000 ≤ acc) :
    ((extend? base acc cs).bind fun n => fit? n) = none := by
  cases hn : extend? base acc cs with
  | none => rfl
  | some n =>
    have hle := le_of_extend? hbase hn
    exact fit?_of_le (by omega)

/-- Looking at the width after every digit comes to the same as looking at it once. -/
theorem extendFit?_eq (hbase : 0 < base) (h : acc < 0x8000000000000000) :
    extendFit? base 1 acc cs = (extend? base acc cs).bind fun n => fit? n := by
  induction cs generalizing acc with
  | nil => exact (fit?_of_lt h).symm
  | cons c cs ih =>
    rw [extendFit?, extend?]
    cases digit? base c with
    | none => rfl
    | some d =>
      have hshifted : (acc : Int) * base = ((acc * base : Nat) : Int) := by push_cast; rfl
      have hnext : ((acc * base : Nat) : Int) + 1 * (d : Int) = ((acc * base + d : Nat) : Int) := by
        push_cast
        omega
      show (fit? (acc * base)).bind (fun shifted => (fit? (shifted + 1 * d)).bind fun next =>
        extendFit? base 1 next cs) = (extend? base (acc * base + d) cs).bind fun n => fit? n
      rw [hshifted]
      -- Either the product or the sum may leave the range; later digits do not lead back.
      by_cases hmul : acc * base < 0x8000000000000000
      · rw [fit?_of_lt hmul, Option.bind_some, hnext]
        by_cases hadd : acc * base + d < 0x8000000000000000
        · rw [fit?_of_lt hadd, Option.bind_some, ih hadd]
        · rw [fit?_of_le (by omega), Option.bind_none, extend?_bind_fit?_of_le hbase (by omega)]
      · rw [fit?_of_le (by omega), Option.bind_none, extend?_bind_fit?_of_le hbase (by omega)]

end Numeral

/-! ### Literals -/

namespace Operand

variable {n : Nat} {v lower upper : Int} {c : Char} {cs : List Char}

theorem writesMagnitude_of_magnitude? (h : magnitude? cs = some n) : WritesMagnitude n cs := by
  unfold magnitude? at h
  split at h
  case h_1 => exact .hex (Numeral.writes_of_value? h)
  case h_2 => exact .upperHex (Numeral.writes_of_value? h)
  case h_3 => exact .decimal (Numeral.writes_of_value? h)

theorem writes_of_literal? (h : literal? cs = some v) : Writes v cs := by
  unfold literal? at h
  split at h
  all_goals
    obtain ⟨_, hbind, rfl⟩ := Option.map_eq_some_iff.mp h
    obtain ⟨n, hn, hpure⟩ := Option.bind_eq_some_iff.mp hbind
    obtain rfl := Option.some_inj.mp hpure
    have hwrites := writesMagnitude_of_magnitude? hn
  · exact .minus hwrites
  · exact .plus hwrites
  · exact .unsigned hwrites

/-- A number is read from its literals and from nothing else. -/
theorem literal?_eq_some_iff : literal? cs = some v ↔ Writes v cs :=
  ⟨writes_of_literal?, literal?_of_writes⟩

/-! ### Operands in sixty-four bits -/

/-- Whether a text has a minus sign, and what stands behind its sign. -/
def splitSign : List Char → Bool × List Char
  | '-' :: cs => (true, cs)
  | '+' :: cs => (false, cs)
  | cs => (false, cs)

/-- The base of an unsigned literal, and its digits. -/
def splitBase : List Char → Nat × List Char
  | '0' :: 'x' :: cs => (16, cs)
  | '0' :: 'X' :: cs => (16, cs)
  | cs => (10, cs)

/-- Whether a text starts with a digit of base sixteen. -/
def startsWithDigit : List Char → Bool
  | [] => false
  | c :: _ => (Numeral.digitValue? c).isSome

/-- The value of an unsigned literal in sixty-four bits.  Its digits have to start with one, or else they
could bring a sign of their own. -/
def fixedWidthMagnitude? (cs : List Char) : Option Int :=
  let (base, digits) := splitBase cs
  if startsWithDigit digits then Numeral.signedFit? base digits else none

/-- The value of a literal in sixty-four bits, with at most one sign. -/
def fixedWidth? (cs : List Char) : Option Int :=
  let (negative, unsigned) := splitSign cs
  (fixedWidthMagnitude? unsigned).map fun v => if negative then -v else v

/-- The number that an operand spells in sixty-four bits, between `lower` and `upper` inclusive. -/
def fixedWidthNumber (s : String) (lower upper : Int) : Except Error Int :=
  match fixedWidth? s.toList with
  | some v => if v < lower ∨ upper < v then .error (.invalidOperand s) else .ok v
  | none => .error (.invalidOperand s)

theorem magnitude?_eq_splitBase (cs : List Char) :
    magnitude? cs = Numeral.value? (splitBase cs).1 (splitBase cs).2 := by
  unfold magnitude?
  split
  case h_1 => rfl
  case h_2 => rfl
  case h_3 hx hX => rw [splitBase.eq_3 cs hx hX]

theorem literal?_eq_splitSign (cs : List Char) :
    literal? cs = (magnitude? (splitSign cs).2).map
      fun n : Nat => if (splitSign cs).1 then -(n : Int) else (n : Int) := by
  unfold literal?
  split
  case h_1 cs =>
    rw [splitSign]
    cases magnitude? cs <;> rfl
  case h_2 cs =>
    rw [splitSign]
    cases magnitude? cs <;> rfl
  case h_3 hminus hplus =>
    rw [splitSign.eq_3 cs hminus hplus]
    cases magnitude? cs <;> rfl

theorem splitBase_bounds (cs : List Char) : 0 < (splitBase cs).1 ∧ (splitBase cs).1 ≤ 16 := by
  unfold splitBase
  split
  case h_1 => exact ⟨by omega, Nat.le_refl 16⟩
  case h_2 => exact ⟨by omega, Nat.le_refl 16⟩
  case h_3 => exact ⟨by omega, by omega⟩

/-- Without a digit at its start a text is no numeral. -/
theorem value?_of_not_startsWithDigit {base : Nat} (h : startsWithDigit cs = false) :
    Numeral.value? base cs = none := by
  cases cs with
  | nil => rfl
  | cons c cs =>
    have hdigit : Numeral.digit? base c = none := by
      have hvalue : Numeral.digitValue? c = none := by simpa [startsWithDigit] using h
      rw [Numeral.digit?, hvalue]
      rfl
    rw [Numeral.value?.eq_2 _ _ (List.cons_ne_nil c cs), Numeral.extend?, hdigit]

/-- With a digit at its start a text has no sign of its own. -/
theorem signedFit?_of_startsWithDigit {base : Nat} (hbase : 0 < base) (h : startsWithDigit cs) :
    Numeral.signedFit? base cs = (Numeral.value? base cs).bind fun n => Numeral.fit? n := by
  cases cs with
  | nil => cases h
  | cons c cs =>
    have hplus : c ≠ '+' := by
      rintro rfl
      cases h
    have hminus : c ≠ '-' := by
      rintro rfl
      cases h
    rw [Numeral.value?.eq_2 _ _ (List.cons_ne_nil c cs), ← Numeral.extendFit?_eq hbase (by omega)]
    -- All cases of the reader but the last ask for a sign or for no digits at all.
    unfold Numeral.signedFit?
    split
    case h_1 heq => cases heq
    case h_2 heq => exact absurd (List.cons.inj heq).1 hplus
    case h_3 heq => exact absurd (List.cons.inj heq).1 hminus
    case h_4 heq => exact absurd (List.cons.inj heq).1 hplus
    case h_5 heq => exact absurd (List.cons.inj heq).1 hminus
    case h_6 => rfl

theorem fixedWidthMagnitude?_eq (cs : List Char) :
    fixedWidthMagnitude? cs = (magnitude? cs).bind fun n => Numeral.fit? n := by
  show (if startsWithDigit (splitBase cs).2 then
    Numeral.signedFit? (splitBase cs).1 (splitBase cs).2 else none) = _
  rw [magnitude?_eq_splitBase]
  by_cases hstart : startsWithDigit (splitBase cs).2
  · rw [if_pos hstart, signedFit?_of_startsWithDigit (splitBase_bounds cs).1 hstart]
  · rw [if_neg hstart, value?_of_not_startsWithDigit (Bool.eq_false_iff.mpr hstart)]
    rfl

/-- Sixty-four bits read every literal whose magnitude has sixty-three. -/
theorem fixedWidth?_eq (cs : List Char) :
    fixedWidth? cs = (literal? cs).filter fun v => v.natAbs < 0x8000000000000000 := by
  show (fixedWidthMagnitude? (splitSign cs).2).map (fun v => if (splitSign cs).1 then -v else v) = _
  rw [literal?_eq_splitSign, fixedWidthMagnitude?_eq]
  cases magnitude? (splitSign cs).2 with
  | none => rfl
  | some n =>
    rw [Option.bind_some, Option.map_some, Option.filter_some]
    by_cases hn : n < 0x8000000000000000
    · rw [Numeral.fit?_of_lt hn, if_pos (by split <;> simp <;> omega)]
      rfl
    · rw [Numeral.fit?_of_le (by omega), if_neg (by split <;> simp <;> omega)]
      rfl

theorem number_eq_error_iff {s : String} {e : Error} :
    number s lower upper = .error e ↔
      e = .invalidOperand s ∧ ∀ v, Writes v s.toList → ¬(lower ≤ v ∧ v ≤ upper) := by
  rw [number]
  cases h : literal? s.toList with
  | none =>
    rw [Except.error.injEq, eq_comm]
    refine ⟨fun he => ⟨he, fun v hv => ?_⟩, And.left⟩
    rw [literal?_of_writes hv] at h
    cases h
  | some v =>
    -- A text writes one number at most, so the range of the one that was read decides.
    have hunique : ∀ w, Writes w s.toList → w = v := by
      intro w hw
      exact Option.some_inj.mp ((literal?_of_writes hw).symm.trans h)
    dsimp only
    by_cases hrange : lower ≤ v ∧ v ≤ upper
    · rw [if_pos hrange]
      constructor
      · intro hok
        cases hok
      · intro he
        exact absurd hrange (he.2 v (writes_of_literal? h))
    · rw [if_neg hrange, Except.error.injEq, eq_comm]
      refine ⟨fun he => ⟨he, fun w hw => ?_⟩, And.left⟩
      rwa [hunique w hw]

/-- Between bounds of sixty-three bits nothing is lost for want of width. -/
theorem fixedWidthNumber_eq_number (s : String) (hlower : -0x7FFFFFFFFFFFFFFF ≤ lower)
    (hupper : upper ≤ 0x7FFFFFFFFFFFFFFF) : fixedWidthNumber s lower upper = number s lower upper := by
  rw [fixedWidthNumber, number, fixedWidth?_eq]
  cases literal? s.toList with
  | none => rfl
  | some v =>
    rw [Option.filter_some]
    by_cases hv : v.natAbs < 0x8000000000000000
    · rw [if_pos (decide_eq_true hv)]
      by_cases hrange : lower ≤ v ∧ v ≤ upper
      · simp only [if_pos hrange, if_neg (show ¬(v < lower ∨ upper < v) by omega)]
      · simp only [if_neg hrange, if_pos (show v < lower ∨ upper < v by omega)]
    · rw [if_neg (by simpa using hv)]
      simp only [if_neg (show ¬(lower ≤ v ∧ v ≤ upper) by omega)]

/-- **A number is read from its literals.**  An operand is accepted between two bounds exactly if it writes
a number between them, with at most one sign, in base ten or behind `0x` in base sixteen, and with as many
digits as it likes.  What is given is the number that is written, and any other operand is refused as a
whole.  As long as the bounds have sixty-three bits and a sign, sixty-four bits are enough to read it. -/
theorem number_reads_literals (s : String) (lower upper : Int)
    (hlower : -0x7FFFFFFFFFFFFFFF ≤ lower) (hupper : upper ≤ 0x7FFFFFFFFFFFFFFF) :
    (∀ v, number s lower upper = .ok v ↔ Writes v s.toList ∧ lower ≤ v ∧ v ≤ upper) ∧
    (∀ e, number s lower upper = .error e ↔
      e = .invalidOperand s ∧ ∀ v, Writes v s.toList → ¬(lower ≤ v ∧ v ≤ upper)) ∧
    fixedWidthNumber s lower upper = number s lower upper := by
  refine ⟨fun v => ?_, fun e => number_eq_error_iff, fixedWidthNumber_eq_number s hlower hupper⟩
  rw [number_eq_ok_iff, literal?_eq_some_iff]

/-- The least number of the widest bounds, with a zero in front of its digits, and a sign in a place where
there can be none. -/
theorem number_reads_literals_at_bound :
    number "-0X07fffFFFFffffFFFF" (-0x7FFFFFFFFFFFFFFF) 0x7FFFFFFFFFFFFFFF =
        .ok (-0x7FFFFFFFFFFFFFFF) ∧
      fixedWidthNumber "-0X07fffFFFFffffFFFF" (-0x7FFFFFFFFFFFFFFF) 0x7FFFFFFFFFFFFFFF =
        .ok (-0x7FFFFFFFFFFFFFFF) ∧
      fixedWidthNumber "0x+5" 0 31 = .error (.invalidOperand "0x+5") := by
  have hwrites : Writes (-0x7FFFFFFFFFFFFFFF) "-0X07fffFFFFffffFFFF".toList :=
    writes_of_literal? (by rfl)
  have hnone : ∀ v, ¬Writes v "0x+5".toList := by
    intro v hv
    cases literal?_of_writes hv
  obtain ⟨hok, -, hwide⟩ := number_reads_literals "-0X07fffFFFFffffFFFF" (-0x7FFFFFFFFFFFFFFF)
    0x7FFFFFFFFFFFFFFF (by omega) (by omega)
  obtain ⟨-, herror, hnarrow⟩ := number_reads_literals "0x+5" 0 31 (by omega) (by omega)
  have hnumber := (hok _).mpr ⟨hwrites, by omega, by omega⟩
  refine ⟨hnumber, hwide.trans hnumber, hnarrow.trans ((herror _).mpr ⟨rfl, fun v hv => ?_⟩)⟩
  exact absurd hv (hnone v)

end Operand

/-! ### Addresses -/

namespace Address

/-- Whether `cs` is a numeral of `n`, with at most a plus sign in front. -/
inductive WritesDigits (base n : Nat) : List Char → Prop
  | plain {cs : List Char} : Numeral.Writes base n cs → WritesDigits base n cs
  | plus {cs : List Char} : Numeral.Writes base n cs → WritesDigits base n ('+' :: cs)

/-- Whether `cs` writes `n`, in base ten or, behind `0x`, in base sixteen.  A sign stands next to the
digits. -/
inductive Writes (n : Nat) : List Char → Prop
  | decimal {cs : List Char} : WritesDigits 10 n cs → Writes n cs
  | hex {cs : List Char} : WritesDigits 16 n cs → Writes n ('0' :: 'x' :: cs)
  | upperHex {cs : List Char} : WritesDigits 16 n cs → Writes n ('0' :: 'X' :: cs)

variable {base n acc : Nat} {cs : List Char}

/-- Digits are read as far as they stay in the address space, and so is their number. -/
theorem extend_eq_ok_iff (hbase : 0 < base) (hacc : acc < limit) :
    extend base acc cs = .ok n ↔ Numeral.extend? base acc cs = some n ∧ n < limit := by
  induction cs generalizing acc with
  | nil =>
    rw [extend, Numeral.extend?, Except.ok.injEq, Option.some_inj]
    refine ⟨?_, And.left⟩
    rintro rfl
    exact ⟨rfl, hacc⟩
  | cons c cs ih =>
    rw [extend, Numeral.extend?]
    cases Numeral.digit? base c with
    | none => simp
    | some d =>
      dsimp only
      by_cases hlt : acc * base + d < limit
      · rw [if_pos hlt, ih hlt]
      · rw [if_neg hlt]
        constructor
        · intro h
          cases h
        · intro h
          -- Further digits do not make the number smaller, so it stays out of range.
          have hle := Numeral.le_of_extend? hbase h.1
          omega

theorem ofDigits_eq_ok_iff (hlow : 0 < base) (hbase : base ≤ 16) :
    ofDigits base cs = .ok n ↔ WritesDigits base n cs ∧ n < limit := by
  -- Behind the sign both readers go through the same digits.
  have hextend : ∀ {c cs}, extend base 0 (c :: cs) = .ok n ↔
      Numeral.Writes base n (c :: cs) ∧ n < limit := by
    intro c cs
    rw [extend_eq_ok_iff hlow (by decide), ← Numeral.value?_eq_some_iff hbase,
      Numeral.value?.eq_2 _ _ (List.cons_ne_nil c cs)]
  constructor
  · intro h
    unfold ofDigits at h
    split at h
    case h_1 => cases h
    case h_2 => cases h
    case h_3 cs hne =>
      obtain ⟨c, cs, rfl⟩ := List.exists_cons_of_ne_nil fun hnil => hne hnil
      obtain ⟨hwrites, hlt⟩ := hextend.mp h
      exact ⟨.plus hwrites, hlt⟩
    case h_4 hne _ _ =>
      obtain ⟨c, cs, rfl⟩ := List.exists_cons_of_ne_nil fun hnil => hne hnil
      obtain ⟨hwrites, hlt⟩ := hextend.mp h
      exact ⟨.plain hwrites, hlt⟩
  · rintro ⟨hwrites, hlt⟩
    cases hwrites with
    | plain hwrites =>
      -- A numeral starts with a digit, so it is not taken for a sign.
      obtain ⟨c, ds, rfl, hplus, -⟩ := hwrites.exists_cons hbase
      rw [ofDigits.eq_4 _ _ (List.cons_ne_nil c ds) (fun h => hplus (List.cons.inj h).1)
        (fun _ h => hplus (List.cons.inj h).1)]
      exact hextend.mpr ⟨hwrites, hlt⟩
    | plus hwrites =>
      obtain ⟨c, ds, rfl, -⟩ := hwrites.exists_cons hbase
      exact hextend.mpr ⟨hwrites, hlt⟩

/-- An address has its base and its digits where a literal has them. -/
theorem parse_eq_ofDigits (s : String) :
    parse s = (ofDigits (Operand.splitBase s.toList).1 (Operand.splitBase s.toList).2).map
      (BitVec.ofNat 32) := by
  unfold parse
  split
  case h_1 cs heq => rw [heq, Operand.splitBase]
  case h_2 cs heq => rw [heq, Operand.splitBase]
  case h_3 hx hX => rw [Operand.splitBase.eq_3 _ hx hX]

theorem writes_iff_writesDigits :
    Writes n cs ↔ WritesDigits (Operand.splitBase cs).1 n (Operand.splitBase cs).2 := by
  constructor
  · intro h
    cases h with
    | hex h => exact h
    | upperHex h => exact h
    | decimal h =>
      -- Neither a sign nor a digit of base ten can be mistaken for the start of `0x`.
      have hx : ∀ c, c = 'x' ∨ c = 'X' → ∀ ds, cs ≠ '0' :: c :: ds := by
        rintro c hc ds rfl
        have hdigit : c.isDigit = false := by rcases hc with rfl | rfl <;> rfl
        cases h with
        | plain h => exact absurd (by simp) (Operand.not_mem_of_writes hdigit h)
      rw [Operand.splitBase.eq_3 cs (hx 'x' (.inl rfl)) (hx 'X' (.inr rfl))]
      exact h
  · intro h
    unfold Operand.splitBase at h
    split at h
    case h_1 => exact .hex h
    case h_2 => exact .upperHex h
    case h_3 => exact .decimal h

/-- An address is read from the ways to write it and from nothing else. -/
theorem parse_eq_ok_iff {s : String} :
    (parse s).map BitVec.toNat = .ok n ↔ Writes n s.toList ∧ n < 2 ^ 32 := by
  have hdigits : ∀ m, ofDigits (Operand.splitBase s.toList).1 (Operand.splitBase s.toList).2 = .ok m ↔
      WritesDigits (Operand.splitBase s.toList).1 m (Operand.splitBase s.toList).2 ∧ m < limit :=
    fun _ => ofDigits_eq_ok_iff (Operand.splitBase_bounds s.toList).1
      (Operand.splitBase_bounds s.toList).2
  -- A number below the limit is what its word holds.
  have htoNat : ∀ m < limit, (BitVec.ofNat 32 m).toNat = m := fun m => Nat.mod_eq_of_lt
  rw [parse_eq_ofDigits, writes_iff_writesDigits, map_eq_ok_iff]
  simp only [map_eq_ok_iff]
  constructor
  · rintro ⟨_, ⟨m, hm, rfl⟩, rfl⟩
    obtain ⟨hwrites, hlt⟩ := (hdigits m).mp hm
    rw [htoNat m hlt]
    exact ⟨hwrites, hlt⟩
  · rintro ⟨hwrites, hlt⟩
    exact ⟨_, ⟨n, (hdigits n).mpr ⟨hwrites, hlt⟩, rfl⟩, htoNat n hlt⟩

end Address

/-! ### Numbers without a sign -/

section Unsigned

variable {n : Nat} {v : Int} {cs : List Char}

theorem Address.writes_iff_writesMagnitude (hplus : '+' ∉ cs) :
    Address.Writes n cs ↔ Operand.WritesMagnitude n cs := by
  -- Only a plus sign tells the two grammars apart.
  have hplain : ∀ {base ds}, '+' ∉ ds → WritesDigits base n ds → Numeral.Writes base n ds := by
    intro base ds hds h
    cases h with
    | plain h => exact h
    | plus => exact absurd List.mem_cons_self hds
  constructor
  · intro h
    cases h with
    | decimal h => exact .decimal (hplain hplus h)
    | hex h => exact .hex (hplain (fun hmem => hplus (by simp [hmem])) h)
    | upperHex h => exact .upperHex (hplain (fun hmem => hplus (by simp [hmem])) h)
  · intro h
    cases h with
    | decimal h => exact .decimal (.plain h)
    | hex h => exact .hex (.plain h)
    | upperHex h => exact .upperHex (.plain h)

theorem Operand.writes_iff_writesMagnitude (hplus : '+' ∉ cs) (hminus : '-' ∉ cs) :
    Operand.Writes v cs ↔ ∃ n : Nat, v = n ∧ WritesMagnitude n cs := by
  constructor
  · intro h
    cases h with
    | unsigned h => exact ⟨_, rfl, h⟩
    | plus => exact absurd List.mem_cons_self hplus
    | minus => exact absurd List.mem_cons_self hminus
  · rintro ⟨n, rfl, h⟩
    exact .unsigned h

end Unsigned

/-- **Addresses and operands are read alike.**  An address is one or more digits, in base ten or behind `0x`
in base sixteen, with at most a plus sign next to them, and its number has thirty-two bits.  Without a
sign it is read just where an operand of thirty-two bits is, and as the same number; for such operands
sixty-four bits are enough. -/
theorem Address.parse_agrees_with_number (s : String) :
    (∀ n : Nat, (parse s).map BitVec.toNat = .ok n ↔ Writes n s.toList ∧ n < 2 ^ 32) ∧
    ('+' ∉ s.toList → '-' ∉ s.toList → ∀ v : Int,
      (parse s).map (fun w => (w.toNat : Int)) = .ok v ↔ Operand.number s 0 0xFFFFFFFF = .ok v) ∧
    Operand.fixedWidthNumber s 0 0xFFFFFFFF = Operand.number s 0 0xFFFFFFFF := by
  refine ⟨fun n => parse_eq_ok_iff, fun hplus hminus v => ?_,
    Operand.fixedWidthNumber_eq_number s (by omega) (by omega)⟩
  -- An address that is read as an integer is one that is read as a natural number.
  have hparse : (parse s).map (fun w => (w.toNat : Int)) = .ok v ↔
      ∃ n : Nat, (parse s).map BitVec.toNat = .ok n ∧ (n : Int) = v := by
    simp only [map_eq_ok_iff]
    constructor
    · rintro ⟨w, hw, rfl⟩
      exact ⟨w.toNat, ⟨w, hw, rfl⟩, rfl⟩
    · rintro ⟨n, ⟨w, hw, rfl⟩, rfl⟩
      exact ⟨w, hw, rfl⟩
  rw [hparse, Operand.number_eq_ok_iff, Operand.literal?_eq_some_iff,
    Operand.writes_iff_writesMagnitude hplus hminus]
  simp only [parse_eq_ok_iff, writes_iff_writesMagnitude hplus]
  constructor
  · rintro ⟨n, ⟨hwrites, hlt⟩, rfl⟩
    exact ⟨⟨n, rfl, hwrites⟩, by omega, by omega⟩
  · rintro ⟨⟨n, rfl, hwrites⟩, -, hle⟩
    exact ⟨n, ⟨hwrites, by omega⟩, rfl⟩

/-- The last address in base sixteen, with zeros in front. -/
theorem Address.parse_agrees_with_number_at_last :
    (parse "0X00FFFFffff").map BitVec.toNat = .ok 0xFFFFFFFF ∧
      Operand.number "0X00FFFFffff" 0 0xFFFFFFFF = .ok 0xFFFFFFFF := by
  obtain ⟨hgrammar, hagree, -⟩ := parse_agrees_with_number "0X00FFFFffff"
  have hwrites : Numeral.Writes 16 0xFFFFFFFF "00FFFFffff".toList := Numeral.writes_of_value? (by rfl)
  have hparse := (hgrammar 0xFFFFFFFF).mpr ⟨.upperHex (.plain hwrites), by omega⟩
  obtain ⟨w, hw, hn⟩ := map_eq_ok_iff.mp hparse
  refine ⟨hparse, (hagree (by decide) (by decide) _).mp ?_⟩
  rw [hw]
  exact congrArg (fun n : Nat => Except.ok (n : Int)) hn

end MipsAssembler
