/-
Operations that need not have an outcome.

There is no operand behind the last one, no text behind half a character, and no number in a place that is
too narrow for it.  A guarded computation gets stuck in an operation without an outcome, which is neither
a result nor an error.  Everything that is done to a single instruction is written here once more out of
such operations, as a machine with bounded numbers does it:

* `Guarded` — computations that can get stuck, `Guarded.ofExcept` — those that do not;
* `Guarded.operand`, `Guarded.textFrom`, `Guarded.unsigned`, `Guarded.signed` — the operations that can;
* `Guarded.number`, `Guarded.expand`, `Guarded.branchOffset`, `Guarded.emit` — the steps of the assembler;
* `Guarded.number_eq`, `Guarded.expand_eq`, `Guarded.branchOffset_eq`, `Guarded.emit_eq` — no step gets
  stuck, and each comes to the same as without guards.

Design notes: sums, differences and casts are exact, and their results then have to fit their places.  A
chain of steps is settled link by link: `Guarded.ofExcept_bind` hands on what a step gave, so that the next
one may rely on the checks before it.
-/
import Mathlib
import MipsAssembler.Proofs.ErrorKinds
import MipsAssembler.Proofs.NumberReaders
import MipsAssembler.Proofs.Translation

namespace MipsAssembler

/-- A computation that gives a result or an error, or gets stuck where an operation has no outcome. -/
abbrev Guarded (ε α : Type) := ExceptT ε Option α

namespace Guarded

section Operations

variable {ε α β : Type}

/-- The computation that comes to `x`. -/
def ofExcept (x : Except ε α) : Guarded ε α := ExceptT.mk (some x)

/-- The computation that comes to nothing. -/
def stuck : Guarded ε α := ExceptT.mk none

theorem ofExcept_bind {x : Except ε α} {f : α → Except ε β} {g : α → Guarded ε β}
    (h : ∀ a, x = .ok a → g a = ofExcept (f a)) : (ofExcept x >>= g) = ofExcept (x >>= f) := by
  cases x with
  | error e => rfl
  | ok a => exact h a rfl

theorem ofExcept_inj {x y : Except ε α} : ofExcept x = ofExcept y ↔ x = y :=
  Option.some_inj

/-! ### Operations -/

/-- The operand at place `i`. -/
def operand (operands : List String) (i : Nat) : Guarded ε String :=
  match operands[i]? with
  | some s => pure s
  | none => stuck

/-- What stands behind the first `k` bytes of a text.  No text is cut inside a character or behind its
end. -/
def textFrom (s : String) (k : Nat) : Guarded ε String :=
  if h : (⟨k⟩ : String.Pos.Raw).IsValid s then pure (s.sliceFrom (s.pos ⟨k⟩ h)).copy else stuck

/-- A number without a sign in `bits` bits. -/
def unsigned (bits : Nat) (v : Int) : Guarded ε Nat :=
  if 0 ≤ v ∧ v < 2 ^ bits then pure v.toNat else stuck

/-- A number in `bits` bits of two's complement. -/
def signed (bits : Nat) (v : Int) : Guarded ε Int :=
  if -2 ^ (bits - 1) ≤ v ∧ v < 2 ^ (bits - 1) then pure v else stuck

/-- A text can be cut between two parts of it. -/
theorem textFrom_append (s t : String) :
    (textFrom (s ++ t) s.utf8ByteSize : Guarded ε String) = pure t := by
  have hvalid : (⟨s.utf8ByteSize⟩ : String.Pos.Raw).IsValid (s ++ t) :=
    String.Pos.Raw.isValid_rawEndPos.append_right t
  rw [textFrom, dif_pos hvalid]
  exact congrArg pure String.Pos.splits_append_rawEndPos.copy_sliceFrom_eq

theorem unsigned_of_bounds {bits : Nat} {v : Int} (hlower : 0 ≤ v) (hupper : v < 2 ^ bits) :
    (unsigned bits v : Guarded ε Nat) = pure v.toNat :=
  if_pos ⟨hlower, hupper⟩

theorem signed_of_bounds {bits : Nat} {v : Int} (hlower : -2 ^ (bits - 1) ≤ v)
    (hupper : v < 2 ^ (bits - 1)) : (signed bits v : Guarded ε Int) = pure v :=
  if_pos ⟨hlower, hupper⟩

end Operations

/-! ### Numbers -/

section Numbers

variable {ε : Type} {c d : Char} {s : String} {lower upper : Int}

/-- The first byte of a text. -/
def firstByte? (s : String) : Option UInt8 := s.toUTF8.data[0]?

/-- The sign in the first byte of a text, and what stands behind it. -/
def sign (s : String) : Guarded ε (Bool × String) :=
  if firstByte? s = some 0x2D then do return (true, ← textFrom s 1)
  else if firstByte? s = some 0x2B then do return (false, ← textFrom s 1)
  else return (false, s)

/-- A magnitude with its sign. -/
def withSign (negative : Bool) (magnitude : Int) : Guarded ε Int :=
  if negative then signed 64 (-magnitude) else pure magnitude

/-- The number that an operand spells, between `lower` and `upper` inclusive. -/
def number (s : String) (lower upper : Int) : Guarded Error Int := do
  let (negative, digits) ← sign s
  match Operand.fixedWidthMagnitude? digits.toList with
  | none => ofExcept (.error (.invalidOperand s))
  | some magnitude =>
    let value ← withSign negative magnitude
    if value < lower ∨ upper < value then ofExcept (.error (.invalidOperand s)) else pure value

/-- A byte of seven bits is a whole character. -/
theorem head?_utf8EncodeChar_iff (hd : d.toNat < 0x80) :
    (String.utf8EncodeChar c).head? = some (UInt8.ofNat d.toNat) ↔ c = d := by
  rw [← Char.toNat_inj]
  have hval : c.val.toNat = c.toNat := rfl
  unfold String.utf8EncodeChar
  dsimp only
  rw [hval]
  split_ifs
  all_goals
    rw [List.head?_cons, Option.some_inj, ← UInt8.toNat_inj, UInt8.toNat_ofNat', UInt8.toNat_ofNat']
    omega

theorem firstByte?_ofList_cons (c : Char) (cs : List Char) :
    firstByte? (String.ofList (c :: cs)) = (String.utf8EncodeChar c).head? := by
  obtain ⟨b, bs, hbytes⟩ := List.exists_cons_of_ne_nil (String.utf8EncodeChar_ne_nil (c := c))
  simp [firstByte?, List.utf8Encode, hbytes]

/-- A text can be cut behind a sign. -/
theorem textFrom_ofList_cons (hc : c.utf8Size = 1) (cs : List Char) :
    (textFrom (String.ofList (c :: cs)) 1 : Guarded ε String) = pure (String.ofList cs) := by
  have happend : String.ofList (c :: cs) = String.singleton c ++ String.ofList cs := by
    rw [String.singleton_eq_ofList, ← String.ofList_append, List.singleton_append]
  have hsize : (String.singleton c).utf8ByteSize = 1 := by
    rw [String.utf8ByteSize_singleton, hc]
  rw [happend, ← hsize, textFrom_append]

theorem sign_eq (s : String) :
    (sign s : Guarded ε (Bool × String)) =
      pure ((Operand.splitSign s.toList).1, String.ofList (Operand.splitSign s.toList).2) := by
  obtain ⟨cs, rfl⟩ := s.exists_eq_ofList
  rw [String.toList_ofList]
  cases cs with
  | nil => rfl
  | cons c cs =>
    -- The first byte is that of a sign only if the first character is the sign.
    have hminus : firstByte? (String.ofList (c :: cs)) = some 0x2D ↔ c = '-' := by
      rw [firstByte?_ofList_cons]
      exact head?_utf8EncodeChar_iff (d := '-') (by decide)
    have hplus : firstByte? (String.ofList (c :: cs)) = some 0x2B ↔ c = '+' := by
      rw [firstByte?_ofList_cons]
      exact head?_utf8EncodeChar_iff (d := '+') (by decide)
    rw [sign]
    by_cases hc : c = '-'
    · subst hc
      rw [if_pos (hminus.mpr rfl), textFrom_ofList_cons (by decide)]
      rfl
    · rw [if_neg fun h => hc (hminus.mp h)]
      by_cases hc' : c = '+'
      · subst hc'
        rw [if_pos (hplus.mpr rfl), textFrom_ofList_cons (by decide)]
        rfl
      · rw [if_neg fun h => hc' (hplus.mp h), Operand.splitSign.eq_3 _ (by simpa using hc)
          (by simpa using hc')]

/-- The magnitude of a literal is never so large that a sign takes it out of its width. -/
theorem withSign_eq {cs : List Char} {v : Int} (h : Operand.fixedWidthMagnitude? cs = some v)
    (negative : Bool) : (withSign negative v : Guarded ε Int) = pure (if negative then -v else v) := by
  rw [Operand.fixedWidthMagnitude?_eq] at h
  obtain ⟨n, -, hn⟩ := Option.bind_eq_some_iff.mp h
  rw [Numeral.fit?] at hn
  split at hn
  case isTrue hfits =>
    obtain rfl := Option.some_inj.mp hn
    rw [withSign, signed_of_bounds (by omega) (by omega)]
    split <;> rfl
  case isFalse => cases hn

/-- Whatever the bounds are, an operand is read without getting stuck. -/
theorem number_eq_fixedWidthNumber (s : String) (lower upper : Int) :
    number s lower upper = ofExcept (Operand.fixedWidthNumber s lower upper) := by
  have hfixed : Operand.fixedWidth? s.toList =
      (Operand.fixedWidthMagnitude? (Operand.splitSign s.toList).2).map
        fun v => if (Operand.splitSign s.toList).1 then -v else v := rfl
  rw [number, sign_eq, pure_bind, Operand.fixedWidthNumber, hfixed]
  dsimp only
  rw [String.toList_ofList]
  cases h : Operand.fixedWidthMagnitude? (Operand.splitSign s.toList).2 with
  | none => rfl
  | some v =>
    dsimp only [Option.map_some]
    rw [withSign_eq h, pure_bind]
    exact (apply_ite ofExcept _ _ _).symm

/-- Between bounds of sixty-three bits it is read as it is without guards. -/
theorem number_eq (s : String) (hlower : -0x7FFFFFFFFFFFFFFF ≤ lower)
    (hupper : upper ≤ 0x7FFFFFFFFFFFFFFF) :
    number s lower upper = ofExcept (Operand.number s lower upper) := by
  rw [number_eq_fixedWidthNumber, Operand.fixedWidthNumber_eq_number s hlower hupper]

theorem bounds_of_number {v : Int} (h : number s lower upper = pure v)
    (hlower : -0x7FFFFFFFFFFFFFFF ≤ lower) (hupper : upper ≤ 0x7FFFFFFFFFFFFFFF) :
    lower ≤ v ∧ v ≤ upper := by
  rw [number_eq s hlower hupper] at h
  exact (Operand.number_eq_ok_iff.mp (ofExcept_inj.mp h)).2

/-- A shift amount is the same in eight bits. -/
theorem toNat_ofInt_of_number {v : Int} (h : number s 0 31 = pure v) :
    ((BitVec.ofInt 8 v).toNat : Int) = v := by
  have hv := bounds_of_number h (by omega) (by omega)
  rw [BitVec.toNat_ofInt]
  omega

/-- A memory offset is the same in sixteen bits. -/
theorem toInt_ofInt_of_number {v : Int} (h : number s (-0x8000) 0x7FFF = pure v) :
    (BitVec.ofInt 16 v).toInt = v := by
  have hv := bounds_of_number h (by omega) (by omega)
  rw [BitVec.toInt_ofInt]
  exact Int.bmod_eq_of_le (by omega) (by omega)

end Numbers

/-! ### Pseudo-instructions -/

section Expansion

variable {p : Pseudo} {operands : List String}

/-- Goes on if there are `count` operands. -/
def counted (p : Pseudo) (operands : List String) (count : Nat) : Guarded Error Unit :=
  if operands.length ≠ count then ofExcept (.error (.invalidArity p.text count operands.length))
  else pure ()

/-- The instructions of a pseudo-instruction, with each operand taken from its place. -/
def expandPseudo (p : Pseudo) (operands : List String) : Guarded Error (List Instruction) :=
  match p with
  | .li => do
    counted .li operands 2
    let rt ← operand operands 0
    let imm ← operand operands 1
    let value ← number imm (-0x80000000) 0xFFFFFFFF
    return Pseudo.load rt value
  | .move => do
    counted .move operands 2
    return [⟨"addu", [← operand operands 0, ← operand operands 1, Pseudo.zero]⟩]
  | .blt => do
    counted .blt operands 3
    return [⟨"slt", [Pseudo.scratch, ← operand operands 0, ← operand operands 1]⟩,
      ⟨"bne", [Pseudo.scratch, Pseudo.zero, ← operand operands 2]⟩]
  | .bgt => do
    counted .bgt operands 3
    return [⟨"slt", [Pseudo.scratch, ← operand operands 1, ← operand operands 0]⟩,
      ⟨"bne", [Pseudo.scratch, Pseudo.zero, ← operand operands 2]⟩]
  | .traddu => do
    counted .traddu operands 3
    return [⟨"addu", [← operand operands 0, ← operand operands 0, ← operand operands 1]⟩,
      ⟨"addu", [← operand operands 0, ← operand operands 0, ← operand operands 2]⟩]
  | .swpr => do
    counted .swpr operands 2
    return [⟨"addu", [Pseudo.scratch, ← operand operands 0, Pseudo.zero]⟩,
      ⟨"addu", [← operand operands 0, ← operand operands 1, Pseudo.zero]⟩,
      ⟨"addu", [← operand operands 1, Pseudo.scratch, Pseudo.zero]⟩]
  | .mul => do
    counted .mul operands 3
    return [⟨"mult", [← operand operands 1, ← operand operands 2]⟩, ⟨"mflo", [← operand operands 0]⟩]
  | .div =>
    -- With two operands it is a machine instruction, and stays as it is.
    if operands.length = 2 then return [⟨"div", operands⟩]
    else do
      counted .div operands 3
      return [⟨"div", [← operand operands 1, ← operand operands 2]⟩, ⟨"mflo", [← operand operands 0]⟩]
  | .rem => do
    counted .rem operands 3
    return [⟨"div", [← operand operands 1, ← operand operands 2]⟩, ⟨"mfhi", [← operand operands 0]⟩]

/-- The machine instructions that an instruction stands for. -/
def expand (i : Instruction) : Guarded Error (List Instruction) :=
  match Pseudo.ofText? i.mnemonic with
  | some p => expandPseudo p i.operands
  | none => return [i]

/-- Behind the count of operands it is enough to look at operands in the right number. -/
theorem counted_bind {f : Unit → Guarded Error (List Instruction)}
    (hdiv : p = .div → operands.length ≠ 2)
    (hf : operands.length = p.arity → f () = ofExcept (p.expand operands)) :
    (counted p operands p.arity >>= f) = ofExcept (p.expand operands) := by
  rw [counted]
  by_cases hcount : operands.length = p.arity
  · rw [if_neg (not_not.mpr hcount)]
    exact hf hcount
  · -- Every pattern of the expansion has as many operands as the arity says, except `div` with two.
    have hrefused : p.expand operands = .error (.invalidArity p.text p.arity operands.length) := by
      unfold Pseudo.expand
      split
      case h_8 => exact absurd rfl (hdiv rfl)
      case h_11 => rfl
      all_goals exact absurd rfl hcount
    rw [if_pos hcount, hrefused]
    rfl

theorem expandPseudo_eq (p : Pseudo) (operands : List String) :
    expandPseudo p operands = ofExcept (p.expand operands) := by
  cases p with
  | li =>
    refine counted_bind nofun fun hcount => ?_
    obtain ⟨rt, imm, rfl⟩ := List.length_eq_two.mp hcount
    show (number imm _ _ >>= fun value => pure (Pseudo.load rt value)) = _
    rw [number_eq imm (by omega) (by omega)]
    exact ofExcept_bind fun _ _ => rfl
  | div =>
    rw [expandPseudo]
    -- With two operands this is a machine instruction, and its operands are counted later.
    by_cases htwo : operands.length = 2
    · rw [if_pos htwo]
      obtain ⟨rs, rt, rfl⟩ := List.length_eq_two.mp htwo
      rfl
    · rw [if_neg htwo]
      refine counted_bind (fun _ => htwo) fun hcount => ?_
      obtain ⟨rd, rs, rt, rfl⟩ := List.length_eq_three.mp hcount
      rfl
  | move | swpr =>
    refine counted_bind nofun fun hcount => ?_
    obtain ⟨s, t, rfl⟩ := List.length_eq_two.mp hcount
    rfl
  | blt | bgt | traddu | mul | rem =>
    refine counted_bind nofun fun hcount => ?_
    obtain ⟨s, t, u, rfl⟩ := List.length_eq_three.mp hcount
    rfl

theorem expand_eq (i : Instruction) : expand i = ofExcept i.expand := by
  rw [expand, Instruction.expand]
  cases Pseudo.ofText? i.mnemonic with
  | none => rfl
  | some p => exact expandPseudo_eq p i.operands

end Expansion

end Guarded

/-! ### Machine instructions -/

/-- Whether every address of a table has thirty-two bits. -/
def SymbolTable.InAddressSpace (t : SymbolTable) : Prop :=
  ∀ s ∈ t.symbols.toList, s.address < Address.limit

namespace Guarded

section Emission

variable {m : Mnemonic} {operands : List String} {address target : Nat} {labels : SymbolTable}

/-- The distance in words from the instruction after `address` to `target`, in sixty-four bits. -/
def branchOffset (address target : Nat) : Guarded Error (BitVec 16) := do
  let next ← signed 64 (address + 4)
  let delta ← signed 64 (target - next)
  if delta.tmod 4 ≠ 0 then
    ofExcept (.error (.misalignedAddress (if target % 4 ≠ 0 then target else address)))
  else if -0x8000 ≤ delta.tdiv 4 ∧ delta.tdiv 4 ≤ 0x7FFF then return BitVec.ofInt 16 (delta.tdiv 4)
  else ofExcept (.error (.unreachableBranch address target))

/-- The register at place `i`. -/
def registerAt (operands : List String) (i : Nat) : Guarded Error Register := do
  ofExcept (Operand.register (← operand operands i))

/-- The number at place `i`. -/
def numberAt (operands : List String) (i : Nat) (lower upper : Int) : Guarded Error Int := do
  number (← operand operands i) lower upper

/-- The label at place `i`. -/
def labelAt (operands : List String) (i : Nat) : Guarded Error String := do
  ofExcept (Operand.label (← operand operands i))

/-- The operation that `m` makes of its operands, each taken from its place.  A shift amount goes through
eight bits and a memory offset through sixteen; the constants of the immediate format are cut to sixteen
bits on purpose. -/
def resolve (m : Mnemonic) (operands : List String) (address : Nat) (labels : SymbolTable) :
    Guarded Error Op :=
  match m with
  | .regReg code => do
    return .regReg code (← registerAt operands 0) (← registerAt operands 1) (← registerAt operands 2)
  | .shift code => do
    let rd ← registerAt operands 0
    let rt ← registerAt operands 1
    let shamt ← unsigned 8 (← numberAt operands 2 0 31)
    return .shift code rd rt shamt
  | .jumpReg code => do
    return .jumpReg code (← registerAt operands 0)
  | .mulDiv code => do
    return .mulDiv code (← registerAt operands 0) (← registerAt operands 1)
  | .moveFrom code => do
    return .moveFrom code (← registerAt operands 0)
  | .immediate .addiu => do
    return .immediate .addiu (← registerAt operands 0) (← registerAt operands 1)
      (BitVec.ofInt 16 (← numberAt operands 2 (-0x80000000) 0x7FFFFFFF))
  | .immediate .ori => do
    return .immediate .ori (← registerAt operands 0) (← registerAt operands 1)
      (BitVec.ofInt 16 (← numberAt operands 2 0 0xFFFF))
  | .immediate .lui => do
    return .immediate .lui (← registerAt operands 0) .zero
      (BitVec.ofInt 16 (← numberAt operands 1 (-0x80000000) 0xFFFFFFFF))
  | .memory code => do
    let rt ← registerAt operands 0
    let offset ← signed 16 (← numberAt operands 1 (-0x8000) 0x7FFF)
    return .memory code rt (← registerAt operands 2) (BitVec.ofInt 16 offset)
  | .branch code => do
    let rs ← registerAt operands 0
    let rt ← registerAt operands 1
    let target ← ofExcept (branchTarget labels (← labelAt operands 2))
    return .branch code rs rt (← branchOffset address target)
  | .jump code => do
    let _ ← labelAt operands 0
    return .jump code 0

/-- The word of an instruction at `address`, with the relocation site that is to be entered. -/
def emit (i : Instruction) (address : Nat) (labels relocations : SymbolTable) :
    Guarded Error Emission :=
  match Mnemonic.ofText? i.mnemonic with
  | none => ofExcept (.error (.unknownInstruction i.mnemonic))
  | some m =>
    if i.operands.length ≠ m.arity then
      ofExcept (.error (.invalidArity m.text m.arity i.operands.length))
    else do
      let op ← resolve m i.operands address labels
      let word ← ofExcept (op.encode.mapError Error.ofEncode)
      match m with
      | .jump _ => do
        let name ← operand i.operands 0
        let site ← ofExcept (relocations.entryFor name address)
        return { word, relocation := some site }
      | _ => return { word, relocation := none }

/-- Between two addresses of thirty-two bits every distance has sixty-four. -/
theorem branchOffset_eq (haddress : address < Address.limit) (htarget : target < Address.limit) :
    branchOffset address target = ofExcept (MipsAssembler.branchOffset address target) := by
  have hlimit : Address.limit = 0x100000000 := rfl
  rw [branchOffset, signed_of_bounds (by omega) (by omega), pure_bind,
    signed_of_bounds (by omega) (by omega), pure_bind, MipsAssembler.branchOffset]
  have hmod : ((target : Int) - (address + 4)).tmod 4 = 0 ↔
      ((target : Int) - (address + 4)) % 4 = 0 := by
    rw [← Int.dvd_iff_tmod_eq_zero, Int.dvd_iff_emod_eq_zero]
  by_cases hdelta : ((target : Int) - (address + 4)) % 4 = 0
  · have hdiv : ((target : Int) - (address + 4)).tdiv 4 = ((target : Int) - (address + 4)) / 4 :=
      Int.tdiv_eq_ediv_of_dvd (Int.dvd_of_emod_eq_zero hdelta)
    rw [if_neg (not_not.mpr (hmod.mpr hdelta)), if_neg (not_not.mpr hdelta), hdiv]
    exact (apply_ite ofExcept _ _ _).symm
  · rw [if_pos (mt hmod.mp hdelta), if_pos hdelta]

/-- Outside the address space a distance need not have sixty-four bits. -/
example : branchOffset (2 ^ 63) 0 = stuck := rfl

/-- The number at a place that there is, between bounds of sixty-three bits. -/
theorem numberAt_eq {i : Nat} {s : String} {lower upper : Int} (hs : operands[i]? = some s)
    (hlower : -0x7FFFFFFFFFFFFFFF ≤ lower) (hupper : upper ≤ 0x7FFFFFFFFFFFFFFF) :
    numberAt operands i lower upper = ofExcept (Operand.number s lower upper) := by
  rw [numberAt, operand, hs, ← number_eq s hlower hupper]
  rfl

/-- Operands in the right number are all found, and what is read from them fits its place. -/
theorem resolve_eq (hcount : operands.length = m.arity) (haddress : address < Address.limit)
    (hlabels : labels.InAddressSpace) :
    resolve m operands address labels = ofExcept (m.resolve operands address labels) := by
  -- One case for each operand format, with one link for each operand from left to right.
  cases m with
  | regReg code =>
    obtain ⟨d, s, t, rfl⟩ := List.length_eq_three.mp hcount
    exact ofExcept_bind (x := Operand.register d) fun _ _ =>
      ofExcept_bind (x := Operand.register s) fun _ _ =>
        ofExcept_bind (x := Operand.register t) fun _ _ => rfl
  | shift code =>
    obtain ⟨d, t, n, rfl⟩ := List.length_eq_three.mp hcount
    refine ofExcept_bind (x := Operand.register d) fun rd _ =>
      ofExcept_bind (x := Operand.register t) fun rt _ => ?_
    rw [numberAt_eq (s := n) rfl (by omega) (by omega)]
    refine ofExcept_bind fun v hv => ?_
    obtain ⟨-, hlower, hupper⟩ := Operand.number_eq_ok_iff.mp hv
    rw [unsigned_of_bounds hlower (by omega)]
    rfl
  | jumpReg code =>
    obtain ⟨s, rfl⟩ := List.length_eq_one_iff.mp hcount
    exact ofExcept_bind (x := Operand.register s) fun _ _ => rfl
  | mulDiv code =>
    obtain ⟨s, t, rfl⟩ := List.length_eq_two.mp hcount
    exact ofExcept_bind (x := Operand.register s) fun _ _ =>
      ofExcept_bind (x := Operand.register t) fun _ _ => rfl
  | moveFrom code =>
    obtain ⟨d, rfl⟩ := List.length_eq_one_iff.mp hcount
    exact ofExcept_bind (x := Operand.register d) fun _ _ => rfl
  | immediate code =>
    cases code with
    | addiu =>
      obtain ⟨t, s, n, rfl⟩ := List.length_eq_three.mp hcount
      refine ofExcept_bind (x := Operand.register t) fun rt _ =>
        ofExcept_bind (x := Operand.register s) fun rs _ => ?_
      rw [numberAt_eq (s := n) rfl (by omega) (by omega)]
      exact ofExcept_bind fun _ _ => rfl
    | ori =>
      obtain ⟨t, s, n, rfl⟩ := List.length_eq_three.mp hcount
      refine ofExcept_bind (x := Operand.register t) fun rt _ =>
        ofExcept_bind (x := Operand.register s) fun rs _ => ?_
      rw [numberAt_eq (s := n) rfl (by omega) (by omega)]
      exact ofExcept_bind fun _ _ => rfl
    | lui =>
      obtain ⟨t, n, rfl⟩ := List.length_eq_two.mp hcount
      refine ofExcept_bind (x := Operand.register t) fun rt _ => ?_
      rw [numberAt_eq (s := n) rfl (by omega) (by omega)]
      exact ofExcept_bind fun _ _ => rfl
  | memory code =>
    obtain ⟨t, n, b, rfl⟩ := List.length_eq_three.mp hcount
    refine ofExcept_bind (x := Operand.register t) fun rt _ => ?_
    rw [numberAt_eq (s := n) rfl (by omega) (by omega)]
    refine ofExcept_bind fun v hv => ?_
    obtain ⟨-, hlower, hupper⟩ := Operand.number_eq_ok_iff.mp hv
    rw [signed_of_bounds (by omega) (by omega), pure_bind]
    exact ofExcept_bind (x := Operand.register b) fun _ _ => rfl
  | branch code =>
    obtain ⟨s, t, name, rfl⟩ := List.length_eq_three.mp hcount
    refine ofExcept_bind (x := Operand.register s) fun rs _ =>
      ofExcept_bind (x := Operand.register t) fun rt _ =>
        ofExcept_bind (x := Operand.label name) fun name _ =>
          ofExcept_bind (x := branchTarget labels name) fun target htarget => ?_
    have hlookup := SymbolTable.mem_of_lookup (branchTarget_eq_ok_iff.mp htarget)
    rw [branchOffset_eq haddress (hlabels _ hlookup)]
    exact ofExcept_bind fun _ _ => rfl
  | jump code =>
    obtain ⟨name, rfl⟩ := List.length_eq_one_iff.mp hcount
    exact ofExcept_bind (x := Operand.label name) fun _ _ => rfl

/-- Without the right number of operands one may be missing. -/
example : resolve (.jumpReg .jr) [] 0 (.empty .distinct) = stuck := rfl

theorem emit_eq (i : Instruction) (relocations : SymbolTable) (haddress : address < Address.limit)
    (hlabels : labels.InAddressSpace) :
    emit i address labels relocations = ofExcept (i.emit address labels relocations) := by
  rw [emit, Instruction.emit]
  cases Mnemonic.ofText? i.mnemonic with
  | none => rfl
  | some m =>
    dsimp only
    by_cases hcount : i.operands.length = m.arity
    · rw [if_neg (not_not.mpr hcount), resolve_eq hcount haddress hlabels]
      refine ofExcept_bind fun op _ => ofExcept_bind fun word _ => ?_
      cases m with
      | jump code =>
        -- Only a jump looks at its operands once more, and the count says that there is one.
        obtain ⟨name, hname⟩ := List.length_eq_one_iff.mp hcount
        rw [hname]
        exact ofExcept_bind (x := relocations.entryFor name address) fun _ _ => rfl
      | _ => rfl
    · rw [if_pos hcount, Mnemonic.resolve_of_ne_arity hcount]
      rfl

end Emission

end Guarded
end MipsAssembler
