/-
What pseudo-instructions do.

Each pseudo-instruction is executed through its expansion, and the machine ends up as if it had been
one instruction.  The statements hold for every choice of operands, whether or not registers coincide:

* `Pseudo.li_loads_value` — `li` leaves its constant in the register, in one word or in two;
* `Pseudo.traddu_adds_iff` — what `traddu` leaves in its destination, and when that is the sum of its
  three registers;
* `Pseudo.expansions_keep_meaning` — what `move`, `swpr`, `mul`, `div`, `rem`, `blt` and `bgt` do.

Design notes: the expansions fall into four families, copies of registers, sums, results taken from `hi`
and `lo`, and branches on a comparison.  Each family has one lemma, and a pseudo-instruction is a case of
it.  Expansions that need a scratch register use `$at`, so its old value is lost; `swpr` cannot exchange
`$at` itself.  `traddu` uses none: it keeps its running sum in the destination, and so does not add up
when the destination is also its last operand.
-/
import Mathlib.Data.List.Forall2
import MipsAssembler.Proofs.Execution

namespace MipsAssembler

namespace Machine

/-- Whether `w` was written to `r` last; register zero reads as zero all the same. -/
def Holds (m : Machine) (r : Register) (w : Word) : Prop := m.get r = if r = .zero then 0 else w

/-- Whether all general registers but those in `changed` read the same in `m'` as in `m`. -/
def KeepsBut (m m' : Machine) (changed : List Register) : Prop :=
  ∀ r, r ∉ changed → m'.get r = m.get r

theorem holds_iff {m : Machine} {r : Register} {w : Word} :
    m.Holds r w ↔ (r ≠ .zero → m.get r = w) := by
  rw [Holds]
  by_cases hzero : r = .zero
  · simp [hzero]
  · simp [hzero]

theorem holds_set (m : Machine) (r : Register) (w : Word) : (m.set r w).Holds r w := by
  rw [Holds, get_set, if_pos rfl]

theorem keepsBut_set (m : Machine) (r : Register) (w : Word) : m.KeepsBut (m.set r w) [r] := by
  intro r' hr'
  rw [get_set]
  by_cases hzero : r' = .zero
  · rw [if_pos hzero, hzero, get_zero]
  · rw [if_neg hzero, if_neg (by simpa using hr')]

theorem KeepsBut.trans {m m' m'' : Machine} {changed : List Register} (h : m.KeepsBut m' changed)
    (h' : m'.KeepsBut m'' changed) : m.KeepsBut m'' changed :=
  fun r hr => (h' r hr).trans (h r hr)

end Machine

namespace Pseudo

theorem zero_isSpelled : Register.zero.IsSpelled zero := .inl rfl

theorem scratch_isSpelled : Register.scratch.IsSpelled scratch := .inl rfl

/-! ### Constants -/

/-- A number that was written with a sign is read wherever it lies in range. -/
theorem number_signed {v lower upper : Int} (hlower : lower ≤ v) (hupper : v ≤ upper) :
    Operand.number (Numeral.signed v) lower upper = .ok v :=
  Operand.number_of_writes (Operand.writes_signed v) hlower hupper

theorem number_decimal {n : Nat} {lower upper : Int} (hlower : lower ≤ n) (hupper : n ≤ upper) :
    Operand.number (Numeral.decimal n) lower upper = .ok (n : Int) :=
  Operand.number_of_writes (Operand.writes_decimal n) hlower hupper

/-- The operations that load `value`. -/
def loadOps (rt : Register) (value : Int) : List Op :=
  if -0x8000 ≤ value ∧ value ≤ 0x7FFF then
    [.immediate .addiu rt .zero (BitVec.ofInt 16 value)]
  else
    let bits := (value % 0x100000000).toNat
    [.immediate .lui rt .zero (BitVec.ofInt 16 (bits / 0x10000 : Nat)),
      .immediate .ori rt rt (BitVec.ofInt 16 (bits % 0x10000 : Nat))]

/-- The constants in the expansion of `li` are read back as they were written and pass every range
check, so its instructions stand for operations at any address. -/
theorem load_standsFor {rt : Register} {t : String} (ht : rt.IsSpelled t) (v : Int) :
    List.Forall₂ (fun i op => ∀ address labels, i.StandsFor address labels op)
      (load t v) (loadOps rt v) := by
  rw [load, loadOps]
  split
  case isTrue hsmall =>
    have hnumber : Operand.number (Numeral.signed v) (-0x80000000) 0x7FFFFFFF = .ok v :=
      number_signed (by omega) (by omega)
    exact .cons (fun address labels =>
      Instruction.standsFor_addiu address labels ht zero_isSpelled hnumber) .nil
  case isFalse =>
    -- The bits are cut in two halves, each of which is a number that its instruction takes.
    have hbits : (v % 0x100000000).toNat < 0x100000000 := by omega
    generalize (v % 0x100000000).toNat = bits at hbits
    have hupper : Operand.number (Numeral.decimal (bits / 0x10000)) (-0x80000000) 0xFFFFFFFF =
        .ok (bits / 0x10000 : Nat) :=
      number_decimal (by omega) (by omega)
    have hlower : Operand.number (Numeral.decimal (bits % 0x10000)) 0 0xFFFF =
        .ok (bits % 0x10000 : Nat) :=
      number_decimal (by omega) (by omega)
    exact .cons (fun address labels => Instruction.standsFor_lui address labels ht hupper)
      (.cons (fun address labels => Instruction.standsFor_ori address labels ht ht hlower) .nil)

theorem signExtend_ofInt_sixteen {v : Int} (hlower : -0x8000 ≤ v) (hupper : v ≤ 0x7FFF) :
    (BitVec.ofInt 16 v).signExtend 32 = BitVec.ofInt 32 v := by
  rw [BitVec.signExtend, toInt_ofInt_sixteen hlower hupper]

/-- The halves of a word, put together again. -/
theorem halves_eq_ofInt (v : Int) :
    (BitVec.ofInt 16 ((v % 0x100000000).toNat / 0x10000 : Nat)).setWidth 32 <<< 16 |||
      (BitVec.ofInt 16 ((v % 0x100000000).toNat % 0x10000 : Nat)).setWidth 32 =
        BitVec.ofInt 32 v := by
  have hbits : (v % 0x100000000).toNat < 0x100000000 := by omega
  have hword : (BitVec.ofInt 32 v).toNat = (v % 0x100000000).toNat := by
    rw [BitVec.toNat_ofInt]
    rfl
  apply BitVec.eq_of_toNat_eq
  rw [hword]
  generalize (v % 0x100000000).toNat = bits at hbits
  have hupper : (bits / 0x10000) <<< 16 < 0x100000000 := by
    rw [Nat.shiftLeft_eq]
    omega
  have hlower : bits % 0x10000 < 2 ^ 16 := by omega
  rw [BitVec.ofInt_natCast, BitVec.ofInt_natCast, BitVec.toNat_or, BitVec.toNat_shiftLeft,
    BitVec.toNat_setWidth, BitVec.toNat_setWidth, BitVec.toNat_ofNat, BitVec.toNat_ofNat]
  -- No bit is cut off, and the halves do not overlap, so their union is their sum.
  rw [Nat.mod_eq_of_lt (show bits / 0x10000 < 2 ^ 16 by omega), Nat.mod_eq_of_lt hlower,
    Nat.mod_eq_of_lt (show bits / 0x10000 < 2 ^ 32 by omega), Nat.mod_eq_of_lt hupper,
    Nat.mod_eq_of_lt (show bits % 0x10000 < 2 ^ 32 by omega),
    ← Nat.shiftLeft_add_eq_or_of_lt hlower, Nat.shiftLeft_eq]
  omega

/-- The operations of `li` write the constant and nothing else. -/
theorem exists_execAll_loadOps (rt : Register) (v : Int) (m : Machine) :
    ∃ m', m.execAll (loadOps rt v) = some m' ∧ m'.Holds rt (BitVec.ofInt 32 v) ∧
      m.KeepsBut m' [rt] := by
  rw [loadOps]
  split
  case isTrue hsmall =>
    have hvalue : Machine.immediate .addiu (m.get .zero) (BitVec.ofInt 16 v) =
        BitVec.ofInt 32 v := by
      rw [Machine.get_zero, Machine.immediate, signExtend_ofInt_sixteen hsmall.1 hsmall.2]
      exact BitVec.zero_add _
    refine ⟨_, rfl, ?_, Machine.keepsBut_set m rt _⟩
    rw [hvalue]
    exact Machine.holds_set m rt _
  case isFalse =>
    refine ⟨_, rfl, Machine.holds_iff.mpr fun hzero => ?_,
      .trans (Machine.keepsBut_set m rt _) (Machine.keepsBut_set _ rt _)⟩
    -- The second operation reads back what the first one wrote.
    rw [← halves_eq_ofInt v]
    simp only [Machine.get_next, Machine.get_set, if_neg hzero, if_pos, Machine.immediate]

theorem expand_li {imm : String} {v : Int} (t : String)
    (h : Operand.number imm (-0x80000000) 0xFFFFFFFF = .ok v) :
    (⟨"li", [t, imm]⟩ : Instruction).expand = .ok (load t v) :=
  bind_eq_ok_iff.mpr ⟨v, h, rfl⟩

theorem length_load (t : String) (v : Int) :
    (load t v).length = if -0x8000 ≤ v ∧ v ≤ 0x7FFF then 1 else 2 := by
  rw [load]
  split <;> rfl

open Instruction in
/-- **`li` loads its constant.**  Whatever number between the least signed and the greatest unsigned
word the operand spells, `li` takes one instruction if it fits sixteen signed bits and two otherwise,
each of them has a word at every address, and the words leave the number in the register and all other
registers as they were. -/
theorem li_loads_value (rt : Register) (t imm : String) (lower upper v : Int)
    (ht : rt.IsSpelled t) (himm : Operand.number imm lower upper = .ok v)
    (hlower : -0x80000000 ≤ v) (hupper : v ≤ 0xFFFFFFFF) :
    ∃ is, (⟨"li", [t, imm]⟩ : Instruction).expand = .ok is ∧
      is.length = (if -0x8000 ≤ v ∧ v ≤ 0x7FFF then 1 else 2) ∧
      (∀ i ∈ is, ∀ address labels relocations, ∃ e, i.emit address labels relocations = .ok e) ∧
      ∀ address labels m, Runs ⟨"li", [t, imm]⟩ address labels m fun m' =>
        m'.Holds rt (BitVec.ofInt 32 v) ∧ m.KeepsBut m' [rt] := by
  have hliteral := (Operand.number_eq_ok_iff.mp himm).1
  have hexpand := expand_li t (Operand.number_eq_ok_iff.mpr ⟨hliteral, hlower, hupper⟩)
  -- The expansion stands for the same operations wherever it is placed.
  have hstands := load_standsFor ht v
  refine ⟨load t v, hexpand, length_load t v, exists_emit_of_forall₂ hstands, ?_⟩
  intro address labels m
  obtain ⟨m', hexec, hm'⟩ := exists_execAll_loadOps rt v m
  exact runs_of_standsForAll hexpand (standsForAll_of_forall₂ labels hstands address) hexec hm'

/-- One below the least constant of sixteen bits, in hexadecimal and with a sign. -/
theorem li_loads_value_below_sixteen_bits :
    (⟨8⟩ : Register).IsSpelled "$t0" ∧
      Operand.number "-0x8001" (-0x80000000) 0xFFFFFFFF = .ok (-0x8001) ∧
      (⟨"li", ["$t0", "-0x8001"]⟩ : Instruction).expand =
        .ok [⟨"lui", ["$t0", "65535"]⟩, ⟨"ori", ["$t0", "$t0", "32767"]⟩] ∧
      Instruction.Runs ⟨"li", ["$t0", "-0x8001"]⟩ 0 (.empty .distinct) ⟨fun _ => 7, 0, 0, 0⟩
        fun m' => m'.get ⟨8⟩ = 0xFFFF7FFF#32 ∧ m'.get ⟨9⟩ = 7#32 := by
  have hspelled : (⟨8⟩ : Register).IsSpelled "$t0" := .inl (by decide)
  have hnumber : Operand.number "-0x8001" (-0x80000000) 0xFFFFFFFF = .ok (-0x8001) := by rfl
  obtain ⟨is, hexpand, -, -, hruns⟩ :=
    li_loads_value ⟨8⟩ "$t0" "-0x8001" _ _ _ hspelled hnumber (by decide) (by decide)
  refine ⟨hspelled, hnumber, rfl, ?_⟩
  obtain ⟨is, ws, m', his, hws, hrun, hholds, hkeeps⟩ :=
    hruns 0 (.empty .distinct) ⟨fun _ => 7, 0, 0, 0⟩
  exact ⟨is, ws, m', his, hws, hrun, hholds, hkeeps ⟨9⟩ (by decide)⟩

end Pseudo

/-! ### Copies -/

namespace Machine

/-- One register copied to another. -/
def copy (m : Machine) (rd rs : Register) : Machine := (m.set rd (m.get rs)).next

theorem exec_copy (m : Machine) (rd rs : Register) :
    m.exec (.regReg .addu rd rs .zero) = some (m.copy rd rs) := by
  have hsum : alu .addu (m.get rs) (m.get .zero) = m.get rs := by
    rw [alu, get_zero]
    exact BitVec.add_zero _
  rw [exec, hsum, copy]

theorem holds_copy (m : Machine) (rd rs : Register) : (m.copy rd rs).Holds rd (m.get rs) :=
  m.holds_set rd (m.get rs)

theorem get_copy_of_ne (m : Machine) {rd r : Register} (rs : Register) (h : r ≠ rd) :
    (m.copy rd rs).get r = m.get r :=
  m.keepsBut_set rd (m.get rs) r (by simpa using h)

end Machine

namespace Pseudo

open Instruction

section Registers

variable {rd rs rt : Register} {d s t : String} (hd : rd.IsSpelled d) (hs : rs.IsSpelled s)
  (ht : rt.IsSpelled t) (address : Nat) (labels : SymbolTable) (m : Machine)

include hd hs in
theorem runs_move :
    Runs ⟨"move", [d, s]⟩ address labels m fun m' =>
      m'.Holds rd (m.get rs) ∧ m.KeepsBut m' [rd] := by
  have hstands : StandsForAll labels address [⟨"addu", [d, s, zero]⟩] [.regReg .addu rd rs .zero] :=
    .cons (standsFor_regReg address labels .addu hd hs zero_isSpelled) .nil
  have hexec : m.execAll [.regReg .addu rd rs .zero] = some (m.copy rd rs) := by
    rw [Machine.execAll, Machine.exec_copy]
    rfl
  exact runs_of_standsForAll rfl hstands hexec ⟨m.holds_copy rd rs, m.keepsBut_set rd _⟩

include hs ht in
/-- The first register is saved in the scratch register, so neither operand may be that one.  The
operands may be the same register. -/
theorem runs_swpr (hs_ne : rs ≠ .scratch) (ht_ne : rt ≠ .scratch) :
    Runs ⟨"swpr", [s, t]⟩ address labels m fun m' =>
      m'.Holds rs (m.get rt) ∧ m'.Holds rt (m.get rs) ∧ m.KeepsBut m' [rs, rt, .scratch] := by
  have hstands : StandsForAll labels address
      [⟨"addu", [scratch, s, zero]⟩, ⟨"addu", [s, t, zero]⟩, ⟨"addu", [t, scratch, zero]⟩]
      [.regReg .addu .scratch rs .zero, .regReg .addu rs rt .zero,
        .regReg .addu rt .scratch .zero] :=
    .cons (standsFor_regReg _ labels .addu scratch_isSpelled hs zero_isSpelled)
      (.cons (standsFor_regReg _ labels .addu hs ht zero_isSpelled)
        (.cons (standsFor_regReg _ labels .addu ht scratch_isSpelled zero_isSpelled) .nil))
  have hexec : m.execAll [.regReg .addu .scratch rs .zero, .regReg .addu rs rt .zero,
      .regReg .addu rt .scratch .zero] =
        some (((m.copy .scratch rs).copy rs rt).copy rt .scratch) := by
    simp only [Machine.execAll, Machine.exec_copy]
    rfl
  -- The copies from the last one back to the first.
  have hsaved : (((m.copy .scratch rs).copy rs rt).copy rt .scratch).Holds rt (m.get rs) := by
    have hread : ((m.copy .scratch rs).copy rs rt).get .scratch = m.get rs := by
      rw [Machine.get_copy_of_ne _ rt hs_ne.symm]
      exact Machine.holds_iff.mp (m.holds_copy .scratch rs) (by decide)
    rw [← hread]
    exact Machine.holds_copy _ rt .scratch
  refine runs_of_standsForAll rfl hstands hexec ⟨?_, hsaved, ?_⟩
  · by_cases heq : rs = rt
    · rw [heq] at hsaved ⊢
      exact hsaved
    · rw [Machine.Holds, Machine.get_copy_of_ne _ .scratch heq,
        ← Machine.get_copy_of_ne m rs ht_ne]
      exact Machine.holds_copy _ rs rt
  · intro r hr
    simp only [List.mem_cons, List.not_mem_nil, or_false, not_or] at hr
    rw [Machine.get_copy_of_ne _ .scratch hr.2.1, Machine.get_copy_of_ne _ rt hr.1,
      Machine.get_copy_of_ne _ rs hr.2.2]

end Registers

end Pseudo

/-! ### Sums -/

namespace Machine

/-- One register added to another. -/
def addTo (m : Machine) (rd rs : Register) : Machine := (m.set rd (m.get rd + m.get rs)).next

theorem exec_addTo (m : Machine) (rd rs : Register) :
    m.exec (.regReg .addu rd rd rs) = some (m.addTo rd rs) := rfl

theorem holds_addTo (m : Machine) (rd rs : Register) :
    (m.addTo rd rs).Holds rd (m.get rd + m.get rs) :=
  m.holds_set rd (m.get rd + m.get rs)

theorem keepsBut_addTo (m : Machine) (rd rs : Register) : m.KeepsBut (m.addTo rd rs) [rd] :=
  m.keepsBut_set rd (m.get rd + m.get rs)

end Machine

namespace Pseudo

open Instruction

section Sums

variable {rd rs rt : Register} {d s t : String} (hd : rd.IsSpelled d) (hs : rs.IsSpelled s)
  (ht : rt.IsSpelled t) (address : Nat) (labels : SymbolTable) (m : Machine)

include hd hs ht in
/-- The second addition reads its operand after the first one has written the destination. -/
theorem runs_traddu :
    Runs ⟨"traddu", [d, s, t]⟩ address labels m fun m' =>
      m'.Holds rd (m.get rd + m.get rs + if rt = rd then m.get rd + m.get rs else m.get rt) ∧
        m.KeepsBut m' [rd] := by
  have hstands : StandsForAll labels address [⟨"addu", [d, d, s]⟩, ⟨"addu", [d, d, t]⟩]
      [.regReg .addu rd rd rs, .regReg .addu rd rd rt] :=
    .cons (standsFor_regReg _ labels .addu hd hd hs)
      (.cons (standsFor_regReg _ labels .addu hd hd ht) .nil)
  have hexec : m.execAll [.regReg .addu rd rd rs, .regReg .addu rd rd rt] =
      some ((m.addTo rd rs).addTo rd rt) := by
    simp only [Machine.execAll, Machine.exec_addTo]
    rfl
  refine runs_of_standsForAll rfl hstands hexec
    ⟨Machine.holds_iff.mpr fun hzero => ?_, (m.keepsBut_addTo rd rs).trans
      (Machine.keepsBut_addTo _ rd rt)⟩
  have hfirst : (m.addTo rd rs).get rd = m.get rd + m.get rs :=
    Machine.holds_iff.mp (m.holds_addTo rd rs) hzero
  -- The second sum sees `rd` as the first one left it.
  have hoperand : (m.addTo rd rs).get rt = if rt = rd then m.get rd + m.get rs else m.get rt := by
    by_cases heq : rt = rd
    · rw [if_pos heq, heq, hfirst]
    · rw [if_neg heq]
      exact m.keepsBut_addTo rd rs rt (by simpa using heq)
  have hsecond := Machine.holds_iff.mp (Machine.holds_addTo (m.addTo rd rs) rd rt) hzero
  rw [hsecond, hfirst, hoperand]

end Sums

/-- **`traddu` adds its operands to its destination, unless the last operand is the destination.**  It
then adds the sum of the first two registers to itself.  Nothing but the destination changes in either
case.  So the outcome is the sum of the three registers exactly when the destination is register zero,
the last operand is another register, or there was nothing to add in between. -/
theorem traddu_adds_iff (rd rs rt : Register) (d s t : String) (hd : rd.IsSpelled d)
    (hs : rs.IsSpelled s) (ht : rt.IsSpelled t) (address : Nat) (labels : SymbolTable)
    (m : Machine) :
    (rt ≠ rd → Runs ⟨"traddu", [d, s, t]⟩ address labels m fun m' =>
      m'.Holds rd (m.get rd + m.get rs + m.get rt) ∧ m.KeepsBut m' [rd]) ∧
    (rt = rd → Runs ⟨"traddu", [d, s, t]⟩ address labels m fun m' =>
      m'.Holds rd (2 * (m.get rd + m.get rs)) ∧ m.KeepsBut m' [rd]) ∧
    ((Runs ⟨"traddu", [d, s, t]⟩ address labels m fun m' =>
      m'.Holds rd (m.get rd + m.get rs + m.get rt) ∧ m.KeepsBut m' [rd]) ↔
        rd = .zero ∨ rt ≠ rd ∨ m.get rs = 0) := by
  have hruns := runs_traddu hd hs ht address labels m
  refine ⟨fun hne => ?_, fun heq => ?_, fun hsum => ?_, fun hcase => ?_⟩
  · rwa [if_neg hne] at hruns
  · rwa [if_pos heq, ← BitVec.two_mul] at hruns
  · -- The words end in one state only, so the sum is what was computed.
    obtain ⟨m', hcomputed, hsum⟩ := hruns.both hsum
    by_cases hzero : rd = .zero
    · exact .inl hzero
    by_cases heq : rt = rd
    · have hdouble := Machine.holds_iff.mp hcomputed.1 hzero
      have htriple := Machine.holds_iff.mp hsum.1 hzero
      rw [if_pos heq] at hdouble
      rw [heq] at htriple
      -- Both sums are in the same register, so they are equal, and one summand is left over.
      refine .inr (.inr ?_)
      have hsums : m.get rd + m.get rs + (m.get rd + m.get rs) = m.get rd + m.get rs + m.get rd :=
        hdouble.symm.trans htriple
      simpa using hsums
    · exact .inr (.inl heq)
  · -- In each of the three cases the two sums agree, or nobody sees the difference.
    refine hruns.imp fun m' => And.imp_left fun hholds => Machine.holds_iff.mpr fun hzero => ?_
    rw [Machine.holds_iff.mp hholds hzero]
    split
    case isTrue heq =>
      obtain hrd | hne | hnone := hcase
      · exact absurd hrd hzero
      · exact absurd heq hne
      · rw [hnone, heq]
        simp
    case isFalse => rfl

/-- With 1 in both registers, `traddu $t0, $t1, $t0` leaves 4 in `$t0` and not the sum of its registers,
which is 3; `traddu $t0, $t0, $t1` does leave 3. -/
theorem traddu_adds_iff_of_ones :
    (Runs ⟨"traddu", ["$t0", "$t1", "$t0"]⟩ 0 (.empty .distinct) ⟨fun _ => 1, 0, 0, 0⟩ fun m' =>
      m'.get ⟨8⟩ = 4#32) ∧
    (Runs ⟨"traddu", ["$t0", "$t0", "$t1"]⟩ 0 (.empty .distinct) ⟨fun _ => 1, 0, 0, 0⟩ fun m' =>
      m'.get ⟨8⟩ = 3#32) := by
  have ht0 : (⟨8⟩ : Register).IsSpelled "$t0" := .inl (by decide)
  have ht1 : (⟨9⟩ : Register).IsSpelled "$t1" := .inl (by decide)
  obtain ⟨-, hlast, -⟩ := traddu_adds_iff ⟨8⟩ ⟨9⟩ ⟨8⟩ _ _ _ ht0 ht1 ht0 0 (.empty .distinct)
    ⟨fun _ => 1, 0, 0, 0⟩
  obtain ⟨hother, -, -⟩ := traddu_adds_iff ⟨8⟩ ⟨8⟩ ⟨9⟩ _ _ _ ht0 ht0 ht1 0 (.empty .distinct)
    ⟨fun _ => 1, 0, 0, 0⟩
  exact ⟨(hlast rfl).imp fun m' h => h.1, (hother (by decide)).imp fun m' h => h.1⟩

/-- It is not the case that `traddu` always leaves the sum of its three registers. -/
theorem traddu_not_always_adds :
    ¬∀ (rd rs rt : Register) (d s t : String), rd.IsSpelled d → rs.IsSpelled s → rt.IsSpelled t →
      ∀ (address : Nat) (labels : SymbolTable) (m : Machine),
        Runs ⟨"traddu", [d, s, t]⟩ address labels m fun m' =>
          m'.Holds rd (m.get rd + m.get rs + m.get rt) ∧ m.KeepsBut m' [rd] := by
  intro hadds
  have ht0 : (⟨8⟩ : Register).IsSpelled "$t0" := .inl (by decide)
  have ht1 : (⟨9⟩ : Register).IsSpelled "$t1" := .inl (by decide)
  have hclaimed := hadds ⟨8⟩ ⟨9⟩ ⟨8⟩ _ _ _ ht0 ht1 ht0 0 (.empty .distinct) ⟨fun _ => 1, 0, 0, 0⟩
  have hcomputed := runs_traddu ht0 ht1 ht0 0 (.empty .distinct) ⟨fun _ => 1, 0, 0, 0⟩
  obtain ⟨m', hfour, hthree⟩ := hcomputed.both hclaimed
  have hfour : m'.get ⟨8⟩ = 4#32 := hfour.1
  have hthree : m'.get ⟨8⟩ = 3#32 := hthree.1
  exact absurd (hfour.symm.trans hthree) (by decide)

end Pseudo

/-! ### Results in `hi` and `lo` -/

namespace Machine

/-- The special register that a move reads. -/
def special (m : Machine) : MoveFromCode → Word
  | .mfhi => m.hi
  | .mflo => m.lo

theorem exec_moveFrom (m : Machine) (code : MoveFromCode) (rd : Register) :
    m.exec (.moveFrom code rd) = some (m.set rd (m.special code)).next := by
  cases code <;> rfl

theorem get_mulDiv (m : Machine) (code : MulDivCode) (x y : Word) (r : Register) :
    (m.mulDiv code x y).get r = m.get r := by
  cases code with
  | mult => rfl
  | div =>
    rw [mulDiv]
    split <;> rfl

/-- The low half of a signed product is the product of words. -/
theorem lo_mult (m : Machine) (x y : Word) : (m.mulDiv .mult x y).lo = x * y := by
  have hlow : ∀ z : Word, (BitVec.ofInt 64 z.toInt).extractLsb' 0 32 = z := by
    intro z
    apply BitVec.eq_of_toNat_eq
    rw [BitVec.extractLsb'_toNat, Nat.shiftRight_zero, BitVec.toNat_ofInt,
      BitVec.toInt_eq_toNat_cond]
    have hz : z.toNat < 0x100000000 := z.isLt
    split <;> omega
  show (BitVec.ofInt 64 (x.toInt * y.toInt)).extractLsb' 0 32 = x * y
  rw [BitVec.ofInt_mul, BitVec.extractLsb'_mul (by omega), hlow, hlow]

theorem lo_div (m : Machine) {x y : Word} (hy : y ≠ 0) :
    (m.mulDiv .div x y).lo = BitVec.ofInt 32 (x.toInt.tdiv y.toInt) := by
  rw [mulDiv, if_neg hy]
  apply BitVec.eq_of_toInt_eq
  rw [BitVec.toInt_sdiv, BitVec.toInt_ofInt]

theorem hi_div (m : Machine) {x y : Word} (hy : y ≠ 0) :
    (m.mulDiv .div x y).hi = BitVec.ofInt 32 (x.toInt.tmod y.toInt) := by
  rw [mulDiv, if_neg hy]
  show x.srem y = _
  rw [← BitVec.toInt_srem, BitVec.ofInt_toInt]

end Machine

namespace Pseudo

open Instruction

section Results

variable {rd rs rt : Register} {d s t : String} (hd : rd.IsSpelled d) (hs : rs.IsSpelled s)
  (ht : rt.IsSpelled t) (address : Nat) (labels : SymbolTable) (m : Machine)

include hd hs ht in
/-- An operation on `hi` and `lo` and a move from one of them.  The operands are read before the
destination is written, so they may coincide with it. -/
theorem runs_mulDiv_moveFrom {i : Instruction} (code : MulDivCode) (source : MoveFromCode)
    (hexpand : i.expand =
      .ok [⟨(Mnemonic.mulDiv code).text, [s, t]⟩, ⟨(Mnemonic.moveFrom source).text, [d]⟩]) :
    i.Runs address labels m fun m' =>
      m'.Holds rd ((m.mulDiv code (m.get rs) (m.get rt)).special source) ∧
        m.KeepsBut m' [rd] := by
  have hstands : StandsForAll labels address
      [⟨(Mnemonic.mulDiv code).text, [s, t]⟩, ⟨(Mnemonic.moveFrom source).text, [d]⟩]
      [.mulDiv code rs rt, .moveFrom source rd] :=
    .cons (standsFor_mulDiv _ labels code hs ht) (.cons (standsFor_moveFrom _ labels source hd) .nil)
  have hexec : m.execAll [.mulDiv code rs rt, .moveFrom source rd] =
      some ((m.mulDiv code (m.get rs) (m.get rt)).next.set rd
        ((m.mulDiv code (m.get rs) (m.get rt)).next.special source)).next := by
    simp only [Machine.execAll, Machine.exec_moveFrom]
    rfl
  refine runs_of_standsForAll hexpand hstands hexec ⟨Machine.holds_set _ rd _, ?_⟩
  -- The unit has registers of its own, so the only one that changes is the destination.
  intro r hr
  rw [Machine.get_next, Machine.keepsBut_set _ rd _ r hr, Machine.get_next, Machine.get_mulDiv]

end Results

end Pseudo

/-! ### Branches on a comparison -/

/-- Whether a branch at `address` can lead to `target`: the distance from the next instruction is at
most what sixteen signed bits count in words. -/
def InReach (address target : Nat) : Prop :=
  -0x8000 * 4 ≤ (target : Int) - (address + 4) ∧ (target : Int) - (address + 4) ≤ 0x7FFF * 4

instance (address target : Nat) : Decidable (InReach address target) :=
  inferInstanceAs (Decidable (_ ∧ _))

theorem InReach.exists_offset {address target : Nat} (h : InReach address target)
    (haddress : address % 4 = 0) (htarget : target % 4 = 0) :
    ∃ offset : BitVec 16, (address : Int) + 4 + 4 * offset.toInt = target := by
  obtain ⟨hlower, hupper⟩ := h
  refine ⟨BitVec.ofInt 16 (((target : Int) - (address + 4)) / 4), ?_⟩
  rw [toInt_ofInt_sixteen (by omega) (by omega)]
  omega

namespace Machine

theorem branchAddress_eq {m : Machine} {address target : Nat} {offset : BitVec 16}
    (hpc : m.pc = BitVec.ofNat 32 address)
    (hoffset : (address : Int) + 4 + 4 * offset.toInt = target) :
    m.branchAddress offset = BitVec.ofNat 32 target := by
  rw [← BitVec.ofInt_natCast 32 target, ← hoffset, BitVec.ofInt_add, BitVec.ofInt_add,
    BitVec.ofInt_mul, BitVec.ofInt_natCast, ← hpc]
  rfl

/-- The machine after a signed comparison into the scratch register. -/
def compare (m : Machine) (rs rt : Register) : Machine :=
  (m.set .scratch (alu .slt (m.get rs) (m.get rt))).next

theorem get_compare_scratch (m : Machine) (rs rt : Register) :
    (m.compare rs rt).get .scratch = if (m.get rs).toInt < (m.get rt).toInt then 1 else 0 := by
  have hread := holds_iff.mp (m.holds_set .scratch (alu .slt (m.get rs) (m.get rt))) (by decide)
  rw [compare, get_next, hread, alu, BitVec.slt]
  simp only [decide_eq_true_eq]

theorem exec_bne_zero (m : Machine) (r : Register) (offset : BitVec 16) :
    m.exec (.branch .bne r .zero offset) =
      if m.get r = 0 then some m.next else some { m with pc := m.branchAddress offset } := by
  rw [exec, taken, get_zero]
  by_cases hflag : m.get r = 0
  · rw [if_pos hflag, hflag]
    rfl
  · rw [if_neg hflag, if_pos (bne_iff_ne.mpr hflag)]

end Machine

namespace Pseudo

open Instruction

section Comparison

variable {rs rt : Register} {s t name : String} {target : Nat} (hs : rs.IsSpelled s)
  (ht : rt.IsSpelled t) (labels : SymbolTable) (m : Machine)

include hs ht in
/-- A comparison into the scratch register and a branch on its outcome. -/
theorem runs_branch_if_less {i : Instruction}
    (hexpand : i.expand = .ok [⟨"slt", [scratch, s, t]⟩, ⟨"bne", [scratch, zero, name]⟩])
    (haligned : m.pc.toNat % 4 = 0) (hname : Operand.isLabel name.toList)
    (htarget : labels.lookup name = .ok target) (htarget_aligned : target % 4 = 0)
    (hreach : InReach (m.pc.toNat + 4) target) :
    i.Runs m.pc.toNat labels m fun m' =>
      m'.pc = (if (m.get rs).toInt < (m.get rt).toInt then BitVec.ofNat 32 target else m.pc + 8) ∧
        m.KeepsBut m' [.scratch] := by
  obtain ⟨offset, hoffset⟩ := hreach.exists_offset (by omega) htarget_aligned
  have hstands : StandsForAll labels m.pc.toNat
      [⟨"slt", [scratch, s, t]⟩, ⟨"bne", [scratch, zero, name]⟩]
      [.regReg .slt .scratch rs rt, .branch .bne .scratch .zero offset] :=
    .cons (standsFor_regReg _ labels .slt scratch_isSpelled hs ht)
      (.cons (standsFor_branch _ labels .bne scratch_isSpelled zero_isSpelled hname htarget hoffset)
        .nil)
  have hflag := m.get_compare_scratch rs rt
  have hexec : m.execAll [.regReg .slt .scratch rs rt, .branch .bne .scratch .zero offset] =
      (m.compare rs rt).exec (.branch .bne .scratch .zero offset) :=
    bind_pure ((m.compare rs rt).exec (.branch .bne .scratch .zero offset))
  rw [Machine.exec_bne_zero] at hexec
  by_cases hless : (m.get rs).toInt < (m.get rt).toInt
  · rw [hflag, if_pos hless, if_neg (by decide)] at hexec
    refine runs_of_standsForAll hexpand hstands hexec ⟨?_, m.keepsBut_set .scratch _⟩
    rw [if_pos hless]
    -- The branch stands one word behind the comparison.
    have hpc : (m.compare rs rt).pc = BitVec.ofNat 32 (m.pc.toNat + 4) := by
      rw [BitVec.ofNat_add, BitVec.ofNat_toNat, BitVec.setWidth_eq]
      rfl
    exact Machine.branchAddress_eq hpc hoffset
  · rw [hflag, if_neg hless, if_pos rfl] at hexec
    refine runs_of_standsForAll hexpand hstands hexec ⟨?_, m.keepsBut_set .scratch _⟩
    rw [if_neg hless]
    exact BitVec.add_assoc m.pc 4 4

end Comparison

/-! ### All of them -/

/-- **Expansions keep the meaning of pseudo-instructions.**  With any registers as operands, coinciding
or not, the words of an expansion that starts at the machine's own address do what the instruction
says: `move` copies; `swpr` exchanges, unless the scratch register is among its operands; `mul`, `div`
and `rem` give the low word of the product, the quotient and the remainder; `blt` and `bgt` go to their
label when the signed comparison holds and on to the next instruction otherwise.  Nothing else changes
but the scratch register, and that only where a comparison or an exchange needs it. -/
theorem expansions_keep_meaning (rd rs rt : Register) (d s t : String) (hd : rd.IsSpelled d)
    (hs : rs.IsSpelled s) (ht : rt.IsSpelled t) (labels : SymbolTable) (m : Machine)
    (haligned : m.pc.toNat % 4 = 0) :
    (Runs ⟨"move", [d, s]⟩ m.pc.toNat labels m fun m' =>
      m'.Holds rd (m.get rs) ∧ m.KeepsBut m' [rd]) ∧
    (rs ≠ .scratch → rt ≠ .scratch → Runs ⟨"swpr", [s, t]⟩ m.pc.toNat labels m fun m' =>
      m'.Holds rs (m.get rt) ∧ m'.Holds rt (m.get rs) ∧ m.KeepsBut m' [rs, rt, .scratch]) ∧
    (Runs ⟨"mul", [d, s, t]⟩ m.pc.toNat labels m fun m' =>
      m'.Holds rd (m.get rs * m.get rt) ∧ m.KeepsBut m' [rd]) ∧
    (Runs ⟨"div", [d, s, t]⟩ m.pc.toNat labels m fun m' =>
      (m.get rt ≠ 0 →
        m'.Holds rd (BitVec.ofInt 32 ((m.get rs).toInt.tdiv (m.get rt).toInt))) ∧
      m.KeepsBut m' [rd]) ∧
    (Runs ⟨"rem", [d, s, t]⟩ m.pc.toNat labels m fun m' =>
      (m.get rt ≠ 0 →
        m'.Holds rd (BitVec.ofInt 32 ((m.get rs).toInt.tmod (m.get rt).toInt))) ∧
      m.KeepsBut m' [rd]) ∧
    ∀ (name : String) (target : Nat), Operand.isLabel name.toList →
      labels.lookup name = .ok target → target % 4 = 0 → InReach (m.pc.toNat + 4) target →
      (Runs ⟨"blt", [s, t, name]⟩ m.pc.toNat labels m fun m' =>
        m'.pc = (if (m.get rs).toInt < (m.get rt).toInt then BitVec.ofNat 32 target
          else m.pc + 8) ∧ m.KeepsBut m' [.scratch]) ∧
      (Runs ⟨"bgt", [s, t, name]⟩ m.pc.toNat labels m fun m' =>
        m'.pc = (if (m.get rs).toInt > (m.get rt).toInt then BitVec.ofNat 32 target
          else m.pc + 8) ∧ m.KeepsBut m' [.scratch]) := by
  refine ⟨runs_move hd hs _ labels m, runs_swpr hs ht _ labels m, ?_, ?_, ?_, ?_⟩
  · -- Products, quotients and remainders differ in the unit that works and in the half that is fetched.
    rw [← m.lo_mult]
    exact runs_mulDiv_moveFrom hd hs ht _ labels m .mult .mflo rfl
  · refine (runs_mulDiv_moveFrom hd hs ht _ labels m .div .mflo rfl).imp ?_
    rintro m' ⟨hholds, hkeeps⟩
    exact ⟨fun hdivisor => m.lo_div hdivisor ▸ hholds, hkeeps⟩
  · refine (runs_mulDiv_moveFrom hd hs ht _ labels m .div .mfhi rfl).imp ?_
    rintro m' ⟨hholds, hkeeps⟩
    exact ⟨fun hdivisor => m.hi_div hdivisor ▸ hholds, hkeeps⟩
  · -- The two branches are one, with the compared registers the other way round.
    intro name target hname htarget htarget_aligned hreach
    exact ⟨runs_branch_if_less hs ht labels m rfl haligned hname htarget htarget_aligned hreach,
      runs_branch_if_less ht hs labels m rfl haligned hname htarget htarget_aligned hreach⟩

/-- A machine at address 8 with -1 in `$t0` and 1 in `$t1`: an exchange, a branch back to address 0,
the opposite branch, which is not taken, and a remainder that replaces its own dividend. -/
theorem expansions_keep_meaning_at_eight :
    ∃ m : Machine, m.get ⟨8⟩ = 0xFFFFFFFF#32 ∧ m.get ⟨9⟩ = 1#32 ∧ m.pc = 8 ∧
      (Runs ⟨"swpr", ["$t0", "$9"]⟩ 8 ⟨.distinct, #[⟨"loop", 0⟩]⟩ m fun m' =>
        m'.get ⟨8⟩ = 1#32 ∧ m'.get ⟨9⟩ = 0xFFFFFFFF#32) ∧
      (Runs ⟨"blt", ["$t0", "$9", "loop"]⟩ 8 ⟨.distinct, #[⟨"loop", 0⟩]⟩ m fun m' =>
        m'.pc = 0) ∧
      (Runs ⟨"bgt", ["$t0", "$9", "loop"]⟩ 8 ⟨.distinct, #[⟨"loop", 0⟩]⟩ m fun m' =>
        m'.pc = 16) ∧
      (Runs ⟨"rem", ["$8", "$t0", "$9"]⟩ 8 ⟨.distinct, #[⟨"loop", 0⟩]⟩ m fun m' =>
        m'.get ⟨8⟩ = 0) := by
  obtain ⟨-, hswpr, -, -, hrem, hbranch⟩ :=
    expansions_keep_meaning ⟨8⟩ ⟨8⟩ ⟨9⟩ "$8" "$t0" "$9" (.inr (by decide)) (.inl (by decide))
      (.inr (by decide)) ⟨.distinct, #[⟨"loop", 0⟩]⟩
      ⟨fun r => if r = ⟨8⟩ then 0xFFFFFFFF#32 else 1#32, 0, 0, 8⟩ (by decide)
  obtain ⟨hblt, hbgt⟩ := hbranch "loop" 0 (by decide) (by rfl) (by decide) (by decide)
  refine ⟨_, by decide, by decide, rfl, (hswpr (by decide) (by decide)).imp ?_, hblt.imp ?_,
    hbgt.imp ?_, hrem.imp ?_⟩
  · exact fun m' h => ⟨h.1, h.2.1⟩
  · exact fun m' h => h.1
  · exact fun m' h => h.1
  · exact fun m' h => h.1 (by decide)

end Pseudo

end MipsAssembler
