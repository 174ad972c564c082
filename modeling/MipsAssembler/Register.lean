/-
The thirty-two general registers.

A register is its number.  It has two spellings, a name such as `$t0` and a numeral such as `$8`, and
`Register.ofSpelling?` reads exactly these sixty-four.
-/
import MipsAssembler.Numeral

namespace MipsAssembler

/-- A general register. -/
structure Register where
  number : Fin 32
deriving DecidableEq, Repr

namespace Register

/-- The register that always reads as zero. -/
def zero : Register := ⟨0⟩

/-- The register that expansions use as scratch. -/
def scratch : Register := ⟨1⟩

/-- The register whose number is the low five bits of a field. -/
def ofField (field : Nat) : Register := ⟨Fin.ofNat 32 field⟩

/-- The names, in order of number. -/
def names : Vector String 32 := #v[
  "$zero", "$at", "$v0", "$v1", "$a0", "$a1", "$a2", "$a3",
  "$t0", "$t1", "$t2", "$t3", "$t4", "$t5", "$t6", "$t7",
  "$s0", "$s1", "$s2", "$s3", "$s4", "$s5", "$s6", "$s7",
  "$t8", "$t9", "$k0", "$k1", "$gp", "$sp", "$fp", "$ra"]

/-- The name of a register. -/
def name (r : Register) : String := names[r.number]

/-- The numeral of a register. -/
def numeral (r : Register) : String := "$" ++ Numeral.decimal r.number

/-- All registers, in order of number. -/
def all : List Register := (List.finRange 32).map Register.mk

/-- Every spelling with its register. -/
def spellings : List (String × Register) :=
  all.map (fun r => (r.name, r)) ++ all.map (fun r => (r.numeral, r))

/-- The register that `s` spells. -/
def ofSpelling? (s : String) : Option Register := spellings.lookup s

/-- What to say about a text that spells no register. -/
def complaint : String := "Matching variant not found"

end Register

end MipsAssembler
