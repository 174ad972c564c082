/-
The settings of a run.
-/
import MipsAssembler.Error

namespace MipsAssembler

/-- Where the program starts, and whether to go on after a failure.  The program starts at a word
boundary. -/
structure Options where
  base : Word := 0
  keepGoing : Bool := false
  aligned : base.toNat % 4 = 0 := by decide

/-- The settings for a program that starts at `base`. -/
def Options.withBase (base : Word) : Except Error Options :=
  if h : base.toNat % 4 = 0 then .ok { base, aligned := h }
  else .error (.misalignedAddress base.toNat)

end MipsAssembler
