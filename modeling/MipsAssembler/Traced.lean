/-
Values with a trace of what happened on the way to them.

`Traced ω` is a monad: traces are joined in the order of the steps, and the value of a sequence of
steps does not depend on any trace.
-/
namespace MipsAssembler

/-- A value and the trace that led to it. -/
structure Traced (ω α : Type) where
  value : α
  trace : Array ω := #[]

namespace Traced

variable {ω ω' α β : Type}

instance : Monad (Traced ω) where
  pure a := { value := a }
  bind x f :=
    let y := f x.value
    { value := y.value, trace := x.trace ++ y.trace }

/-- One entry of the trace. -/
def emit (entry : ω) : Traced ω Unit := { value := (), trace := #[entry] }

/-- The same value with another name for each entry. -/
def relabel (f : ω → ω') (x : Traced ω α) : Traced ω' α :=
  { value := x.value, trace := x.trace.map f }

/-! ### Values and traces of sequences -/

@[simp] theorem value_pure (a : α) : (pure a : Traced ω α).value = a := rfl

@[simp] theorem trace_pure (a : α) : (pure a : Traced ω α).trace = #[] := rfl

@[simp] theorem value_bind (x : Traced ω α) (f : α → Traced ω β) :
    (x >>= f).value = (f x.value).value := rfl

@[simp] theorem trace_bind (x : Traced ω α) (f : α → Traced ω β) :
    (x >>= f).trace = x.trace ++ (f x.value).trace := rfl

end Traced

end MipsAssembler
