/-
Passes over a stream of items.

A pass takes one item after the other and works on its state.  An item may be refused on the way.
Refused items are reported with their position; after the first one the pass stops, unless it was told to
keep going or the error is fatal.

* `Attempt` — work on a state that may end in an error;
* `Pass.walk` — the attempts on a list of items, one after the other;
* `Pass.run` — what they come to in the end.

Design notes: an error takes nothing back.  Whatever an attempt did to the state before it failed stays
done, and a pass that keeps going goes on from there.
-/
import MipsAssembler.Event

namespace MipsAssembler

/-- Work on a state that ends in a result or in an error. -/
abbrev Attempt (σ α : Type) := ExceptT Error (StateM σ) α

namespace Attempt

variable {σ α β : Type}

/-- How an attempt on a state ends, and the state that it leaves behind. -/
def on (x : Attempt σ α) (state : σ) : Except Error α × σ := x.run state

/-- A result or an error that does not touch the state. -/
def ofExcept (x : Except Error α) : Attempt σ α := ExceptT.mk (pure x)

/-! ### The ends of attempts -/

theorem on_ofExcept (x : Except Error α) (state : σ) : (ofExcept x).on state = (x, state) := rfl

theorem on_get (state : σ) : (get : Attempt σ σ).on state = (.ok state, state) := rfl

/-- The second part of an attempt goes on from the state that the first one left behind. -/
theorem on_bind (x : Attempt σ α) (f : α → Attempt σ β) (state : σ) :
    (x >>= f).on state =
      match x.on state with
      | (.ok a, left) => (f a).on left
      | (.error e, left) => (.error e, left) := by
  show (ExceptT.bindCont f (x.on state).1).run (x.on state).2 = _
  rcases x.on state with ⟨_ | _, left⟩ <;> rfl

theorem on_ofExcept_bind (x : Except Error α) (f : α → Attempt σ β) (state : σ) :
    (ofExcept x >>= f).on state =
      match x with
      | .ok a => (f a).on state
      | .error e => (.error e, state) := by
  rw [on_bind, on_ofExcept]
  cases x <;> rfl

theorem on_get_bind (f : σ → Attempt σ β) (state : σ) :
    ((get : Attempt σ σ) >>= f).on state = (f state).on state := by
  rw [on_bind, on_get]

end Attempt

/-- How the items of type `α` are taken, with a state of type `σ`; what is taken of an item has type
`δ`. -/
structure Pass (σ α δ : Type) where
  /-- Takes an item. -/
  take : α → Attempt σ δ
  /-- Notes in the state how an item ended. -/
  tally : Except Error δ → σ → σ := fun _ state => state
  lineNo : α → Nat
  accepted : δ → List Event
  refused : α → Error → Event

namespace Pass

variable {σ α δ : Type}

/-- Where a pass stands: the state, the failures and the log so far. -/
structure Progress (σ : Type) where
  state : σ
  failures : Array Failure := #[]
  log : Array Event := #[]

/-- Takes the items, the first of which has position `index`. -/
def walk (p : Pass σ α δ) (keepGoing : Bool) :
    (index : Nat) → List α → σ → Array Failure → Array Event → Progress σ
  | _, [], state, failures, log => { state, failures, log }
  | index, item :: items, state, failures, log =>
    let (outcome, left) := (p.take item).on state
    let state := p.tally outcome left
    match outcome with
    | .ok addition =>
      walk p keepGoing (index + 1) items state failures (log ++ p.accepted addition)
    | .error e =>
      let failures := failures.push ⟨index, p.lineNo item, e⟩
      let log := log.push (p.refused item e)
      if e.isFatal || !keepGoing then { state, failures, log }
      else walk p keepGoing (index + 1) items state failures log

/-- The state after all items, or the failures if there are any. -/
def run (p : Pass σ α δ) (keepGoing : Bool) (items : List α) (state : σ) :
    ExceptT (List Failure) Logged σ :=
  let done := p.walk keepGoing 0 items state #[] #[]
  let result := if done.failures.isEmpty then .ok done.state else .error done.failures.toList
  ExceptT.mk { value := result, trace := done.log }

end Pass

end MipsAssembler
