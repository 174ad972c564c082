/-
Outcomes of steps that may fail.

A sequence of steps succeeds exactly when each step does, on what the steps before it gave.  The
lemmas here say so once for plain outcomes and once for logged ones, where the log has no part in the
value:

* `bind_eq_ok_iff`, `map_eq_ok_iff`, `mapError_eq_ok_iff` — when a step of each kind succeeds, and
  `bind_eq_error_iff`, `mapError_eq_error_iff` — when it fails;
* `value_run_bind` and its companions — the value of a logged computation is that of its steps;
* `FailsOnly` — which errors a sequence of steps may end in, by what each step may end in.
-/
import MipsAssembler.Event

namespace MipsAssembler

section Plain

variable {ε ε' α β : Type}

theorem ok_bind (a : α) (f : α → Except ε β) : ((.ok a : Except ε α) >>= f) = f a := rfl

theorem bind_eq_ok_iff {x : Except ε α} {f : α → Except ε β} {b : β} :
    (x >>= f) = .ok b ↔ ∃ a, x = .ok a ∧ f a = .ok b := by
  cases x with
  | error e => simp [bind, Except.bind]
  | ok a => simp [bind, Except.bind]

theorem bind_eq_error_iff {x : Except ε α} {f : α → Except ε β} {e : ε} :
    (x >>= f) = .error e ↔ x = .error e ∨ ∃ a, x = .ok a ∧ f a = .error e := by
  cases x with
  | error e' => simp [bind, Except.bind]
  | ok a => simp [bind, Except.bind]

theorem pure_eq_ok_iff {a b : α} : (pure a : Except ε α) = .ok b ↔ a = b := by
  simp [pure, Except.pure]

theorem map_eq_ok_iff {x : Except ε α} {f : α → β} {b : β} :
    x.map f = .ok b ↔ ∃ a, x = .ok a ∧ f a = b := by
  cases x <;> simp [Except.map]

theorem functor_map_eq_ok_iff {x : Except ε α} {f : α → β} {b : β} :
    f <$> x = .ok b ↔ ∃ a, x = .ok a ∧ f a = b :=
  map_eq_ok_iff

theorem mapError_eq_ok_iff {x : Except ε α} {f : ε → ε'} {a : α} :
    x.mapError f = .ok a ↔ x = .ok a := by
  cases x with
  | error e => exact ⟨nofun, nofun⟩
  | ok b =>
    show (.ok b : Except ε' α) = .ok a ↔ (.ok b : Except ε α) = .ok a
    rw [Except.ok.injEq, Except.ok.injEq]

theorem mapError_eq_error_iff {x : Except ε α} {f : ε → ε'} {e' : ε'} :
    x.mapError f = .error e' ↔ ∃ e, x = .error e ∧ f e = e' := by
  cases x with
  | error e =>
    show (.error (f e) : Except ε' α) = .error e' ↔
      ∃ e₀, (.error e : Except ε α) = .error e₀ ∧ f e₀ = e'
    simp
  | ok a =>
    refine ⟨nofun, ?_⟩
    rintro ⟨e, he, -⟩
    cases he

end Plain

section Errors

variable {ε ε' α β : Type} {P Q : ε → Prop}

/-- Whether `P` holds of the error of an outcome, if there is one. -/
def FailsOnly (P : ε → Prop) (x : Except ε α) : Prop := ∀ e, x = .error e → P e

theorem failsOnly_ok (a : α) : FailsOnly P (.ok a : Except ε α) := nofun

theorem failsOnly_error {e : ε} (h : P e) : FailsOnly P (.error e : Except ε α) := by
  intro e' he
  obtain rfl := Except.error.inj he
  exact h

/-- The second step may rely on what the first one gave. -/
theorem FailsOnly.bind_of_eq_ok {x : Except ε α} {f : α → Except ε β} (hx : FailsOnly P x)
    (hf : ∀ a, x = .ok a → FailsOnly P (f a)) : FailsOnly P (x >>= f) := by
  cases x with
  | error e => exact failsOnly_error (hx e rfl)
  | ok a => exact hf a rfl

theorem FailsOnly.bind {x : Except ε α} {f : α → Except ε β} (hx : FailsOnly P x)
    (hf : ∀ a, FailsOnly P (f a)) : FailsOnly P (x >>= f) :=
  hx.bind_of_eq_ok fun a _ => hf a

theorem FailsOnly.map {x : Except ε α} (hx : FailsOnly P x) (f : α → β) :
    FailsOnly P (f <$> x) := by
  cases x with
  | error e => exact failsOnly_error (hx e rfl)
  | ok a => exact failsOnly_ok (f a)

theorem failsOnly_mapError (x : Except ε α) {f : ε → ε'} {P : ε' → Prop} (h : ∀ e, P (f e)) :
    FailsOnly P (x.mapError f) := by
  cases x with
  | error e => exact failsOnly_error (h e)
  | ok a => exact failsOnly_ok a

theorem FailsOnly.imp {x : Except ε α} (hx : FailsOnly P x) (h : ∀ e, P e → Q e) :
    FailsOnly Q x :=
  fun e he => h e (hx e he)

/-- Whether the error of an outcome, if there is one, is not fatal. -/
abbrev Mild (x : Except Error α) : Prop := FailsOnly (fun e => e.isFatal = false) x

end Errors

section Logged

variable {ω ε ε' α β : Type}

/-- The value of two logged steps is that of the second on the value of the first. -/
theorem value_run_bind (x : ExceptT ε (Traced ω) α) (f : α → ExceptT ε (Traced ω) β) :
    (x >>= f).run.value = x.run.value >>= fun a => (f a).run.value := by
  show (ExceptT.bindCont f x.run.value).value = _
  cases x.run.value <;> rfl

theorem value_run_pure (a : α) : (pure a : ExceptT ε (Traced ω) α).run.value = .ok a := rfl

theorem value_run_mk (x : Traced ω (Except ε α)) : (ExceptT.mk x).run.value = x.value := rfl

theorem value_run_adapt (x : ExceptT ε (Traced ω) α) (f : ε → ε') :
    (x.adapt f).run.value = x.run.value.mapError f := rfl

/-- Writing to the log always succeeds. -/
theorem value_run_log (e : Event) :
    (liftM (log e) : ExceptT ε Logged Unit).run.value = .ok () := rfl

end Logged

end MipsAssembler
