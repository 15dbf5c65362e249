import Mathlib

/-!
# Computations that keep a log

A computation may stop without a value. Its log holds what it did up to that point, so that a property
of everything it does can be stated also where it has no outcome. Without their logs the computations are
those of `Option`.

A judgement about a computation bounds all entries of its log and describes its value when there is one.
The rules follow the structure of the computation.
-/

namespace Xinu.LoggedSteps

universe u

/-- What was done, and the value if the computation did not stop. -/
structure Logged (γ α : Type u) : Type u where
  log : List γ
  outcome : Option α

namespace Logged

variable {γ α β : Type u}

/-- A step that is not logged. -/
def lift (value : Option α) : Logged γ α := ⟨[], value⟩

/-- A step that is logged. -/
def entry (done : γ) (value : Option α) : Logged γ α := ⟨[done], value⟩

instance : Monad (Logged γ) where
  pure value := ⟨[], some value⟩
  bind first rest := match first.outcome with
    | none => ⟨first.log, none⟩
    | some value => ⟨first.log ++ (rest value).log, (rest value).outcome⟩

section Outcomes

variable {first : Logged γ α} {rest : α → Logged γ β} {value : α} {done : γ} {step : Option α}

@[simp] theorem outcome_pure : (pure value : Logged γ α).outcome = some value := rfl

@[simp] theorem outcome_lift : (lift step : Logged γ α).outcome = step := rfl

@[simp] theorem outcome_entry : (entry done step).outcome = step := rfl

@[simp] theorem outcome_bind :
    (first >>= rest).outcome = first.outcome.bind fun value => (rest value).outcome := by
  obtain ⟨log, outcome⟩ := first
  cases outcome <;> rfl

/-- Two computations in a row have the outcome of the rows of their outcomes. -/
theorem outcome_bind_eq {plain : Option α} {rests : α → Option β} (begins : first.outcome = plain)
    (follows : ∀ value, (rest value).outcome = rests value) : (first >>= rest).outcome = plain.bind rests := by
  simp only [outcome_bind, begins, follows]

/-- What the first computation logs is not lost. -/
theorem mem_log_bind (logged : done ∈ first.log) : done ∈ (first >>= rest).log := by
  obtain ⟨log, outcome⟩ := first
  cases outcome with
  | none => exact logged
  | some value => exact List.mem_append_left _ logged

end Outcomes

/-- Every entry of the log is allowed, and the value satisfies what is claimed of it. -/
structure Meets (computation : Logged γ α) (allowed : γ → Prop) (post : α → Prop) : Prop where
  log : ∀ done ∈ computation.log, allowed done
  outcome : ∀ value, computation.outcome = some value → post value

section Rules

variable {allowed : γ → Prop} {post : α → Prop} {later : β → Prop}

theorem Meets.pure {value : α} (holds : post value) :
    (Pure.pure value : Logged γ α).Meets allowed post := by
  constructor
  · simp [Pure.pure]
  · intro other same
    cases same
    exact holds

theorem Meets.lift {step : Option α} (holds : ∀ value, step = some value → post value) :
    (Logged.lift step : Logged γ α).Meets allowed post := by
  constructor
  · simp [Logged.lift]
  · exact holds

theorem Meets.entry {done : γ} {step : Option α} (isAllowed : allowed done)
    (holds : ∀ value, step = some value → post value) : (Logged.entry done step).Meets allowed post := by
  constructor
  · simpa [Logged.entry] using isAllowed
  · exact holds

/-- A computation behind another one may use what is claimed of the first value. -/
theorem Meets.bind {first : Logged γ α} {rest : α → Logged γ β} (begins : first.Meets allowed post)
    (follows : ∀ value, post value → (rest value).Meets allowed later) :
    (first >>= rest).Meets allowed later := by
  obtain ⟨log, outcome⟩ := first
  cases outcome with
  | none => exact ⟨begins.log, fun _ impossible => by cases impossible⟩
  | some value =>
    have second := follows value (begins.outcome value rfl)
    constructor
    · intro done member
      exact (List.mem_append.mp member).elim (begins.log done) (second.log done)
    · exact second.outcome

theorem Meets.mono {computation : Logged γ α} {weaker : α → Prop} (meets : computation.Meets allowed post)
    (weakens : ∀ value, post value → weaker value) : computation.Meets allowed weaker :=
  ⟨meets.log, fun value done => weakens value (meets.outcome value done)⟩

end Rules

end Logged

end Xinu.LoggedSteps
