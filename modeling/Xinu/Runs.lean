import Mathlib

/-!
# Finite runs of a partial step function

A system answers a call in a state with a reply and a next state, or not at all.
The second outcome stands for a step whose behaviour the source language leaves
undefined; a run contains completed steps only. Each completed step is recorded
as an event with the states on both of its sides, so that a property of a run
can speak about the states it passes and about two of its steps at once.

An invariant kept by the steps that meet a condition holds in every state of a
run all of whose steps meet it. The rule is stated once here and used by every
state machine of the development.
-/

namespace Xinu.Runs

universe u v w
variable {σ : Type u} {ι : Type v} {ρ : Type w}

/-- One completed step: the call, its reply and the states around it. -/
structure Event (σ : Type u) (ι : Type v) (ρ : Type w) where
  before : σ
  call : ι
  reply : ρ
  after : σ

/-- A finite sequence of completed steps from one state to another. -/
inductive Run (step : σ → ι → Option (ρ × σ)) : σ → List (Event σ ι ρ) → σ → Prop where
  | done (state : σ) : Run step state [] state
  | taken (before : σ) (call : ι) (reply : ρ) (after last : σ) (events : List (Event σ ι ρ))
      (completed : step before call = some (reply, after))
      (tail : Run step after events last) :
      Run step before (⟨before, call, reply, after⟩ :: events) last

variable {step : σ → ι → Option (ρ × σ)}

/-- A condition that every step of a run meets. -/
def Meets (condition : σ → ι → Prop) (events : List (Event σ ι ρ)) : Prop :=
  ∀ event ∈ events, condition event.before event.call

theorem meets_cons (condition : σ → ι → Prop) (event : Event σ ι ρ) (events : List (Event σ ι ρ)) :
    Meets condition (event :: events) ↔
      condition event.before event.call ∧ Meets condition events := by
  simp [Meets]

theorem meets_append (condition : σ → ι → Prop) (front back : List (Event σ ι ρ)) :
    Meets condition (front ++ back) ↔ Meets condition front ∧ Meets condition back := by
  simp [Meets, or_imp, forall_and]

/-- A run of a concatenated event list passes through the state in between. -/
theorem run_append (first last : σ) (front back : List (Event σ ι ρ)) :
    Run step first (front ++ back) last ↔
      ∃ middle, Run step first front middle ∧ Run step middle back last := by
  induction front generalizing first with
  | nil =>
    constructor
    · intro run
      exact ⟨first, .done first, run⟩
    · rintro ⟨middle, initial, rest⟩
      cases initial
      exact rest
  | cons event front inductionHypothesis =>
    constructor
    · intro run
      cases run with
      | taken _ call reply after _ _ completed tail =>
        obtain ⟨middle, initial, rest⟩ := (inductionHypothesis after).mp tail
        exact ⟨middle, .taken first call reply after middle front completed initial, rest⟩
    · rintro ⟨middle, initial, rest⟩
      cases initial with
      | taken _ call reply after _ _ completed tail =>
        exact .taken first call reply after last (front ++ back) completed
          ((inductionHypothesis after).mpr ⟨middle, tail, rest⟩)

/-- What the steps meeting a condition preserve holds at the end of every run
whose steps all meet it. -/
theorem invariant_last (invariant : σ → Prop) (condition : σ → ι → Prop)
    (preserved : ∀ before call reply after, invariant before → condition before call →
      step before call = some (reply, after) → invariant after)
    (first last : σ) (events : List (Event σ ι ρ)) (run : Run step first events last)
    (initial : invariant first) (met : Meets condition events) : invariant last := by
  induction run with
  | done state => exact initial
  | taken before call reply after last events completed tail inductionHypothesis =>
    obtain ⟨here, later⟩ := (meets_cons condition _ _).mp met
    exact inductionHypothesis (preserved before call reply after initial here completed) later

/-- The same invariant holds on both sides of every step of such a run, and
each recorded event is a step the system really takes. -/
theorem invariant_events (invariant : σ → Prop) (condition : σ → ι → Prop)
    (preserved : ∀ before call reply after, invariant before → condition before call →
      step before call = some (reply, after) → invariant after)
    (first last : σ) (events : List (Event σ ι ρ)) (run : Run step first events last)
    (initial : invariant first) (met : Meets condition events) :
    ∀ event ∈ events, invariant event.before ∧ invariant event.after ∧
      step event.before event.call = some (event.reply, event.after) := by
  induction run with
  | done state => simp
  | taken before call reply after last events completed tail inductionHypothesis =>
    obtain ⟨here, later⟩ := (meets_cons condition _ _).mp met
    have next : invariant after := preserved before call reply after initial here completed
    intro event member
    rcases List.mem_cons.mp member with rfl | member
    · exact ⟨initial, next, completed⟩
    · exact inductionHypothesis next later event member

/-- What holds after one step of a run, and what its later steps keep, holds at its end. -/
theorem established_last (stable : σ → Prop) (condition : σ → ι → Prop)
    (kept : ∀ before call reply after, stable before → condition before call →
      step before call = some (reply, after) → stable after)
    (first last : σ) (events : List (Event σ ι ρ)) (run : Run step first events last)
    (met : Meets condition events) (event : Event σ ι ρ) (member : event ∈ events)
    (established : stable event.after) : stable last := by
  obtain ⟨front, back, rfl⟩ := List.append_of_mem member
  obtain ⟨middle, _, rest⟩ := (run_append first last front (event :: back)).mp run
  obtain ⟨_, later⟩ := (meets_cons condition _ _).mp ((meets_append condition _ _).mp met).2
  cases rest with
  | taken _ call reply after _ _ completed tail =>
    exact invariant_last stable condition kept after last back tail established later

/-- A condition on the outputs so far, the state and the call that every step meets. -/
def MeetsAfter {ε : Type*} (condition : List ε → σ → ι → Prop) :
    List ε → List (Event σ ι (List ε)) → Prop
  | _, [] => True
  | history, event :: events => condition history event.before event.call ∧
    MeetsAfter condition (history ++ event.reply) events

instance decidableMeetsAfter {ε : Type*} (condition : List ε → σ → ι → Prop)
    [∀ history before call, Decidable (condition history before call)] :
    ∀ (history : List ε) (events : List (Event σ ι (List ε))), Decidable (MeetsAfter condition history events)
  | _, [] => .isTrue trivial
  | history, event :: events =>
    have := decidableMeetsAfter condition (history ++ event.reply) events
    inferInstanceAs (Decidable (condition history event.before event.call ∧
      MeetsAfter condition (history ++ event.reply) events))

theorem meetsAfter_of_meets {ε : Type*} (condition : σ → ι → Prop) (history : List ε)
    (events : List (Event σ ι (List ε))) (met : Meets condition events) :
    MeetsAfter (fun _ => condition) history events := by
  induction events generalizing history with
  | nil => trivial
  | cons event events inductionHypothesis =>
    obtain ⟨here, later⟩ := (meets_cons condition _ _).mp met
    exact ⟨here, inductionHypothesis _ later⟩

/-- What the steps meeting a condition preserve of a state and of all outputs so far
holds at the end of every such run. -/
theorem history_last {ε : Type*} {step : σ → ι → Option (List ε × σ)}
    (invariant : σ → List ε → Prop) (condition : List ε → σ → ι → Prop)
    (preserved : ∀ before call output after history, invariant before history →
      condition history before call → step before call = some (output, after) →
      invariant after (history ++ output))
    (first last : σ) (events : List (Event σ ι (List ε))) (run : Run step first events last)
    (history : List ε) (initial : invariant first history)
    (met : MeetsAfter condition history events) :
    invariant last (history ++ events.flatMap Event.reply) := by
  induction run generalizing history with
  | done state =>
    rw [List.flatMap_nil, List.append_nil]
    exact initial
  | taken before call output after last events completed tail inductionHypothesis =>
    rw [List.flatMap_cons, ← List.append_assoc]
    exact inductionHypothesis _ (preserved before call output after history initial met.1 completed)
      met.2

/-- An abstract state follows recorded events when a specification allows each of
their replies. -/
def Follows {α : Type*} (spec : α → ι → ρ → α → Prop) : α → List (Event σ ι ρ) → α → Prop
  | state, [], last => last = state
  | state, event :: events, last =>
    ∃ next, spec state event.call event.reply next ∧ Follows spec next events last

/-- A relation that every step meeting a condition carries along with the
specification carries whole runs along with it. -/
theorem simulation_run {α : Type*} (related : σ → α → Prop) (condition : σ → ι → Prop)
    (spec : α → ι → ρ → α → Prop)
    (simulated : ∀ before call reply after state, related before state → condition before call →
      step before call = some (reply, after) →
      ∃ next, spec state call reply next ∧ related after next)
    (first last : σ) (events : List (Event σ ι ρ)) (run : Run step first events last)
    (state : α) (initial : related first state) (met : Meets condition events) :
    ∃ final, Follows spec state events final ∧ related last final := by
  induction run generalizing state with
  | done concrete => exact ⟨state, rfl, initial⟩
  | taken before call reply after last events completed tail inductionHypothesis =>
    obtain ⟨here, later⟩ := (meets_cons condition _ _).mp met
    obtain ⟨next, allowed, relatedNext⟩ :=
      simulated before call reply after state initial here completed
    obtain ⟨final, followed, relatedLast⟩ := inductionHypothesis next relatedNext later
    exact ⟨final, ⟨next, allowed, followed⟩, relatedLast⟩

/-- A specification that computes the next abstract state is followed to the fold of
the calls. -/
theorem follows_fold {α : Type*} (next : α → ι → α) (state last : α) (events : List (Event σ ι ρ))
    (followed : Follows (fun state call _ after => after = next state call) state events last) :
    last = (events.map Event.call).foldl next state := by
  induction events generalizing state with
  | nil => exact followed
  | cons event events inductionHypothesis =>
    obtain ⟨after, rfl, rest⟩ := followed
    exact inductionHypothesis _ rest

/-- Execute a list of calls and record the events. -/
def trace (step : σ → ι → Option (ρ × σ)) : σ → List ι → Option (List (Event σ ι ρ) × σ)
  | state, [] => some ([], state)
  | state, call :: calls =>
    (step state call).bind fun (reply, after) =>
      (trace step after calls).map fun (events, last) => (⟨state, call, reply, after⟩ :: events, last)

/-- Recorded events form a run. -/
theorem trace_run (first last : σ) (calls : List ι) (events : List (Event σ ι ρ))
    (recorded : trace step first calls = some (events, last)) : Run step first events last := by
  induction calls generalizing first events with
  | nil =>
    simp only [trace, Option.some.injEq, Prod.mk.injEq] at recorded
    obtain ⟨rfl, rfl⟩ := recorded
    exact .done first
  | cons call calls inductionHypothesis =>
    simp only [trace, Option.bind_eq_some_iff, Option.map_eq_some_iff, Prod.mk.injEq,
      Prod.exists] at recorded
    obtain ⟨reply, after, completed, rest, final, tail, rfl, rfl⟩ := recorded
    exact .taken first call reply after final rest completed
      (inductionHypothesis after rest tail)

/-- Calls that always complete and follow a function on abstract states do so as a
whole list. -/
theorem trace_simulation {α : Type*} (related : σ → α → Prop) (condition : ι → Prop)
    (next : α → ι → α)
    (simulated : ∀ before call state, related before state → condition call →
      ∃ reply after, step before call = some (reply, after) ∧ related after (next state call))
    (calls : List ι) (met : ∀ call ∈ calls, condition call) (first : σ) (state : α)
    (initial : related first state) :
    ∃ events last, trace step first calls = some (events, last) ∧
      related last (calls.foldl next state) := by
  induction calls generalizing first state with
  | nil => exact ⟨[], first, rfl, initial⟩
  | cons call calls inductionHypothesis =>
    obtain ⟨reply, after, completed, relatedNext⟩ :=
      simulated first call state initial (met call List.mem_cons_self)
    obtain ⟨events, last, recorded, relatedLast⟩ := inductionHypothesis
      (fun other member => met other (List.mem_cons_of_mem _ member)) after (next state call)
      relatedNext
    exact ⟨⟨first, call, reply, after⟩ :: events, last, by simp [trace, completed, recorded],
      relatedLast⟩

/-- A check that an executed list of calls passes holds of some run. -/
theorem trace_exists (step : σ → ι → Option (ρ × σ)) (first : σ) (calls : List ι)
    (check : List (Event σ ι ρ) → σ → Bool)
    (passed : (trace step first calls).any (fun result => check result.1 result.2) = true) :
    ∃ events last, Run step first events last ∧ check events last = true := by
  cases recorded : trace step first calls with
  | none => simp [recorded] at passed
  | some result =>
    have checked : check result.1 result.2 = true := by simpa [recorded] using passed
    exact ⟨result.1, result.2, trace_run first result.2 calls result.1 recorded, checked⟩

end Xinu.Runs
