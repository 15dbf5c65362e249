import Xinu.Runs

/-!
# Exact conditions of runs

A condition on the steps of a run is exact for a property of its states when the steps that meet
it keep an invariant with this property, and a step from the invariant that does not meet it ends
in a state without the property. The states of a run then have the property just when all of its
steps meet the condition. Some steps may be left out of consideration from the start.
-/

namespace Xinu.Runs

universe u v w
variable {σ : Type u} {ι : Type v} {ρ : Type w} {step : σ → ι → Option (ρ × σ)}

/-- The states behind the steps of a run are good just when all of its steps meet the condition. -/
theorem good_iff_meets (invariant good : σ → Prop) (considered condition : σ → ι → Prop)
    (preserved : ∀ before call reply after, invariant before → considered before call →
      condition before call → step before call = some (reply, after) → invariant after)
    (sound : ∀ state, invariant state → good state)
    (broken : ∀ before call reply after, invariant before → ¬ condition before call →
      step before call = some (reply, after) → ¬ good after)
    (first last : σ) (events : List (Event σ ι ρ)) (run : Run step first events last)
    (all : Meets considered events) (initial : invariant first) :
    (∀ event ∈ events, good event.after) ↔ Meets condition events := by
  induction run with
  | done state => simp [Meets]
  | taken before call reply after last events completed tail inductionHypothesis =>
    obtain ⟨here, later⟩ := (meets_cons considered _ _).mp all
    rw [meets_cons, List.forall_mem_cons]
    by_cases met : condition before call
    · have next : invariant after := preserved before call reply after initial here met completed
      exact and_congr (iff_of_true (sound after next) met) (inductionHypothesis later next)
    · exact iff_of_false (fun good => broken before call reply after initial met completed good.1)
        (fun both => met both.1)

/-- The events of a run are good just when all of its steps meet the condition, where a step from the invariant is
good just when it meets the condition, and then keeps the invariant. -/
theorem good_events_iff_meets (invariant : σ → Prop) (good : Event σ ι ρ → Prop)
    (considered condition : σ → ι → Prop)
    (preserved : ∀ before call reply after, invariant before → considered before call →
      condition before call → step before call = some (reply, after) → invariant after)
    (exact_ : ∀ before call reply after, invariant before → considered before call →
      step before call = some (reply, after) → (good ⟨before, call, reply, after⟩ ↔ condition before call))
    (first last : σ) (events : List (Event σ ι ρ)) (run : Run step first events last)
    (all : Meets considered events) (initial : invariant first) :
    (∀ event ∈ events, good event) ↔ Meets condition events := by
  induction run with
  | done state => simp [Meets]
  | taken before call reply after last events completed tail inductionHypothesis =>
    obtain ⟨here, later⟩ := (meets_cons considered _ _).mp all
    have same := exact_ before call reply after initial here completed
    rw [meets_cons, List.forall_mem_cons]
    by_cases met : condition before call
    · have next : invariant after := preserved before call reply after initial here met completed
      exact and_congr same (inductionHypothesis later next)
    · exact iff_of_false (fun good => met (same.mp good.1)) (fun both => met both.1)

end Xinu.Runs
