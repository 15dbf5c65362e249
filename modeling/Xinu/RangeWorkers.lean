import Xinu.Runs

/-!
# Workers on ranges of a list

Some workers go through a list that they share. Each has a range of its own and treats the
cells of the range one after the other: it looks at a cell, and where this asks for a new
value, a later step of the worker writes it. The steps of the workers come in any order.

When the ranges are disjoint and cover the list, every order of the steps ends, and ends
with what one worker on the whole list leaves.
-/

namespace Xinu.RangeWorkers

open Runs

/-- Where a worker begins, and how many cells it treats. -/
structure Range where
  start : Nat
  count : Nat
deriving DecidableEq

/-- The list, how many cells a worker is done with, and what it is about to write. -/
structure State (ι α : Type*) where
  cells : List α
  done : ι → Nat
  pending : ι → Option α

variable {ι α : Type*} [DecidableEq ι]

/-- No worker has begun. -/
def initial (cells : List α) : State ι α := ⟨cells, fun _ => 0, fun _ => none⟩

/-- What treating a cell leaves. -/
def treated (work : α → Option (Option α)) (cell : α) : α := ((work cell).join).getD cell

/-- A worker that is not at its end. -/
def Unfinished (range : ι → Range) (s : State ι α) (k : ι) : Prop := s.done k < (range k).count

instance (range : ι → Range) (s : State ι α) (k : ι) : Decidable (Unfinished range s k) :=
  inferInstanceAs (Decidable (s.done k < (range k).count))

/-- A worker goes on to its next cell. -/
def State.advance (s : State ι α) (k : ι) : State ι α :=
  { s with done := Function.update s.done k (s.done k + 1), pending := Function.update s.pending k none }

/-- A worker is about to write. -/
def State.ask (s : State ι α) (k : ι) (value : α) : State ι α :=
  { s with pending := Function.update s.pending k (some value) }

/-- A step of one worker. Behind the list there is nothing to look at. -/
def step (work : α → Option (Option α)) (range : ι → Range) (s : State ι α) (k : ι) :
    Option (Unit × State ι α) :=
  let place := (range k).start + s.done k
  match s.pending k with
  | some value => some ((), State.advance { s with cells := s.cells.set place value } k)
  | none => (s.cells[place]?.bind work).map fun answer => ((), (answer.map (s.ask k)).getD (s.advance k))

/-- The ranges are disjoint and make up a list of some length. -/
structure Divides (range : ι → Range) (total : Nat) : Prop where
  apart : ∀ j k x y, x < (range j).count → y < (range k).count →
    (range j).start + x = (range k).start + y → j = k
  inside : ∀ k x, x < (range k).count → (range k).start + x < total
  covers : ∀ index < total, ∃ k, ∃ x < (range k).count, (range k).start + x = index

/-- The cells in front of the workers are as they were, the others are treated. -/
structure Progress (work : α → Option (Option α)) (range : ι → Range) (cells : List α) (s : State ι α) :
    Prop where
  length : s.cells.length = cells.length
  cell : ∀ k, ∀ x < (range k).count, s.cells[(range k).start + x]? =
    if x < s.done k then cells[(range k).start + x]?.map (treated work) else cells[(range k).start + x]?
  bounded : ∀ k, s.done k ≤ (range k).count
  pending : ∀ k value, s.pending k = some value → s.done k < (range k).count ∧
    ∃ cell, cells[(range k).start + s.done k]? = some cell ∧ work cell = some (some value)

/-- The steps that a worker has in front of it, at most. -/
def remaining (range : ι → Range) (s : State ι α) (k : ι) : Nat :=
  2 * ((range k).count - s.done k) - if (s.pending k).isSome then 1 else 0

section Steps

variable {work : α → Option (Option α)} {range : ι → Range} {cells : List α} {s t : State ι α} {k : ι}

omit [DecidableEq ι] in
theorem progress_initial : Progress work range cells (initial cells) :=
  ⟨rfl, fun _ _ _ => rfl, fun _ => Nat.zero_le _, fun _ _ impossible => by cases impossible⟩

/-- No step makes the list longer or shorter. -/
theorem step_length (completed : RangeWorkers.step work range s k = some ((), t)) :
    t.cells.length = s.cells.length := by
  unfold RangeWorkers.step at completed
  split at completed
  · cases completed
    exact List.length_set
  · obtain ⟨answer, _, result⟩ := Option.map_eq_some_iff.mp completed
    cases result
    cases answer <;> rfl

theorem run_length {events : List (Event (State ι α) ι Unit)} (run : Run (RangeWorkers.step work range) s events t) :
    t.cells.length = s.cells.length := by
  induction run with
  | done state => rfl
  | taken before k reply after last events completed tail inductionHypothesis =>
    exact inductionHypothesis.trans (step_length completed)

/-- A worker is done with its cell, which is treated now. -/
theorem Progress.advanced (progress : Progress work range cells s) (divides : Divides range cells.length)
    (unfinished : Unfinished range s k) {after : List α} (sameLength : after.length = cells.length)
    (here : after[(range k).start + s.done k]? =
      cells[(range k).start + s.done k]?.map (treated work))
    (elsewhere : ∀ index, index ≠ (range k).start + s.done k → after[index]? = s.cells[index]?) :
    Progress work range cells (State.advance { s with cells := after } k) := by
  unfold State.advance
  refine ⟨sameLength, ?_, ?_, ?_⟩
  · intro j x inRange
    by_cases same : j = k
    · subst same
      simp only [Function.update_self]
      by_cases isHere : x = s.done j
      · rw [isHere, here, if_pos (Nat.lt_succ_self _)]
      · rw [elsewhere _ (by lia), progress.cell j x inRange]
        by_cases before : x < s.done j
        · rw [if_pos before, if_pos (Nat.lt_succ_of_lt before)]
        · rw [if_neg before, if_neg (by lia)]
    · simp only [Function.update_of_ne same]
      have other : (range j).start + x ≠ (range k).start + s.done k :=
        fun meets => same (divides.apart j k x _ inRange unfinished meets)
      rw [elsewhere _ other]
      exact progress.cell j x inRange
  · intro j
    by_cases same : j = k
    · subst same
      simp only [Function.update_self]
      exact unfinished
    · simpa [same] using progress.bounded j
  · intro j value isPending
    by_cases same : j = k
    · simp [same] at isPending
    · simp only [Function.update_of_ne same] at isPending ⊢
      exact progress.pending j value isPending

/-- A worker that is not at its end can take a step, which keeps the order and brings it nearer to
its end. -/
theorem Progress.step (progress : Progress work range cells s) (divides : Divides range cells.length)
    (defined : ∀ cell ∈ cells, (work cell).isSome) (unfinished : Unfinished range s k) :
    ∃ t, RangeWorkers.step work range s k = some ((), t) ∧ Progress work range cells t ∧
      remaining range t k < remaining range s k ∧ ∀ j, j ≠ k → remaining range t j = remaining range s j := by
  have inList := divides.inside k _ unfinished
  have nearer : 2 * ((range k).count - (s.done k + 1)) + 1 < 2 * ((range k).count - s.done k) := by
    have : s.done k < (range k).count := unfinished
    lia
  cases isPending : s.pending k with
  | some value =>
    obtain ⟨_, cell, isCell, asks⟩ := progress.pending k value isPending
    refine ⟨State.advance { s with cells := s.cells.set ((range k).start + s.done k) value } k, ?_, ?_, ?_, ?_⟩
    · rw [RangeWorkers.step, isPending]
    · refine progress.advanced divides unfinished ?_ ?_ ?_
      · rw [List.length_set, progress.length]
      · rw [isCell, List.getElem?_set_self (progress.length ▸ inList)]
        simp [treated, asks]
      · intro index other
        exact List.getElem?_set_ne other.symm
    · simp [remaining, State.advance, isPending]
      lia
    · intro j other
      simp [remaining, State.advance, other]
  | none =>
    have isCell : s.cells[(range k).start + s.done k]? = some cells[(range k).start + s.done k] := by
      rw [progress.cell k _ unfinished, if_neg (Nat.lt_irrefl _)]
      exact List.getElem?_eq_getElem inList
    obtain ⟨answer, works⟩ := Option.isSome_iff_exists.mp (defined _ (List.getElem_mem inList))
    cases answer with
    | none =>
      refine ⟨s.advance k, ?_, ?_, ?_, ?_⟩
      · simp [RangeWorkers.step, isPending, isCell, works]
      · refine progress.advanced divides unfinished progress.length ?_ (fun _ _ => rfl)
        rw [isCell, List.getElem?_eq_getElem inList]
        simp [treated, works]
      · simp [remaining, State.advance, isPending]
        lia
      · intro j other
        simp [remaining, State.advance, other]
    | some value =>
      refine ⟨s.ask k value, ?_, ?_, ?_, ?_⟩
      · simp [RangeWorkers.step, isPending, isCell, works]
      · refine ⟨progress.length, progress.cell, progress.bounded, ?_⟩
        intro j other asked
        by_cases isWorker : j = k
        · subst isWorker
          simp only [State.ask, Function.update_self, Option.some.injEq] at asked
          exact ⟨unfinished, _, List.getElem?_eq_getElem inList, asked ▸ works⟩
        · simp only [State.ask, Function.update_of_ne isWorker] at asked
          exact progress.pending j other asked
      · simp [remaining, State.ask, isPending]
        omega
      · intro j other
        simp [remaining, State.ask, other]

omit [DecidableEq ι] in
/-- Where all workers are at their ends, the whole list is treated. -/
theorem Progress.finished (progress : Progress work range cells s) (divides : Divides range cells.length)
    (finished : ∀ k, ¬ Unfinished range s k) : s.cells = cells.map (treated work) := by
  refine List.ext_getElem? fun index => ?_
  rw [List.getElem?_map]
  rcases Nat.lt_or_ge index cells.length with inside | outside
  · obtain ⟨k, x, inRange, rfl⟩ := divides.covers index inside
    have isDone : x < s.done k := Nat.lt_of_lt_of_le inRange (Nat.le_of_not_lt (finished k))
    rw [progress.cell k x inRange, if_pos isDone]
  · rw [List.getElem?_eq_none outside, List.getElem?_eq_none (progress.length ▸ outside)]
    rfl

end Steps

section Orders

variable [Fintype ι] {work : α → Option (Option α)} {range : ι → Range} {cells : List α} {s t : State ι α}

/-- The steps that are left to all workers, at most. -/
def allRemaining (range : ι → Range) (s : State ι α) : Nat := ∑ k, remaining range s k

omit [DecidableEq ι] in
theorem allRemaining_lt {k : ι} (here : remaining range t k < remaining range s k)
    (others : ∀ j, j ≠ k → remaining range t j = remaining range s j) :
    allRemaining range t < allRemaining range s := by
  refine Finset.sum_lt_sum (fun j _ => ?_) ⟨k, Finset.mem_univ k, here⟩
  by_cases same : j = k
  · rw [same]
    exact Nat.le_of_lt here
  · exact Nat.le_of_eq (others j same)

/-- In every order the workers make progress, and only so many steps. -/
theorem Progress.run (divides : Divides range cells.length) (defined : ∀ cell ∈ cells, (work cell).isSome)
    {events : List (Event (State ι α) ι Unit)} (run : Run (RangeWorkers.step work range) s events t)
    (progress : Progress work range cells s) (busy : Meets (Unfinished range) events) :
    Progress work range cells t ∧ events.length + allRemaining range t ≤ allRemaining range s := by
  induction run with
  | done state => exact ⟨progress, by simp⟩
  | taken before k reply after last events completed tail inductionHypothesis =>
    obtain ⟨unfinished, later⟩ := (meets_cons _ _ _).mp busy
    obtain ⟨after', completed', next, here, others⟩ := progress.step divides defined unfinished
    cases Option.some.inj (completed'.symm.trans completed)
    obtain ⟨final, bound⟩ := inductionHypothesis next later
    have fewer := allRemaining_lt here others
    refine ⟨final, ?_⟩
    rw [List.length_cons]
    lia

/-- The workers can come to their ends. -/
theorem Progress.finishes (divides : Divides range cells.length) (defined : ∀ cell ∈ cells, (work cell).isSome)
    (progress : Progress work range cells s) : ∃ events t, Run (RangeWorkers.step work range) s events t ∧
      Meets (Unfinished range) events ∧ ∀ k, ¬ Unfinished range t k := by
  generalize bound : allRemaining range s = left
  induction left using Nat.strong_induction_on generalizing s with
  | _ left inductionHypothesis =>
    by_cases finished : ∀ k, ¬ Unfinished range s k
    · exact ⟨[], s, .done s, by simp [Meets], finished⟩
    · obtain ⟨k, unfinished⟩ := not_forall_not.mp finished
      obtain ⟨t, completed, next, here, others⟩ := progress.step divides defined unfinished
      have fewer := allRemaining_lt here others
      obtain ⟨events, last, run, busy, ends⟩ := inductionHypothesis _ (bound ▸ fewer) next rfl
      exact ⟨_, last, .taken s k () t last events completed run, (meets_cons _ _ _).mpr ⟨unfinished, busy⟩, ends⟩

end Orders

end Xinu.RangeWorkers
