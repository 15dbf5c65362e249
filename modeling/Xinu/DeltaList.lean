import Xinu.CIntegers

/-!
# Lists of differences

A list of sleepers in the order of the times they have left, each with the difference to the
one before it in a signed word. Only the first difference goes down with the time. A new
sleeper uses up its delay at those in front of it and takes its own difference off the next;
one that leaves early gives its difference to the next.
-/

namespace Xinu.DeltaList

open CIntegers

universe u
variable {α : Type u} [DecidableEq α]

/-- Where a delay ends: the sleepers in front, what is left of the delay, and the sleepers
behind. -/
def deltaSplit (keys : α → Int32) : Int32 → List α → List α × Int32 × List α
  | delay, [] => ([], delay, [])
  | delay, first :: queue =>
    if (keys first).toInt ≤ delay.toInt then
      let (front, rest, back) := deltaSplit keys (delay - keys first) queue
      (first :: front, rest, back)
    else ([], delay, first :: queue)

/-- The difference of the first sleeper of a list is changed. -/
def adjustFirst (keys : α → Int32) (change : Int32 → Int32) : List α → α → Int32
  | [] => keys
  | first :: _ => Function.update keys first (change (keys first))

/-- The differences add up to the times that are left, from a base on. -/
def Deltas (keys : α → Int32) (left : α → Option Int) : Int → List α → Prop
  | _, [] => True
  | base, first :: queue => 0 ≤ (keys first).toInt ∧ left first = some (base + (keys first).toInt) ∧
    Deltas keys left (base + (keys first).toInt) queue

section Keys

variable {keys : α → Int32} {change : Int32 → Int32} {queue : List α} {sleeper : α}

omit [DecidableEq α] in
/-- The sleepers in front of and behind a new one are the old ones. -/
theorem deltaSplit_queue (keys : α → Int32) (queue : List α) (delay : Int32) :
    (deltaSplit keys delay queue).1 ++ (deltaSplit keys delay queue).2.2 = queue := by
  induction queue generalizing delay with
  | nil => rfl
  | cons first queue inductionHypothesis =>
    unfold deltaSplit
    split
    · exact congrArg (first :: ·) (inductionHypothesis (delay - keys first))
    · rfl

theorem adjustFirst_cons (keys : α → Int32) (change : Int32 → Int32) (first : α) (queue : List α) :
    adjustFirst keys change (first :: queue) =
      Function.update keys first (change (keys first)) := rfl

/-- Other differences stay. -/
theorem adjustFirst_away (away : sleeper ∉ queue) :
    adjustFirst keys change queue sleeper = keys sleeper := by
  cases queue with
  | nil => rfl
  | cons first rest =>
    rw [adjustFirst_cons, Function.update_of_ne]
    rintro rfl
    exact away List.mem_cons_self

end Keys

section Deltas

variable {keys newKeys : α → Int32} {left newLeft : α → Option Int} {queue front back : List α}
  {base : Int} {sleeper : α}

omit [DecidableEq α] in
theorem Deltas.congr (deltas : Deltas keys left base queue)
    (sameKeys : ∀ other ∈ queue, newKeys other = keys other)
    (sameLeft : ∀ other ∈ queue, newLeft other = left other) :
    Deltas newKeys newLeft base queue := by
  induction queue generalizing base with
  | nil => trivial
  | cons first queue inductionHypothesis =>
    obtain ⟨nonneg, here, later⟩ := deltas
    unfold Deltas
    rw [sameKeys first List.mem_cons_self, sameLeft first List.mem_cons_self]
    exact ⟨nonneg, here, inductionHypothesis later
      (fun other member => sameKeys other (List.mem_cons_of_mem _ member))
      (fun other member => sameLeft other (List.mem_cons_of_mem _ member))⟩

omit [DecidableEq α] in
/-- Nobody has less left than the base. -/
theorem Deltas.atLeast (deltas : Deltas keys left base queue) (member : sleeper ∈ queue) :
    ∃ time, left sleeper = some time ∧ base ≤ time := by
  induction queue generalizing base with
  | nil => cases member
  | cons first queue inductionHypothesis =>
    obtain ⟨nonneg, here, later⟩ := deltas
    rcases List.mem_cons.mp member with rfl | member
    · exact ⟨_, here, by omega⟩
    · obtain ⟨time, reads, above⟩ := inductionHypothesis later member
      exact ⟨time, reads, by omega⟩

omit [DecidableEq α] in
/-- All times move together with the base. -/
theorem Deltas.shift (deltas : Deltas keys left base queue) (change : Int)
    (moved : ∀ other ∈ queue, newLeft other = (left other).map (· - change)) :
    Deltas keys newLeft (base - change) queue := by
  induction queue generalizing base with
  | nil => trivial
  | cons first queue inductionHypothesis =>
    obtain ⟨nonneg, here, later⟩ := deltas
    have rest := inductionHypothesis later fun other member =>
      moved other (List.mem_cons_of_mem _ member)
    have base' : base + (keys first).toInt - change = base - change + (keys first).toInt := by lia
    rw [base'] at rest
    refine ⟨nonneg, ?_, rest⟩
    rw [moved first List.mem_cons_self, here, Option.map_some, base']

/-- One tick: every time goes down, and with it the first difference. -/
theorem Deltas.tick (deltas : Deltas keys left 0 queue) (distinct : queue.Nodup)
    (positive : ∀ first ∈ queue.head?, 1 ≤ (keys first).toInt)
    (moved : ∀ other ∈ queue, newLeft other = (left other).map (· - 1)) :
    Deltas (adjustFirst keys (fun key => key - 1) queue) newLeft 0 queue := by
  cases queue with
  | nil => trivial
  | cons first queue =>
    obtain ⟨_, here, later⟩ := deltas
    have fresh := (List.nodup_cons.mp distinct).1
    have large := positive first rfl
    have range := toInt_range (keys first)
    have one : (1 : Int32).toInt = 1 := rfl
    have lowered : (keys first - 1).toInt = (keys first).toInt - 1 := by
      rw [toInt_sub_of_range (keys first) 1 (by omega) (by omega), one]
    have rest := later.shift 1 fun other member => moved other (List.mem_cons_of_mem _ member)
    rw [adjustFirst_cons]
    unfold Deltas
    rw [Function.update_self, lowered, moved first List.mem_cons_self, here]
    refine ⟨by lia, by simp, ?_⟩
    have base' : (0 : Int) + ((keys first).toInt - 1) = 0 + (keys first).toInt - 1 := by omega
    rw [base']
    refine rest.congr (fun other member => ?_) (fun _ _ => rfl)
    rw [Function.update_of_ne]
    rintro rfl
    exact fresh member

omit [DecidableEq α] in
/-- The first sleeper has used up its time. -/
theorem Deltas.first (deltas : Deltas keys left 0 (sleeper :: queue))
    (come : (keys sleeper).toInt ≤ 0) : left sleeper = some 0 ∧ Deltas keys left 0 queue := by
  obtain ⟨nonneg, here, later⟩ := deltas
  have zero : (keys sleeper).toInt = 0 := by lia
  rw [zero, add_zero] at here later
  exact ⟨here, later⟩

/-- A new sleeper. -/
theorem Deltas.insert (deltas : Deltas keys left base queue) (delay : Int32)
    (nonneg : 0 ≤ delay.toInt) (fresh : sleeper ∉ queue) (distinct : queue.Nodup)
    (sameLeft : ∀ other ∈ queue, newLeft other = left other)
    (mine : newLeft sleeper = some (base + delay.toInt)) :
    Deltas
      (adjustFirst (Function.update keys sleeper (deltaSplit keys delay queue).2.1)
        (fun key => key - (deltaSplit keys delay queue).2.1) (deltaSplit keys delay queue).2.2)
      newLeft base
      ((deltaSplit keys delay queue).1 ++ sleeper :: (deltaSplit keys delay queue).2.2) := by
  induction queue generalizing base delay with
  | nil =>
    simp only [deltaSplit, List.nil_append, adjustFirst]
    unfold Deltas
    rw [Function.update_self]
    exact ⟨nonneg, mine, trivial⟩
  | cons first queue inductionHypothesis =>
    obtain ⟨firstNonneg, here, later⟩ := deltas
    obtain ⟨away, distinctRest⟩ := List.nodup_cons.mp distinct
    have apart : first ≠ sleeper := by
      rintro rfl
      exact fresh List.mem_cons_self
    have freshRest : sleeper ∉ queue := fun member => fresh (List.mem_cons_of_mem _ member)
    have delayRange := toInt_range delay
    have firstRange := toInt_range (keys first)
    unfold deltaSplit
    split
    case isTrue reached =>
      have used : (delay - keys first).toInt = delay.toInt - (keys first).toInt :=
        toInt_sub_of_range delay (keys first) (by omega) (by omega)
      have rest := inductionHypothesis later (delay - keys first) (by omega) freshRest distinctRest
        (fun other member => sameLeft other (List.mem_cons_of_mem _ member)) (by
          rw [mine, used]
          congr 1
          lia)
      have behind : first ∉ (deltaSplit keys (delay - keys first) queue).2.2 := fun member =>
        away (by
          rw [← deltaSplit_queue keys queue (delay - keys first)]
          exact List.mem_append_right _ member)
      dsimp only
      rw [List.cons_append]
      unfold Deltas
      rw [adjustFirst_away behind, Function.update_of_ne apart, sameLeft first List.mem_cons_self]
      exact ⟨firstNonneg, here, rest⟩
    case isFalse short =>
      have lowered : (keys first - delay).toInt = (keys first).toInt - delay.toInt :=
        toInt_sub_of_range (keys first) delay (by omega) (by omega)
      dsimp only
      rw [List.nil_append, adjustFirst_cons]
      unfold Deltas
      rw [Function.update_of_ne (Ne.symm apart), Function.update_self]
      refine ⟨nonneg, mine, ?_⟩
      unfold Deltas
      rw [Function.update_self, Function.update_of_ne apart, lowered,
        sameLeft first List.mem_cons_self, here]
      have base' : base + delay.toInt + ((keys first).toInt - delay.toInt) =
          base + (keys first).toInt := by lia
      refine ⟨by lia, by rw [base'], ?_⟩
      rw [base']
      refine later.congr (fun other member => ?_) (fun other member =>
        sameLeft other (List.mem_cons_of_mem _ member))
      have notFirst : other ≠ first := by
        rintro rfl
        exact away member
      have notSleeper : other ≠ sleeper := by
        rintro rfl
        exact freshRest member
      rw [Function.update_of_ne notFirst, Function.update_of_ne notSleeper]

/-- A sleeper leaves early. -/
theorem Deltas.remove (deltas : Deltas keys left base (front ++ sleeper :: back))
    (distinct : (front ++ sleeper :: back).Nodup)
    (bounded : ∀ other time, left other = some time → time < 2 ^ 31) (low : 0 ≤ base) :
    Deltas (adjustFirst keys (fun key => key + keys sleeper) back) left base (front ++ back) := by
  induction front generalizing base with
  | nil =>
    obtain ⟨nonneg, here, later⟩ := deltas
    cases back with
    | nil => trivial
    | cons second back =>
      obtain ⟨secondNonneg, there, rest⟩ := later
      have bound := bounded second _ there
      have distinctBack := (List.nodup_cons.mp (List.nodup_cons.mp distinct).2).1
      have raised : (keys second + keys sleeper).toInt =
          (keys second).toInt + (keys sleeper).toInt :=
        toInt_add_of_range (keys second) (keys sleeper) (by omega) (by omega)
      have base' : base + ((keys second).toInt + (keys sleeper).toInt) =
          base + (keys sleeper).toInt + (keys second).toInt := by lia
      rw [List.nil_append, adjustFirst_cons]
      unfold Deltas
      rw [Function.update_self, raised, base']
      refine ⟨by lia, there, rest.congr (fun other member => ?_) (fun _ _ => rfl)⟩
      rw [Function.update_of_ne]
      rintro rfl
      exact distinctBack member
  | cons first front inductionHypothesis =>
    obtain ⟨nonneg, here, later⟩ := deltas
    obtain ⟨away, distinctRest⟩ := List.nodup_cons.mp distinct
    have rest := inductionHypothesis later distinctRest (by omega)
    have behind : first ∉ back := fun member => away (by simp [member])
    rw [List.cons_append]
    unfold Deltas
    rw [adjustFirst_away behind]
    exact ⟨nonneg, here, rest⟩

end Deltas

end Xinu.DeltaList
