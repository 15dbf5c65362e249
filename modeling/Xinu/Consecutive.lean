import Mathlib

/-!
# Pieces one after another

A row of pieces is filled piece by piece. A position in the row is an offset in one of the pieces:
the place of the position.
-/

namespace Xinu.Consecutive

/-- The piece and the offset of a position. -/
def place : List Nat → Nat → Nat × Nat
  | [], position => (0, position)
  | size :: sizes, position =>
    if position < size then (0, position)
    else ((place sizes (position - size)).1 + 1, (place sizes (position - size)).2)

/-- An offset inside of a piece is a place. -/
theorem place_at (sizes : List Nat) {index offset : Nat} (inside : offset < sizes.getD index 0) :
    place sizes ((sizes.take index).sum + offset) = (index, offset) := by
  induction sizes generalizing index with
  | nil => simp at inside
  | cons size sizes inductionHypothesis =>
    cases index with
    | zero =>
      have below : offset < size := by simpa using inside
      simp [place, below]
    | succ index =>
      have behind := @inductionHypothesis index (by simpa using inside)
      simp [place, behind, Nat.add_assoc]

/-- A place lies inside of its piece. -/
theorem place_inside {sizes : List Nat} {position : Nat} (inside : position < sizes.sum) :
    (place sizes position).1 < sizes.length ∧
      (place sizes position).2 < sizes.getD (place sizes position).1 0 := by
  induction sizes generalizing position with
  | nil => simp at inside
  | cons size sizes inductionHypothesis =>
    rw [List.sum_cons] at inside
    unfold place
    split
    case isTrue below => simpa using below
    case isFalse beyond =>
      obtain ⟨index, offset⟩ := @inductionHypothesis (position - size) (by omega)
      simpa using ⟨index, offset⟩

/-- A place tells its position. -/
theorem position_of_place (sizes : List Nat) {position : Nat} (inside : position < sizes.sum) :
    (sizes.take (place sizes position).1).sum + (place sizes position).2 = position := by
  induction sizes generalizing position with
  | nil => simp at inside
  | cons size sizes inductionHypothesis =>
    rw [List.sum_cons] at inside
    unfold place
    split
    case isTrue => simp
    case isFalse beyond =>
      have behind := @inductionHypothesis (position - size) (by omega)
      rw [List.take_succ_cons, List.sum_cons]
      lia

/-- Positions with one place are one position. -/
theorem place_injective {sizes : List Nat} {position other : Nat} (inside : position < sizes.sum)
    (otherInside : other < sizes.sum) (same : place sizes position = place sizes other) :
    position = other := by
  rw [← position_of_place sizes inside, same, position_of_place sizes otherInside]

/-- The pieces in front of one of them, and that piece. -/
theorem sum_take_succ (sizes : List Nat) (index : Nat) :
    (sizes.take (index + 1)).sum = (sizes.take index).sum + sizes.getD index 0 := by
  rcases lt_or_ge index sizes.length with inside | outside
  · rw [List.take_succ_eq_append_getElem inside, List.sum_append, List.sum_singleton,
      List.getD_eq_getElem sizes 0 inside]
  · rw [List.take_of_length_le outside, List.take_of_length_le (Nat.le_succ_of_le outside),
      List.getD_eq_default sizes 0 outside, Nat.add_zero]

theorem sum_take_le (sizes : List Nat) (index : Nat) : (sizes.take index).sum ≤ sizes.sum := by
  have whole := congrArg List.sum (List.take_append_drop index sizes)
  rw [List.sum_append] at whole
  lia

end Xinu.Consecutive
