import Mathlib

/-!
# Doubly linked lists in a table

Cells with two pointers each form a list when the pointers of neighbours lead to each
other. Where the first cell leads back to and the last one on to is left open.

A cell is put between two neighbours or bypassed by redirecting the pointers of its
neighbours. Lists that do not contain the redirected cells stay as they are.
-/

namespace Xinu.DoublyLinked

universe u
variable {α : Type u} {next prev other otherPrev : α → α}

/-- The pointers of neighbours lead to each other. -/
def Linked (next prev : α → α) (cells : List α) : Prop :=
  cells.IsChain fun left right => next left = right ∧ prev right = left

/-- A list is cut between two neighbours. -/
theorem linked_split {front back : List α} {left right : α} :
    Linked next prev (front ++ left :: right :: back) ↔
      Linked next prev (front ++ [left]) ∧ (next left = right ∧ prev right = left) ∧
        Linked next prev (right :: back) := by
  unfold Linked
  rw [List.isChain_append_cons_cons]

/-- A list depends on the forward pointers of all cells but the last and on the backward
pointers of all cells but the first. -/
theorem Linked.keep_front {front : List α} {last : α} (linked : Linked next prev (front ++ [last]))
    (forward : ∀ cell ∈ front, other cell = next cell)
    (backward : ∀ cell ∈ front ++ [last], otherPrev cell = prev cell) :
    Linked other otherPrev (front ++ [last]) := by
  induction front with
  | nil => exact List.isChain_singleton last
  | cons first front inductionHypothesis =>
    cases front with
    | nil =>
      obtain ⟨⟨here, back⟩, _⟩ := List.isChain_cons_cons.mp linked
      refine List.isChain_cons_cons.mpr ⟨⟨?_, ?_⟩, List.isChain_singleton last⟩
      · rw [forward first List.mem_cons_self, here]
      · rw [backward last (by simp), back]
    | cons second front =>
      obtain ⟨⟨here, back⟩, rest⟩ := List.isChain_cons_cons.mp linked
      refine List.isChain_cons_cons.mpr ⟨⟨?_, ?_⟩, ?_⟩
      · rw [forward first List.mem_cons_self, here]
      · rw [backward second (by simp), back]
      · exact inductionHypothesis rest
          (fun cell member => forward cell (List.mem_cons_of_mem _ member))
          (fun cell member => backward cell (List.mem_cons_of_mem _ member))

theorem Linked.keep_back {back : List α} {first : α} (linked : Linked next prev (first :: back))
    (forward : ∀ cell ∈ first :: back, other cell = next cell)
    (backward : ∀ cell ∈ back, otherPrev cell = prev cell) :
    Linked other otherPrev (first :: back) := by
  induction back generalizing first with
  | nil => exact List.isChain_singleton first
  | cons second back inductionHypothesis =>
    obtain ⟨⟨here, backLink⟩, rest⟩ := List.isChain_cons_cons.mp linked
    refine List.isChain_cons_cons.mpr ⟨⟨?_, ?_⟩, ?_⟩
    · rw [forward first List.mem_cons_self, here]
    · rw [backward second List.mem_cons_self, backLink]
    · exact inductionHypothesis rest
        (fun cell member => forward cell (List.mem_cons_of_mem _ member))
        (fun cell member => backward cell (List.mem_cons_of_mem _ member))

/-- A list none of whose cells is redirected. -/
theorem Linked.keep {cells : List α} (linked : Linked next prev cells)
    (forward : ∀ cell ∈ cells, other cell = next cell)
    (backward : ∀ cell ∈ cells, otherPrev cell = prev cell) : Linked other otherPrev cells := by
  cases cells with
  | nil => exact List.IsChain.nil
  | cons first back =>
    exact linked.keep_back forward
      (fun cell member => backward cell (List.mem_cons_of_mem _ member))

variable [DecidableEq α]

/-- A cell is put between two neighbours. -/
theorem Linked.inserted {front back : List α} {left right cell : α}
    (linked : Linked next prev (front ++ left :: right :: back))
    (distinct : (front ++ left :: right :: back).Nodup)
    (fresh : cell ∉ front ++ left :: right :: back) :
    Linked (Function.update (Function.update next cell right) left cell)
      (Function.update (Function.update prev cell left) right cell)
      (front ++ left :: cell :: right :: back) := by
  obtain ⟨before, _, behind⟩ := linked_split.mp linked
  obtain ⟨_, laterDistinct, apart⟩ := List.nodup_append.mp distinct
  obtain ⟨leftOutside, restDistinct⟩ := List.nodup_cons.mp laterDistinct
  obtain ⟨rightOutside, _⟩ := List.nodup_cons.mp restDistinct
  simp only [List.mem_append, List.mem_cons, not_or] at fresh leftOutside
  obtain ⟨notFront, notLeft, notRight, notBack⟩ := fresh
  refine linked_split.mpr ⟨?_, ⟨Function.update_self .., ?_⟩, ?_⟩
  · refine before.keep_front ?_ ?_
    · intro other member
      have notCell : other ≠ cell := fun same => notFront (same ▸ member)
      rw [Function.update_of_ne (apart other member left List.mem_cons_self),
        Function.update_of_ne notCell]
    · intro other member
      have cases : other ∈ front ∨ other = left := by simpa using member
      have notCell : other ≠ cell := by
        rcases cases with inFront | rfl
        · exact fun same => notFront (same ▸ inFront)
        · exact Ne.symm notLeft
      have notRightCell : other ≠ right := by
        rcases cases with inFront | rfl
        · exact apart other inFront right (by simp)
        · exact leftOutside.1
      rw [Function.update_of_ne notRightCell, Function.update_of_ne notCell]
  · rw [Function.update_of_ne notRight, Function.update_self]
  · refine List.isChain_cons_cons.mpr ⟨⟨?_, Function.update_self ..⟩, ?_⟩
    · rw [Function.update_of_ne notLeft, Function.update_self]
    · refine behind.keep_back ?_ ?_
      · intro other member
        have notCell : other ≠ cell := by
          rintro rfl
          rcases List.mem_cons.mp member with rfl | inBack
          · exact notRight rfl
          · exact notBack inBack
        have notLeftCell : other ≠ left := by
          rintro rfl
          rcases List.mem_cons.mp member with rfl | inBack
          · exact leftOutside.1 rfl
          · exact leftOutside.2 inBack
        rw [Function.update_of_ne notLeftCell, Function.update_of_ne notCell]
      · intro other member
        have notCell : other ≠ cell := fun same => notBack (same ▸ member)
        have notRightCell : other ≠ right := fun same => rightOutside (same ▸ member)
        rw [Function.update_of_ne notRightCell, Function.update_of_ne notCell]

/-- A cell is bypassed. -/
theorem Linked.removed {front back : List α} {left right cell : α}
    (linked : Linked next prev (front ++ left :: cell :: right :: back))
    (distinct : (front ++ left :: cell :: right :: back).Nodup) :
    Linked (Function.update next left right) (Function.update prev right left)
      (front ++ left :: right :: back) := by
  obtain ⟨before, _, rest⟩ := linked_split.mp linked
  obtain ⟨_, behind⟩ := List.isChain_cons_cons.mp rest
  obtain ⟨_, laterDistinct, apart⟩ := List.nodup_append.mp distinct
  obtain ⟨leftOutside, restDistinct⟩ := List.nodup_cons.mp laterDistinct
  obtain ⟨_, tailDistinct⟩ := List.nodup_cons.mp restDistinct
  obtain ⟨rightOutside, _⟩ := List.nodup_cons.mp tailDistinct
  simp only [List.mem_cons, not_or] at leftOutside
  refine linked_split.mpr ⟨?_, ⟨Function.update_self .., Function.update_self ..⟩, ?_⟩
  · refine before.keep_front ?_ ?_
    · intro other member
      rw [Function.update_of_ne (apart other member left List.mem_cons_self)]
    · intro other member
      have notRight : other ≠ right := by
        rcases List.mem_append.mp member with inFront | isLeft
        · exact apart other inFront right (by simp)
        · rw [List.mem_singleton.mp isLeft]
          exact leftOutside.2.1
      rw [Function.update_of_ne notRight]
  · refine List.IsChain.imp_of_mem_tail_imp ?_ behind
    intro first second firstMember secondMember link
    have notLeft : first ≠ left := by
      rintro rfl
      rcases List.mem_cons.mp firstMember with rfl | inBack
      · exact leftOutside.2.1 rfl
      · exact leftOutside.2.2 inBack
    have notRight : second ≠ right := fun same => rightOutside (same ▸ secondMember)
    rw [Function.update_of_ne notLeft, Function.update_of_ne notRight]
    exact link

omit [DecidableEq α] in
/-- The neighbours at a place in a list that begins and ends elsewhere. -/
theorem neighbours (front back : List α) (first last : α) :
    ∃ start rest, first :: front ++ (back ++ [last]) =
        start ++ front.getLastD first :: back.headD last :: rest ∧
      ∀ cell, first :: front ++ cell :: (back ++ [last]) =
        start ++ front.getLastD first :: cell :: back.headD last :: rest := by
  have isFront : first :: front = (first :: front).dropLast ++ [front.getLastD first] := by
    rw [← List.getLast_eq_getLastD (List.cons_ne_nil first front)]
    exact (List.dropLast_append_getLast _).symm
  obtain ⟨rest, isBack⟩ : ∃ rest, back ++ [last] = back.headD last :: rest := by
    cases back with
    | nil => exact ⟨[], rfl⟩
    | cons right back => exact ⟨back ++ [last], rfl⟩
  refine ⟨(first :: front).dropLast, rest, ?_, fun cell => ?_⟩
  · rw [isFront, isBack]
    simp
  · rw [isFront, isBack]
    simp

omit [DecidableEq α] in
/-- The neighbours at a place lead to each other. -/
theorem Linked.between {front back : List α} {first last : α}
    (linked : Linked next prev (first :: front ++ (back ++ [last]))) :
    next (front.getLastD first) = back.headD last ∧
      prev (back.headD last) = front.getLastD first := by
  obtain ⟨start, rest, split, _⟩ := neighbours front back first last
  rw [split] at linked
  exact (linked_split.mp linked).2.1

end Xinu.DoublyLinked
