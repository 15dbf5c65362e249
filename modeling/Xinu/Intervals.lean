import Mathlib

/-!
# Lists of intervals

An interval of natural numbers is given by its first point and its length. A list of
intervals is separated when each of them ends before the next one begins, with at least
one point in between; such a list is ascending, and no two of its intervals could be
joined. A list tiles a range when its intervals are disjoint and cover the range exactly.

An interval can be cut in two and two neighbours can be joined without a change to what
is covered. Both facts are one equivalence here, and tiling does not depend on the order
of a list.
-/

namespace Xinu.Intervals

/-- The first point of an interval and the number of its points. -/
structure Interval where
  start : Nat
  length : Nat
deriving DecidableEq

/-- The first point behind an interval. -/
def Interval.stop (interval : Interval) : Nat := interval.start + interval.length

/-- The points of an interval. -/
def Interval.points (interval : Interval) : Set Nat := Set.Ico interval.start interval.stop

/-- The points of all intervals of a list. -/
def covered (list : List Interval) : Set Nat := {point | ∃ interval ∈ list, point ∈ interval.points}

/-- Each interval ends before the next one begins and does not touch it. -/
def Separated (list : List Interval) : Prop :=
  list.Pairwise fun left right => left.stop < right.start

/-- Disjoint intervals that cover a range and nothing else. -/
structure Tiles (low high : Nat) (list : List Interval) : Prop where
  disjoint : list.Pairwise fun left right => Disjoint left.points right.points
  exact : covered list = Set.Ico low high

/-- A list with one more member. -/
theorem forall_mem_middle {α : Type*} {property : α → Prop} (front back : List α) (middle : α) :
    (∀ member ∈ front ++ middle :: back, property member) ↔
      property middle ∧ ∀ member ∈ front ++ back, property member := by
  simp only [List.perm_middle.mem_iff, List.mem_cons, forall_eq_or_imp]

theorem start_le_stop (interval : Interval) : interval.start ≤ interval.stop :=
  Nat.le_add_right _ _

@[simp] theorem covered_nil : covered [] = ∅ := by simp [covered]

@[simp] theorem covered_cons (interval : Interval) (list : List Interval) :
    covered (interval :: list) = interval.points ∪ covered list := by
  ext point
  simp [covered]

@[simp] theorem covered_append (front back : List Interval) :
    covered (front ++ back) = covered front ∪ covered back := by
  ext point
  simp [covered, or_and_right, exists_or]

theorem covered_perm {list other : List Interval} (perm : list.Perm other) :
    covered list = covered other := by
  ext point
  simp [covered, perm.mem_iff]

/-- An interval can be put where everything before ends and everything behind begins
away from it. -/
theorem Separated.insert {front back : List Interval} {interval : Interval}
    (separated : Separated (front ++ back)) (before : ∀ left ∈ front, left.stop < interval.start)
    (behind : ∀ right ∈ back, interval.stop < right.start) :
    Separated (front ++ interval :: back) := by
  obtain ⟨separatedFront, separatedBack, across⟩ := List.pairwise_append.mp separated
  have separatedRest : Separated (interval :: back) :=
    List.pairwise_cons.mpr ⟨behind, separatedBack⟩
  refine List.pairwise_append.mpr ⟨separatedFront, separatedRest, ?_⟩
  intro left inFront right inRest
  rcases List.mem_cons.mp inRest with rfl | inBack
  · exact before left inFront
  · exact across left inFront right inBack

theorem Separated.remove {front back : List Interval} {interval : Interval}
    (separated : Separated (front ++ interval :: back)) : Separated (front ++ back) :=
  separated.sublist ((List.Sublist.refl front).append (List.sublist_cons_self interval back))

/-- The neighbours of an interval. -/
theorem Separated.neighbours {front back : List Interval} {interval : Interval}
    (separated : Separated (front ++ interval :: back)) :
    (∀ left ∈ front, left.stop < interval.start) ∧ ∀ right ∈ back, interval.stop < right.start := by
  obtain ⟨_, separatedRest, across⟩ := List.pairwise_append.mp separated
  exact ⟨fun left inFront => across left inFront interval List.mem_cons_self,
    (List.pairwise_cons.mp separatedRest).1⟩

/-- An interval can be made smaller. -/
theorem Separated.shrink {front back : List Interval} {old new : Interval}
    (separated : Separated (front ++ old :: back)) (later : old.start ≤ new.start)
    (earlier : new.stop ≤ old.stop) : Separated (front ++ new :: back) := by
  obtain ⟨before, behind⟩ := separated.neighbours
  refine separated.remove.insert ?_ ?_
  · intro left inFront
    exact Nat.lt_of_lt_of_le (before left inFront) later
  · intro right inBack
    exact Nat.lt_of_le_of_lt earlier (behind right inBack)

/-- The first points are strictly ascending. -/
theorem Separated.ascending {list : List Interval} (separated : Separated list) :
    (list.map Interval.start).Pairwise (· < ·) := by
  refine List.pairwise_map.mpr (List.Pairwise.imp ?_ separated)
  intro left right apart
  exact Nat.lt_of_le_of_lt (start_le_stop left) apart

/-- There are no more intervals than points at which they can begin. -/
theorem Separated.length_le {list : List Interval} (separated : Separated list) (bound : Nat)
    (below : ∀ interval ∈ list, interval.start < bound) : list.length ≤ bound := by
  have distinct : (list.map Interval.start).Nodup :=
    separated.ascending.imp fun less => Nat.ne_of_lt less
  have inRange : list.map Interval.start ⊆ List.range bound := by
    intro start member
    obtain ⟨interval, inList, rfl⟩ := List.mem_map.mp member
    exact List.mem_range.mpr (below interval inList)
  have shorter := (List.subperm_of_subset distinct inRange).length_le
  rwa [List.length_map, List.length_range] at shorter

/-- Tiling does not depend on the order. -/
theorem Tiles.perm {low high : Nat} {list other : List Interval} (tiles : Tiles low high list)
    (perm : list.Perm other) : Tiles low high other := by
  refine ⟨?_, (covered_perm perm).symm.trans tiles.exact⟩
  exact (perm.pairwise_iff fun apart => apart.symm).mp tiles.disjoint

/-- The points of two neighbours. -/
theorem points_joined (left right : Interval) (touching : left.stop = right.start) :
    left.points ∪ right.points =
      (Interval.mk left.start (left.length + right.length)).points := by
  have last : (Interval.mk left.start (left.length + right.length)).stop = right.stop := by
    rw [Interval.stop, Interval.stop, ← touching, Interval.stop, Nat.add_assoc]
  rw [Interval.points, Interval.points, Interval.points, last, ← touching]
  exact Set.Ico_union_Ico_eq_Ico (start_le_stop left) (touching ▸ start_le_stop right)

/-- Two neighbours can be joined, and an interval can be cut in two. -/
theorem tiles_joined {low high : Nat} (left right : Interval) (rest : List Interval)
    (touching : left.stop = right.start) :
    Tiles low high (left :: right :: rest) ↔
      Tiles low high (⟨left.start, left.length + right.length⟩ :: rest) := by
  have joined := points_joined left right touching
  have apart : Disjoint left.points right.points := by
    rw [Interval.points, Interval.points, touching]
    exact Set.Ico_disjoint_Ico_same
  have sameCover : covered (left :: right :: rest) =
      covered (⟨left.start, left.length + right.length⟩ :: rest) := by
    rw [covered_cons, covered_cons, covered_cons, ← joined, Set.union_assoc]
  constructor
  · intro tiles
    obtain ⟨leftApart, rightTiles⟩ := List.pairwise_cons.mp tiles.disjoint
    obtain ⟨rightApart, restDisjoint⟩ := List.pairwise_cons.mp rightTiles
    refine ⟨List.pairwise_cons.mpr ⟨?_, restDisjoint⟩, sameCover.symm.trans tiles.exact⟩
    intro other inRest
    rw [← joined]
    exact Set.disjoint_union_left.mpr
      ⟨leftApart other (List.mem_cons_of_mem _ inRest), rightApart other inRest⟩
  · intro tiles
    obtain ⟨joinedApart, restDisjoint⟩ := List.pairwise_cons.mp tiles.disjoint
    have parts : ∀ other ∈ rest,
        Disjoint left.points other.points ∧ Disjoint right.points other.points := by
      intro other inRest
      have whole := joinedApart other inRest
      rw [← joined] at whole
      exact Set.disjoint_union_left.mp whole
    refine ⟨List.pairwise_cons.mpr ⟨?_, List.pairwise_cons.mpr ⟨fun other inRest =>
      (parts other inRest).2, restDisjoint⟩⟩, sameCover.trans tiles.exact⟩
    intro other member
    rcases List.mem_cons.mp member with rfl | inRest
    · exact apart
    · exact (parts other inRest).1

/-- One interval of the first of two lists, and one of the second. -/
theorem tiles_first {low high : Nat} (front back others : List Interval) (interval : Interval) :
    Tiles low high ((front ++ interval :: back) ++ others) ↔
      Tiles low high (interval :: ((front ++ back) ++ others)) := by
  have perm : ((front ++ interval :: back) ++ others).Perm
      (interval :: ((front ++ back) ++ others)) := List.perm_middle.append_right others
  exact ⟨fun tiles => tiles.perm perm, fun tiles => tiles.perm perm.symm⟩

theorem tiles_second {low high : Nat} (list others : List Interval) (interval : Interval) :
    Tiles low high (list ++ interval :: others) ↔ Tiles low high (interval :: (list ++ others)) :=
  ⟨fun tiles => tiles.perm List.perm_middle, fun tiles => tiles.perm List.perm_middle.symm⟩

/-- The points of the intervals of two lists that tile a range together. -/
theorem Tiles.disjoint_lists {low high : Nat} {list others : List Interval}
    (tiles : Tiles low high (list ++ others)) : Disjoint (covered list) (covered others) := by
  obtain ⟨_, _, across⟩ := List.pairwise_append.mp tiles.disjoint
  refine Set.disjoint_left.mpr ?_
  rintro point ⟨left, inList, inLeft⟩ ⟨right, inOthers, inRight⟩
  exact Set.disjoint_left.mp (across left inList right inOthers) inLeft inRight

/-- If the same intervals complete two lists to a tiling of one range, the lists cover the
same points. -/
theorem Tiles.same_covered {low high : Nat} {list other rest : List Interval}
    (tiles : Tiles low high (list ++ rest)) (second : Tiles low high (other ++ rest)) :
    covered list = covered other := by
  have whole : covered list ∪ covered rest = covered other ∪ covered rest := by
    rw [← covered_append, ← covered_append, tiles.exact, second.exact]
  have first : covered list = (covered list ∪ covered rest) \ covered rest :=
    (Set.union_sdiff_cancel_right (Set.disjoint_iff.mp tiles.disjoint_lists)).symm
  rw [first, whole, Set.union_sdiff_cancel_right (Set.disjoint_iff.mp second.disjoint_lists)]

/-- An interval that is moved from one list of a tiling to the other one takes its points
with it. -/
theorem Tiles.moved {low high : Nat} {list other rest : List Interval} {interval : Interval}
    (tiles : Tiles low high (list ++ rest)) (second : Tiles low high (other ++ interval :: rest)) :
    covered list = covered other ∪ interval.points ∧ Disjoint (covered other) interval.points := by
  have shape : other ++ interval :: rest = (other ++ [interval]) ++ rest := by simp
  constructor
  · rw [shape] at second
    have same := tiles.same_covered second
    rw [covered_append, covered_cons, covered_nil, Set.union_empty] at same
    exact same
  · refine second.disjoint_lists.mono_right ?_
    rw [covered_cons]
    exact Set.subset_union_left

/-- An interval of a tiling that has a point lies in the range. -/
theorem Tiles.inside {low high : Nat} {list : List Interval} (tiles : Tiles low high list)
    {interval : Interval} (member : interval ∈ list) (positive : 0 < interval.length) :
    low ≤ interval.start ∧ interval.stop ≤ high := by
  have within : interval.points ⊆ Set.Ico low high := by
    rw [← tiles.exact]
    exact fun point inside => ⟨interval, member, inside⟩
  have nonempty : interval.start < interval.stop := Nat.lt_add_of_pos_right positive
  exact (Set.Ico_subset_Ico_iff nonempty).mp within

/-- Of two disjoint intervals the one that begins first ends before the other begins. -/
theorem stop_le_start_of_disjoint {left right : Interval}
    (apart : Disjoint left.points right.points) (positive : 0 < right.length)
    (first : left.start ≤ right.start) : left.stop ≤ right.start := by
  by_contra reaches
  have inLeft : right.start ∈ left.points := ⟨first, Nat.lt_of_not_le reaches⟩
  have inRight : right.start ∈ right.points := ⟨Nat.le_refl _, Nat.lt_add_of_pos_right positive⟩
  exact Set.disjoint_left.mp apart inLeft inRight

end Xinu.Intervals
