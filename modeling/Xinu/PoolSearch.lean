import Xinu.XmallocPools

/-!
# The pool that a size belongs to

`findClosestIndex` looks for the first entry of an increasing table that is large enough. Its loop keeps
an entry that is too small and one that is large enough and ends when they are neighbours. The search is
stated again with a check of every index, for any number of pools and any increasing table, not only for
those that `xmalloc_init` makes.
-/

namespace Xinu.BufferPools

/-- The table of the sizes, as far as there are pools. -/
structure IncreasingSizes (s : System) : Prop where
  some_ : 1 ≤ s.nbpools
  positive : ∀ index, 0 ≤ index → index < s.nbpools → 0 < (s.bufsize index).toInt
  increasing : ∀ index other, 0 ≤ index → index < other → other < s.nbpools →
    (s.bufsize index).toInt < (s.bufsize other).toInt

/-- An entry of the table, when there is a pool with this index. -/
def System.sizeAt (s : System) (index : Int) : Option Int :=
  if 0 ≤ index ∧ index < s.nbpools then some (s.bufsize index).toInt else none

/-- The loop of `findClosestIndex` with its indices checked. It has no result when its turns do not
suffice. -/
def boundedLoop (s : System) (size : Int32) : Nat → Int → Int → Option (Int × Int)
  | 0, _, _ => none
  | turns + 1, start, end_ =>
    if start + 1 < end_ then do
      let mid := start + (end_ - start) / 2
      let found ← s.sizeAt mid
      if found < size.toInt then boundedLoop s size turns mid end_
      else boundedLoop s size turns start mid
    else some (start, end_)

/-- `findClosestIndex` with its indices checked. -/
def boundedClosestIndex (s : System) (size : Int32) : Option Int := do
  if size.toInt ≤ 0 then return syserr
  let largest ← s.sizeAt (s.nbpools - 1)
  if largest < size.toInt then return syserr
  let smallest ← s.sizeAt 0
  if size.toInt ≤ smallest then return 0
  let (start, end_) ← boundedLoop s size s.nbpools.toNat 0 (s.nbpools - 1)
  let first ← s.sizeAt start
  if size.toInt ≤ first then return start
  let second ← s.sizeAt end_
  if size.toInt ≤ second then return end_
  return syserr

section Searches

variable {s : System} {size : Int32} {index start end_ : Int} {turns : Nat}

theorem sizeAt_eq (low : 0 ≤ index) (high : index < s.nbpools) :
    s.sizeAt index = some (s.bufsize index).toInt := by
  unfold System.sizeAt
  simp only [low, high, and_self, if_true]

/-- The checked loop ends, and it ends where the other one does. -/
theorem boundedLoop_eq (low : 0 ≤ start) (ordered : start ≤ end_) (high : end_ < s.nbpools)
    (enough : end_ - start < turns) :
    boundedLoop s size turns start end_ = some (closestLoop s size turns start end_) := by
  induction turns generalizing start end_ with
  | zero => omega
  | succ turns inductionHypothesis =>
    by_cases between : start + 1 < end_
    · have middle : start < start + (end_ - start) / 2 ∧ start + (end_ - start) / 2 < end_ := by omega
      have read := @sizeAt_eq s (start + (end_ - start) / 2) (by omega) (by omega)
      by_cases small : (s.bufsize (start + (end_ - start) / 2)).toInt < size.toInt
      · have later := @inductionHypothesis (start + (end_ - start) / 2) end_ (by omega) middle.2.le
          high (by omega)
        simpa only [boundedLoop, closestLoop, if_pos between, read, Option.bind_eq_bind, Option.bind_some,
          if_pos small] using later
      · have later := @inductionHypothesis start (start + (end_ - start) / 2) low middle.1.le
          (by omega) (by omega)
        simpa only [boundedLoop, closestLoop, if_pos between, read, Option.bind_eq_bind, Option.bind_some,
          if_neg small] using later
    · simp only [boundedLoop, closestLoop, if_neg between]

/-- The loop stays between the indices that it starts with. -/
theorem closestLoop_bounds (ordered : start ≤ end_) :
    start ≤ (closestLoop s size turns start end_).1 ∧
      (closestLoop s size turns start end_).1 ≤ (closestLoop s size turns start end_).2 ∧
      (closestLoop s size turns start end_).2 ≤ end_ := by
  induction turns generalizing start end_ with
  | zero => exact ⟨le_refl _, ordered, le_refl _⟩
  | succ turns inductionHypothesis =>
    by_cases between : start + 1 < end_
    · have middle : start < start + (end_ - start) / 2 ∧ start + (end_ - start) / 2 < end_ := by omega
      by_cases small : (s.bufsize (start + (end_ - start) / 2)).toInt < size.toInt
      · obtain ⟨low, ordered, high⟩ := @inductionHypothesis (start + (end_ - start) / 2) end_ middle.2.le
        simp only [closestLoop, if_pos between, if_pos small]
        exact ⟨by omega, ordered, high⟩
      · obtain ⟨low, ordered, high⟩ := @inductionHypothesis start (start + (end_ - start) / 2) middle.1.le
        simp only [closestLoop, if_pos between, if_neg small]
        exact ⟨low, ordered, by lia⟩
    · simp only [closestLoop, if_neg between]
      exact ⟨le_refl _, ordered, le_refl _⟩

/-- Every index that the search reads has a pool, and its loop ends. -/
theorem boundedClosestIndex_eq (some_ : 1 ≤ s.nbpools) :
    boundedClosestIndex s size = some (findClosestIndex s size) := by
  have last := @sizeAt_eq s (s.nbpools - 1) (by omega) (by omega)
  have first := @sizeAt_eq s 0 (le_refl _) (by omega)
  have loop := @boundedLoop_eq s size 0 (s.nbpools - 1) s.nbpools.toNat (le_refl _) (by omega)
    (by omega) (by omega)
  obtain ⟨low, ordered, high⟩ := @closestLoop_bounds s size 0 (s.nbpools - 1) s.nbpools.toNat (by omega)
  have atStart := sizeAt_eq low (by omega : _ < s.nbpools)
  have atEnd := sizeAt_eq (low.trans ordered) (by omega : _ < s.nbpools)
  by_cases positive : size.toInt ≤ 0
  · simp [boundedClosestIndex, findClosestIndex, positive]
  · by_cases large : (s.bufsize (s.nbpools - 1)).toInt < size.toInt
    · simp [boundedClosestIndex, findClosestIndex, positive, last, large]
    · by_cases fits : size.toInt ≤ (s.bufsize 0).toInt
      · simp [boundedClosestIndex, findClosestIndex, positive, last, large, first, fits]
      · by_cases here : size.toInt ≤ (s.bufsize (closestLoop s size s.nbpools.toNat 0 (s.nbpools - 1)).1).toInt
        · simp [boundedClosestIndex, findClosestIndex, positive, last, large, first, fits, loop, atStart, here]
        · by_cases there : size.toInt ≤
            (s.bufsize (closestLoop s size s.nbpools.toNat 0 (s.nbpools - 1)).2).toInt
          · simp [boundedClosestIndex, findClosestIndex, positive, last, large, first, fits, loop, atStart,
              here, atEnd, there]
          · simp [boundedClosestIndex, findClosestIndex, positive, last, large, first, fits, loop, atStart,
              here, atEnd, there]

/-- In an increasing table, what stands in front of an entry that is too small is too small. -/
theorem IncreasingSizes.below (sizes : IncreasingSizes s) (high : index < s.nbpools)
    (small : (s.bufsize index).toInt < size.toInt) {other : Int} (otherLow : 0 ≤ other)
    (otherHigh : other ≤ index) : (s.bufsize other).toInt < size.toInt := by
  by_cases same : other = index
  · exact same ▸ small
  · have increasing := sizes.increasing other index otherLow (by lia) high
    omega

/-- A size that fits into some pool has the first of these as its answer. -/
theorem IncreasingSizes.closest (sizes : IncreasingSizes s) (positive : 0 < size.toInt)
    (fits : size.toInt ≤ (s.bufsize (s.nbpools - 1)).toInt) : s.Chosen size (findClosestIndex s size) := by
  have some_ := sizes.some_
  have notRefused : ¬ (size.toInt ≤ 0 ∨ (s.bufsize (s.nbpools - 1)).toInt < size.toInt) := by omega
  by_cases first : size.toInt ≤ (s.bufsize 0).toInt
  · simp only [findClosestIndex, if_neg notRefused, if_pos first]
    exact ⟨⟨le_refl _, by omega⟩, first, fun other low high => absurd high (by omega)⟩
  · have several : 0 < s.nbpools - 1 := by
      by_contra single
      have only : s.nbpools - 1 = 0 := by omega
      rw [only] at fits
      exact first fits
    obtain ⟨found, low, high, result, small, large⟩ := closestLoop_neighbours size s.nbpools.toNat 0
      (s.nbpools - 1) several (by lia) (not_le.mp first) fits
    simp only [findClosestIndex, if_neg notRefused, if_neg first, result, if_neg (not_le.mpr small),
      if_pos large]
    exact ⟨⟨by lia, by omega⟩, large, fun other otherLow otherHigh =>
      sizes.below (by omega) small otherLow (by lia)⟩

/-- The search ends and reads entries of pools only. It refuses the sizes that no pool can hold, and
answers the first pool that is large enough for the others. -/
theorem closest_index_is_least (s : System) (sizes : IncreasingSizes s) (size : Int32) :
    boundedClosestIndex s size = some (findClosestIndex s size) ∧
    (findClosestIndex s size = syserr ↔
      size.toInt ≤ 0 ∨ (s.bufsize (s.nbpools - 1)).toInt < size.toInt) ∧
    (findClosestIndex s size ≠ syserr →
      0 ≤ findClosestIndex s size ∧ findClosestIndex s size < s.nbpools ∧
      size.toInt ≤ (s.bufsize (findClosestIndex s size)).toInt ∧
      ∀ other, 0 ≤ other → other < findClosestIndex s size → (s.bufsize other).toInt < size.toInt) := by
  by_cases refused : size.toInt ≤ 0 ∨ (s.bufsize (s.nbpools - 1)).toInt < size.toInt
  · have answer : findClosestIndex s size = syserr := by
      simp only [findClosestIndex, if_pos refused]
    exact ⟨boundedClosestIndex_eq sizes.some_, ⟨fun _ => refused, fun _ => answer⟩,
      fun other => absurd answer other⟩
  · have chosen := sizes.closest (by omega : 0 < size.toInt) (by omega)
    have real : findClosestIndex s size ≠ syserr := by
      have low := chosen.current.1
      intro same
      rw [same] at low
      exact absurd low (by decide)
    exact ⟨boundedClosestIndex_eq sizes.some_, ⟨fun same => absurd same real, fun no => absurd no refused⟩,
      fun _ => ⟨chosen.current.1, chosen.current.2, chosen.fits, chosen.least⟩⟩

end Searches

/-- A table of the sizes 10, 20 and 30 and nothing behind it. -/
def threeSizes : System :=
  { boot (freshHeap 8 65536) (fun _ => 0) (fun _ => .free) with
    nbpools := 3
    bufsize := fun index => if index = 0 then 10 else if index = 1 then 20 else if index = 2 then 30 else 0 }

/-- A size on the boundary of the second pool. -/
theorem twenty_bytes_belong_to_the_second_pool :
    boundedClosestIndex threeSizes 20 = some (findClosestIndex threeSizes 20) ∧
      findClosestIndex threeSizes 20 = 1 := by
  have sizes : IncreasingSizes threeSizes := by
    have table : ∀ index other : Fin 3, 0 < (threeSizes.bufsize index.val).toInt ∧
        (index < other → (threeSizes.bufsize index.val).toInt < (threeSizes.bufsize other.val).toInt) := by
      decide
    have three : threeSizes.nbpools = 3 := rfl
    constructor
    · decide
    · intro index low high
      obtain ⟨place, rfl⟩ := Int.eq_ofNat_of_zero_le low
      exact (table ⟨place, by omega⟩ 0).1
    · intro index other low ordered high
      obtain ⟨place, rfl⟩ := Int.eq_ofNat_of_zero_le low
      obtain ⟨behind, rfl⟩ := Int.eq_ofNat_of_zero_le (low.trans ordered.le)
      exact (table ⟨place, by omega⟩ ⟨behind, by omega⟩).2 (Fin.mk_lt_mk.mpr (by omega))
  exact ⟨(closest_index_is_least threeSizes sizes 20).1, by decide⟩

end Xinu.BufferPools
