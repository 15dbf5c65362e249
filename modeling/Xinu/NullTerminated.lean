import Mathlib

/-!
# Lists that end in a null pointer

Each cell has one pointer, which leads to the next cell or is null. A pointer reaches a list of
cells when following the pointers from it meets these cells and then null.

The pointer of a cell outside of a list can change freely. When the pointer of the last cell is
turned to the first cell of another list, the two become one.
-/

namespace Xinu.NullTerminated

variable {α : Type*} [DecidableEq α] {next : α → α} {null first other cell last : α}
  {cells front back : List α}

/-- Following the pointers from the first cell meets the cells of a list. -/
def Reaches (next : α → α) (null : α) : α → List α → Prop
  | first, [] => first = null
  | first, cell :: cells => first = cell ∧ cell ≠ null ∧ Reaches next null (next cell) cells

/-- The last cell of a list, or null. -/
def tailOf (null : α) (cells : List α) : α := cells.getLast?.getD null

omit [DecidableEq α] in
@[simp] theorem tailOf_append (null cell : α) (cells : List α) :
    tailOf null (cells ++ [cell]) = cell := by
  simp [tailOf]

omit [DecidableEq α] in
theorem Reaches.ne_null (reaches : Reaches next null first cells) (member : cell ∈ cells) :
    cell ≠ null := by
  induction cells generalizing first with
  | nil => cases member
  | cons head rest inductionHypothesis =>
    rcases List.mem_cons.mp member with rfl | later
    · exact reaches.2.1
    · exact inductionHypothesis reaches.2.2 later

omit [DecidableEq α] in
/-- Only the empty list begins with null. -/
theorem Reaches.nil_iff (reaches : Reaches next null first cells) : cells = [] ↔ first = null := by
  cases cells with
  | nil => exact iff_of_true rfl reaches
  | cons cell rest =>
    obtain ⟨rfl, notNull, _⟩ := reaches
    exact iff_of_false (List.cons_ne_nil _ _) notNull

omit [DecidableEq α] in
/-- The list begins with its first cell where it has one. -/
theorem Reaches.split (reaches : Reaches next null first cells) (notNull : first ≠ null) :
    ∃ rest, cells = first :: rest ∧ Reaches next null (next first) rest := by
  cases cells with
  | nil => exact absurd reaches notNull
  | cons cell rest =>
    obtain ⟨rfl, _, later⟩ := reaches
    exact ⟨rest, rfl, later⟩

omit [DecidableEq α] in
theorem Reaches.unique (left : Reaches next null first cells) (right : Reaches next null first back) :
    cells = back := by
  induction cells generalizing first back with
  | nil => exact (right.nil_iff.mpr left).symm
  | cons cell rest inductionHypothesis =>
    obtain ⟨rfl, notNull, later⟩ := left
    obtain ⟨others, rfl, otherLater⟩ := right.split notNull
    rw [inductionHypothesis later otherLater]

omit [DecidableEq α] in
/-- Only the pointers of the cells matter. -/
theorem Reaches.congr (reaches : Reaches next null first cells) {next' : α → α}
    (same : ∀ cell ∈ cells, next' cell = next cell) : Reaches next' null first cells := by
  induction cells generalizing first with
  | nil => exact reaches
  | cons cell rest inductionHypothesis =>
    refine ⟨reaches.1, reaches.2.1, ?_⟩
    rw [same cell List.mem_cons_self]
    exact inductionHypothesis reaches.2.2 fun other member => same other (List.mem_cons_of_mem _ member)

theorem Reaches.update (reaches : Reaches next null first cells) (outside : cell ∉ cells)
    (value : α) : Reaches (Function.update next cell value) null first cells :=
  reaches.congr fun other member =>
    Function.update_of_ne (ne_of_mem_of_not_mem member outside) value next

/-- A cell in front of a list. -/
theorem Reaches.cons (reaches : Reaches next null first cells) (outside : cell ∉ cells)
    (notNull : cell ≠ null) : Reaches (Function.update next cell first) null cell (cell :: cells) := by
  refine ⟨rfl, notNull, ?_⟩
  rw [Function.update_self]
  exact reaches.update outside first

/-- The last cell is turned to another list. -/
theorem Reaches.joined (reaches : Reaches next null first (front ++ [last]))
    (later : Reaches next null other back) (distinct : (front ++ [last]).Nodup)
    (outside : last ∉ back) :
    Reaches (Function.update next last other) null first (front ++ last :: back) := by
  induction front generalizing first with
  | nil =>
    refine ⟨reaches.1, reaches.2.1, ?_⟩
    rw [Function.update_self]
    exact later.update outside other
  | cons cell rest inductionHypothesis =>
    obtain ⟨fresh, restDistinct⟩ := List.nodup_cons.mp distinct
    have apart : cell ≠ last := by
      rintro rfl
      exact fresh (List.mem_append_right _ List.mem_cons_self)
    refine ⟨reaches.1, reaches.2.1, ?_⟩
    rw [Function.update_of_ne apart]
    exact inductionHypothesis reaches.2.2 restDistinct

/-- What comes behind a cell is cut off. -/
theorem Reaches.cut (reaches : Reaches next null first (front ++ last :: back))
    (outside : last ∉ front) : Reaches (Function.update next last null) null first (front ++ [last]) := by
  induction front generalizing first with
  | nil => exact ⟨reaches.1, reaches.2.1, Function.update_self ..⟩
  | cons cell rest inductionHypothesis =>
    refine ⟨reaches.1, reaches.2.1, ?_⟩
    rw [Function.update_of_ne (List.ne_of_not_mem_cons outside).symm]
    exact inductionHypothesis reaches.2.2 (List.not_mem_of_not_mem_cons outside)

/-- A new cell behind the last one. -/
theorem Reaches.appended (reaches : Reaches next null first (front ++ [last]))
    (distinct : (front ++ [last]).Nodup) (outside : cell ∉ front ++ [last]) (notNull : cell ≠ null) :
    Reaches (Function.update (Function.update next cell null) last cell) null first
      (front ++ [last] ++ [cell]) := by
  have single : Reaches (Function.update next cell null) null cell [cell] :=
    ⟨rfl, notNull, Function.update_self ..⟩
  have apart : last ∉ [cell] := by
    rw [List.mem_singleton]
    rintro rfl
    exact outside (List.mem_append_right _ List.mem_cons_self)
  rw [List.append_assoc]
  exact (reaches.update outside null).joined single distinct apart

end Xinu.NullTerminated
