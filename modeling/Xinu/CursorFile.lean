import Mathlib

/-!
# A sequence with a cursor

What a file is for its reader: a finite sequence of elements and a position inside
it. Writing replaces the elements at the cursor, beyond the end if there are more
of them, and moves the cursor behind them. Reading hands out the elements at the
cursor, as many as there are, and moves behind those. The position never leaves
the sequence, so the structure carries that fact.
-/

namespace Xinu

universe u

/-- A sequence and a position inside it. -/
@[ext]
structure CursorFile (α : Type u) where
  contents : List α
  cursor : Nat
  inside : cursor ≤ contents.length

namespace CursorFile

variable {α : Type u}

/-- The empty sequence. -/
def empty : CursorFile α := ⟨[], 0, Nat.le_refl 0⟩

/-- Replace the elements at the cursor and move behind them. -/
def write (file : CursorFile α) (data : List α) : CursorFile α where
  contents := file.contents.take file.cursor ++ data ++
    file.contents.drop (file.cursor + data.length)
  cursor := file.cursor + data.length
  inside := by
    have within := file.inside
    simp only [List.length_append, List.length_take, List.length_drop]
    lia

/-- The elements at the cursor, at most `count` of them. -/
def peek (file : CursorFile α) (count : Nat) : List α :=
  (file.contents.drop file.cursor).take count

/-- Move behind the elements that a read of `count` hands out. -/
def skip (file : CursorFile α) (count : Nat) : CursorFile α where
  contents := file.contents
  cursor := min (file.cursor + count) file.contents.length
  inside := Nat.min_le_right _ _

/-- Move to a position of the sequence. -/
def move (file : CursorFile α) (position : Nat) (within : position ≤ file.contents.length) :
    CursorFile α := ⟨file.contents, position, within⟩

theorem write_contents (file : CursorFile α) (data : List α) :
    (file.write data).contents = file.contents.take file.cursor ++ data ++
      file.contents.drop (file.cursor + data.length) := rfl

/-- Writing extends the sequence to the end of the data, never shortens it. -/
theorem write_length (file : CursorFile α) (data : List α) :
    (file.write data).contents.length =
      max file.contents.length (file.cursor + data.length) := by
  have within := file.inside
  simp only [write_contents, List.length_append, List.length_take, List.length_drop]
  lia

/-- Inside the written range the data is found. -/
theorem write_inside (file : CursorFile α) (data : List α) (k : Nat)
    (low : file.cursor ≤ k) (high : k < file.cursor + data.length) :
    (file.write data).contents[k]? = data[k - file.cursor]? := by
  have within := file.inside
  have front : (file.contents.take file.cursor).length = file.cursor := by
    rw [List.length_take, Nat.min_eq_left within]
  rw [write_contents, List.append_assoc, List.getElem?_append_right (by rw [front]; exact low), front,
    List.getElem?_append_left (by lia)]

/-- Below it nothing changes. -/
theorem write_below (file : CursorFile α) (data : List α) (k : Nat) (low : k < file.cursor) :
    (file.write data).contents[k]? = file.contents[k]? := by
  have within := file.inside
  have front : (file.contents.take file.cursor).length = file.cursor := by
    rw [List.length_take, Nat.min_eq_left within]
  rw [write_contents, List.append_assoc, List.getElem?_append_left (by rw [front]; exact low),
    List.getElem?_take_of_lt low]

/-- Above it nothing changes either. -/
theorem write_above (file : CursorFile α) (data : List α) (k : Nat)
    (high : file.cursor + data.length ≤ k) :
    (file.write data).contents[k]? = file.contents[k]? := by
  have within := file.inside
  have front : (file.contents.take file.cursor ++ data).length = file.cursor + data.length := by
    rw [List.length_append, List.length_take, Nat.min_eq_left within]
  rw [write_contents, List.getElem?_append_right (by rw [front]; exact high), front, List.getElem?_drop]
  congr 1
  lia

/-- A read hands out the elements of the range it moves over. -/
theorem peek_getElem (file : CursorFile α) (count k : Nat) (inside : k < count) :
    (file.peek count)[k]? = file.contents[file.cursor + k]? := by
  rw [peek, List.getElem?_take_of_lt inside, List.getElem?_drop]

theorem peek_length (file : CursorFile α) (count : Nat) :
    (file.peek count).length = min count (file.contents.length - file.cursor) := by
  rw [peek, List.length_take, List.length_drop]

end CursorFile

end Xinu
