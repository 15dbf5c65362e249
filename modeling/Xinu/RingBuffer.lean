import Mathlib

/-!
# Circular buffers

A buffer of some capacity holds its elements from a start on, around its end. Elements are
appended behind the last one and removed from the front; an element that is appended last may
also be removed again.
-/

namespace Xinu.RingBuffer

variable {α : Type*}

/-- The elements from a start on. -/
def contents (buffer : Nat → α) (capacity start count : Nat) : List α :=
  (List.range count).map fun offset => buffer ((start + offset) % capacity)

section Contents

variable {buffer other : Nat → α} {capacity start count : Nat} {element : α}

@[simp] theorem length_contents : (contents buffer capacity start count).length = count := by
  simp [contents]

@[simp] theorem contents_zero : contents buffer capacity start 0 = [] := rfl

/-- Distinct offsets are distinct places. -/
theorem place_ne {offset last : Nat} (below : offset < last) (inside : last < capacity) :
    (start + offset) % capacity ≠ (start + last) % capacity := by
  intro same
  have congruent : start + offset ≡ start + last [MOD capacity] := same
  have offsets : offset % capacity = last % capacity := Nat.ModEq.add_left_cancel' start congruent
  rw [Nat.mod_eq_of_lt (below.trans inside), Nat.mod_eq_of_lt inside] at offsets
  omega

/-- The first element and the rest. -/
theorem contents_succ : contents buffer capacity start (count + 1) =
    buffer (start % capacity) :: contents buffer capacity ((start + 1) % capacity) count := by
  unfold contents
  rw [List.range_succ_eq_map, List.map_cons, List.map_map, Nat.add_zero]
  refine congrArg _ (List.map_congr_left fun offset _ => ?_)
  have same : (start + (offset + 1)) % capacity = ((start + 1) % capacity + offset) % capacity := by
    rw [Nat.mod_add_mod]
    congr 1
    lia
  exact congrArg buffer same

/-- The last element and those in front of it. -/
theorem contents_last : contents buffer capacity start (count + 1) =
    contents buffer capacity start count ++ [buffer ((start + count) % capacity)] := by
  unfold contents
  rw [List.range_succ, List.map_append]
  rfl

/-- The places of the elements decide. -/
theorem contents_congr (same : ∀ offset < count,
    buffer ((start + offset) % capacity) = other ((start + offset) % capacity)) :
    contents buffer capacity start count = contents other capacity start count :=
  List.map_congr_left fun offset member => same offset (List.mem_range.mp member)

/-- The first elements. -/
theorem contents_take {kept : Nat} (fewer : kept ≤ count) :
    (contents buffer capacity start count).take kept = contents buffer capacity start kept := by
  unfold contents
  rw [← List.map_take, List.take_range, Nat.min_eq_left fewer]

/-- An element is appended. -/
theorem contents_push (room : count < capacity) :
    contents (Function.update buffer ((start + count) % capacity) element) capacity start (count + 1) =
      contents buffer capacity start count ++ [element] := by
  rw [contents_last, Function.update_self]
  refine congrArg (· ++ [element]) (contents_congr fun offset below => ?_)
  exact Function.update_of_ne (place_ne below room) _ _

end Contents

/-- A buffer with indices of its first element and behind its last one, and a counter. -/
structure Ring (capacity head tail : Nat) (count : Int) (length : Nat) : Prop where
  counted : count = length
  room : length ≤ capacity
  start : head < capacity
  stop : tail = (head + length) % capacity

section Rings

variable {buffer : Nat → α} {capacity head tail length : Nat} {count : Int} {element : α}

theorem Ring.tail_lt (ring : Ring capacity head tail count length) : tail < capacity :=
  ring.stop ▸ Nat.mod_lt _ (Nat.zero_lt_of_lt ring.start)

/-- The index behind another one, with a test for the end of the buffer. -/
theorem wrapped_eq {index : Nat} (inside : index < capacity) :
    (if capacity ≤ index + 1 then 0 else index + 1) = (index + 1) % capacity := by
  split
  case isTrue last =>
    have whole : index + 1 = capacity := by lia
    rw [whole, Nat.mod_self]
  case isFalse below => exact (Nat.mod_eq_of_lt (by omega)).symm

/-- An element is appended at the tail. -/
theorem Ring.push (ring : Ring capacity head tail count length) (space : length < capacity) :
    Ring capacity head (if capacity ≤ tail + 1 then 0 else tail + 1) (count + 1) (length + 1) ∧
      contents (Function.update buffer tail element) capacity head (length + 1) =
        contents buffer capacity head length ++ [element] := by
  have counted := ring.counted
  refine ⟨⟨by lia, space, ring.start, ?_⟩, ?_⟩
  · rw [wrapped_eq ring.tail_lt, ring.stop, Nat.mod_add_mod, Nat.add_assoc]
  · rw [ring.stop, contents_push space]

/-- The first element is removed. -/
theorem Ring.pop (ring : Ring capacity head tail count (length + 1)) :
    Ring capacity (if capacity ≤ head + 1 then 0 else head + 1) tail (count - 1) length ∧
      contents buffer capacity head (length + 1) = buffer head ::
        contents buffer capacity (if capacity ≤ head + 1 then 0 else head + 1) length := by
  have counted := ring.counted
  have next := wrapped_eq ring.start
  refine ⟨⟨by lia, by have := ring.room; lia, ?_, ?_⟩, ?_⟩
  · rw [next]
    exact Nat.mod_lt _ (Nat.zero_lt_of_lt ring.start)
  · rw [next, Nat.mod_add_mod, ring.stop]
    congr 1
    lia
  · rw [next, contents_succ, Nat.mod_eq_of_lt ring.start]

end Rings

end Xinu.RingBuffer
