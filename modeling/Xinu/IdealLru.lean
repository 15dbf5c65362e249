import Mathlib

/-!
# The ideal cache of the least recently used keys

What an LRU cache is for: it holds at most a fixed number of keys, in the order of
their last use. A use of a held key makes it the latest. A use of another key adds
it as the latest, and if the cache is full the earliest key leaves.
-/

namespace Xinu

universe u

/-- Different keys, at most `capacity` of them, the latest one last. -/
@[ext]
structure IdealLru (κ : Type u) (capacity : Nat) where
  keys : List κ
  distinct : keys.Nodup
  bounded : keys.length ≤ capacity

namespace IdealLru

variable {κ : Type u} [DecidableEq κ] {capacity : Nat}

/-- The empty cache. -/
def empty : IdealLru κ capacity := ⟨[], List.nodup_nil, Nat.zero_le _⟩

/-- The keys after a use of one of them. -/
def latest (capacity : Nat) (keys : List κ) (k : κ) : List κ :=
  if k ∈ keys then keys.erase k ++ [k]
  else if keys.length < capacity then keys ++ [k]
  else keys.tail ++ [k]

theorem latest_member {keys : List κ} {k : κ} (member : k ∈ keys) :
    latest capacity keys k = keys.erase k ++ [k] := if_pos member

theorem latest_room {keys : List κ} {k : κ} (absent : k ∉ keys)
    (room : keys.length < capacity) : latest capacity keys k = keys ++ [k] := by
  rw [latest, if_neg absent, if_pos room]

/-- In a full cache the key that leaves is the least recently used one. -/
theorem latest_full {keys : List κ} {k : κ} (absent : k ∉ keys)
    (full : ¬ keys.length < capacity) : latest capacity keys k = keys.tail ++ [k] := by
  rw [latest, if_neg absent, if_neg full]

theorem latest_distinct {keys : List κ} (distinct : keys.Nodup) (k : κ) :
    (latest capacity keys k).Nodup := by
  have added : ∀ rest : List κ, rest.Nodup → k ∉ rest → (rest ++ [k]).Nodup := by
    intro rest restDistinct absent
    rw [List.nodup_append]
    refine ⟨restDistinct, by simp, ?_⟩
    rintro other member _ last rfl
    exact absent (List.mem_singleton.mp last ▸ member)
  unfold latest
  split
  · exact added _ (distinct.erase k) distinct.not_mem_erase
  · split
    · exact added _ distinct (by assumption)
    · exact added _ distinct.tail (fun member => by
        have := List.mem_of_mem_tail member
        contradiction)

theorem latest_bounded [NeZero capacity] {keys : List κ} (bounded : keys.length ≤ capacity)
    (k : κ) : (latest capacity keys k).length ≤ capacity := by
  have positive : 0 < capacity := Nat.pos_of_ne_zero (NeZero.ne capacity)
  unfold latest
  split
  case isTrue member =>
    rw [List.length_append, List.length_erase_of_mem member]
    have nonempty := List.length_pos_of_mem member
    simp only [List.length_singleton]
    omega
  case isFalse absent =>
    split
    · simpa using Nat.succ_le_of_lt (by assumption)
    · rw [List.length_append, List.length_tail]
      simp only [List.length_singleton]
      omega

/-- A use of a key. -/
def use [NeZero capacity] (cache : IdealLru κ capacity) (k : κ) : IdealLru κ capacity :=
  ⟨latest capacity cache.keys k, latest_distinct cache.distinct k, latest_bounded cache.bounded k⟩

theorem use_keys [NeZero capacity] (cache : IdealLru κ capacity) (k : κ) :
    (cache.use k).keys = latest capacity cache.keys k := rfl

/-- A request for a key: a use if the key is held. -/
def request [NeZero capacity] (cache : IdealLru κ capacity) (k : κ) : IdealLru κ capacity :=
  if k ∈ cache.keys then cache.use k else cache

end IdealLru

end Xinu
