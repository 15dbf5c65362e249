import Xinu.CIntegers

/-!
# Bytes that are stored in memory

Bytes are stored one after the other from some place on, and are read back from there.
-/

namespace Xinu.StoredBytes

open CIntegers

/-- Bytes are stored from some place on. -/
def store (memory : Memory) (at_ : Nat) (bytes : List UInt8) : Memory :=
  copy memory at_ (fun k => bytes.getD k 0) bytes.length

/-- Memory has certain bytes from some place on. -/
def Holds (memory : Memory) (at_ : Nat) (bytes : List UInt8) : Prop :=
  ∀ k < bytes.length, memory (at_ + k) = bytes.getD k 0

/-- The bytes of memory from some place on. -/
def bytesAt (memory : Memory) (at_ count : Nat) : List UInt8 := (List.range count).map fun k => memory (at_ + k)

section Bytes

variable {memory : Memory} {at_ place count : Nat} {bytes rest : List UInt8}

theorem holds_store : Holds (store memory at_ bytes) at_ bytes :=
  fun k inside => copy_inside _ _ at_ _ k inside

theorem store_outside (outside : place < at_ ∨ at_ + bytes.length ≤ place) :
    store memory at_ bytes place = memory place :=
  copy_outside _ _ at_ _ place outside

/-- What lies beside the stored bytes is kept. -/
theorem Holds.store (holds : Holds memory place rest)
    (apart : place + rest.length ≤ at_ ∨ at_ + bytes.length ≤ place) :
    Holds (store memory at_ bytes) place rest :=
  fun k inside => (store_outside (by lia)).trans (holds k inside)

/-- Bytes that are stored one behind the other. -/
theorem store_store : store (store memory at_ bytes) (at_ + bytes.length) rest = store memory at_ (bytes ++ rest) := by
  funext address
  by_cases before : address < at_
  · rw [store_outside (Or.inl (by omega)), store_outside (Or.inl before), store_outside (Or.inl before)]
  · obtain ⟨k, rfl⟩ := Nat.exists_eq_add_of_le (Nat.le_of_not_lt before)
    by_cases first : k < bytes.length
    · have inside : k < (bytes ++ rest).length := by
        rw [List.length_append]
        lia
      rw [store_outside (Or.inl (by omega)), holds_store k first, holds_store k inside, List.getD_append _ _ _ _ first]
    · obtain ⟨j, rfl⟩ := Nat.exists_eq_add_of_le (Nat.le_of_not_lt first)
      by_cases second : j < rest.length
      · have inside : bytes.length + j < (bytes ++ rest).length := by
          rw [List.length_append]
          lia
        rw [holds_store _ inside, ← Nat.add_assoc, holds_store j second,
          List.getD_append_right _ _ _ _ (Nat.le_add_right _ _), Nat.add_sub_cancel_left]
      · have outside : at_ + (bytes ++ rest).length ≤ at_ + (bytes.length + j) := by
          rw [List.length_append]
          lia
        rw [store_outside (Or.inr outside), store_outside (Or.inr (by lia)), store_outside (Or.inr (by lia))]

theorem holds_append : Holds memory at_ (bytes ++ rest) ↔
    Holds memory at_ bytes ∧ Holds memory (at_ + bytes.length) rest := by
  constructor
  · intro holds
    constructor
    · intro k inside
      rw [holds k (by rw [List.length_append]; omega), List.getD_append _ _ _ _ inside]
    · intro k inside
      rw [Nat.add_assoc, holds (bytes.length + k) (by rw [List.length_append]; omega),
        List.getD_append_right _ _ _ _ (Nat.le_add_right _ _), Nat.add_sub_cancel_left]
  · rintro ⟨first, second⟩ k inside
    rw [List.length_append] at inside
    by_cases before : k < bytes.length
    · rw [List.getD_append _ _ _ _ before, first k before]
    · have behind := second (k - bytes.length) (by omega)
      rw [Nat.add_assoc, Nat.add_sub_cancel' (by omega)] at behind
      rw [List.getD_append_right _ _ _ _ (by omega), behind]

theorem holds_cons {byte : UInt8} : Holds memory at_ (byte :: rest) ↔ memory at_ = byte ∧ Holds memory (at_ + 1) rest := by
  have whole := @holds_append memory at_ [byte] rest
  have first : Holds memory at_ [byte] ↔ memory at_ = byte := by
    constructor
    · exact fun holds => holds 0 Nat.one_pos
    · intro same k inside
      obtain rfl := Nat.lt_one_iff.mp inside
      exact same
  rw [first] at whole
  exact whole

theorem length_bytesAt : (bytesAt memory at_ count).length = count := by
  unfold bytesAt
  rw [List.length_map, List.length_range]

theorem bytesAt_eq (holds : Holds memory at_ bytes) (enough : count ≤ bytes.length) :
    bytesAt memory at_ count = bytes.take count := by
  apply List.ext_getElem
  · rw [length_bytesAt, List.length_take]
    lia
  · intro k inside _
    have isByte : (bytesAt memory at_ count)[k] = memory (at_ + k) := by simp [bytesAt]
    rw [length_bytesAt] at inside
    rw [isByte, List.getElem_take, holds k (by lia), List.getD_eq_getElem _ _ (by omega)]

end Bytes

end Xinu.StoredBytes
