import Xinu.Packets
import Xinu.RingBuffer

/-!
# Circular queues of packets

A slot of a table of endpoints has a circular array of packets with a head, a tail and a counter. The
packets that it accepted are those that were removed and those in the queue, in the order of arrival.
-/

namespace Xinu.Packets

open RingBuffer

/-- The packets of a queue from its head on, by their buffers. -/
def queued (queue : Nat → NetPacket) (capacity head count : Nat) : List Nat :=
  (contents queue capacity head count).map NetPacket.buffer

/-- The accepted packets are those that were removed and those between head and tail, as many as the
counter says. -/
def InOrder (capacity : Nat) (queue : Nat → NetPacket) (head tail : Nat) (count : Int)
    (accepted removed : List Nat) : Prop :=
  ∃ length, Ring capacity head tail count length ∧ accepted = removed ++ queued queue capacity head length

section Orders

variable {capacity head tail : Nat} {queue : Nat → NetPacket} {count : Int} {accepted removed : List Nat}

theorem InOrder.bounds (inOrder : InOrder capacity queue head tail count accepted removed) :
    0 ≤ count ∧ count ≤ capacity ∧ head < capacity ∧ tail < capacity := by
  obtain ⟨length, ring, _⟩ := inOrder
  have counted := ring.counted
  have room := ring.room
  exact ⟨by omega, by omega, ring.start, ring.tail_lt⟩

/-- The packets that were not removed are in the queue. -/
theorem InOrder.accepted_eq (inOrder : InOrder capacity queue head tail count accepted removed) :
    accepted = removed ++ queued queue capacity head count.toNat := by
  obtain ⟨length, ring, order⟩ := inOrder
  have counted : count.toNat = length := by
    rw [ring.counted]
    rfl
  rw [order, counted]

/-- The removed packets can be left out. -/
theorem InOrder.remaining (inOrder : InOrder capacity queue head tail count accepted removed) :
    InOrder capacity queue head tail count (queued queue capacity head count.toNat) [] := by
  obtain ⟨length, ring, _⟩ := inOrder
  have counted : count.toNat = length := by
    rw [ring.counted]
    rfl
  exact ⟨length, ring, by rw [counted, List.nil_append]⟩

/-- An empty queue of a slot from which every packet was removed. -/
theorem InOrder.empty (inside : head < capacity) : InOrder capacity queue head head 0 removed removed :=
  ⟨0, ⟨rfl, Nat.zero_le _, inside, (Nat.mod_eq_of_lt inside).symm⟩, (List.append_nil _).symm⟩

/-- A packet is stored behind the others. -/
theorem InOrder.push (inOrder : InOrder capacity queue head tail count accepted removed)
    (space : count < capacity) (pkt : NetPacket) : InOrder capacity (Function.update queue tail pkt) head
      (if capacity ≤ tail + 1 then 0 else tail + 1) (count + 1) (accepted ++ [pkt.buffer]) removed := by
  obtain ⟨length, ring, order⟩ := inOrder
  have counted := ring.counted
  obtain ⟨pushed, stored⟩ := @Ring.push _ queue _ _ _ _ _ pkt ring (by omega)
  refine ⟨length + 1, pushed, ?_⟩
  unfold queued
  rw [stored, List.map_append, ← List.append_assoc, order]
  rfl

/-- The first packet is removed. -/
theorem InOrder.pop (inOrder : InOrder capacity queue head tail count accepted removed) (some_ : 0 < count) :
    InOrder capacity queue (if capacity ≤ head + 1 then 0 else head + 1) tail (count - 1) accepted
      (removed ++ [(queue head).buffer]) := by
  obtain ⟨length, ring, order⟩ := inOrder
  have counted := ring.counted
  obtain ⟨left, rfl⟩ : ∃ left, length = left + 1 := ⟨length - 1, by lia⟩
  obtain ⟨popped, first⟩ := @Ring.pop _ queue _ _ _ _ _ ring
  refine ⟨left, popped, ?_⟩
  rw [order]
  unfold queued
  rw [first, List.map_cons, List.append_assoc]
  rfl

end Orders

end Xinu.Packets
