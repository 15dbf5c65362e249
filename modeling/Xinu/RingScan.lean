import Mathlib

/-!
# Scanning a ring

The places of a table are tried one after the other, from some place on and around the end, until one
is free. As many tries as there are places find a free one just when there is one.
-/

namespace Xinu.RingScan

variable {free : Nat → Bool} {size turns next : Nat}

/-- The first of some consecutive places that is free. -/
def scan (free : Nat → Bool) (size : Nat) : Nat → Nat → Option Nat
  | 0, _ => none
  | turns + 1, next => if free (next % size) then some (next % size) else scan free size turns (next + 1)

/-- Only the place on the ring matters. -/
theorem scan_mod (free : Nat → Bool) (size turns next : Nat) :
    scan free size turns (next % size) = scan free size turns next := by
  induction turns generalizing next with
  | zero => rfl
  | succ turns inductionHypothesis =>
    rw [scan, scan, Nat.mod_mod, ← inductionHypothesis (next % size + 1), ← inductionHypothesis (next + 1),
      Nat.mod_add_mod]

theorem scan_none_iff : scan free size turns next = none ↔ ∀ i < turns, free ((next + i) % size) = false := by
  induction turns generalizing next with
  | zero => simp [scan]
  | succ turns inductionHypothesis =>
    unfold scan
    split
    case isTrue here =>
      refine iff_of_false (by simp) fun nowhere => ?_
      have first := nowhere 0 (Nat.succ_pos turns)
      rw [Nat.add_zero, here] at first
      cases first
    case isFalse notHere =>
      rw [inductionHypothesis]
      constructor
      · intro later i small
        cases i with
        | zero => simpa using notHere
        | succ i =>
          have here := later i (by omega)
          rwa [show next + 1 + i = next + (i + 1) by lia] at here
      · intro nowhere i small
        have here := nowhere (i + 1) (by omega)
        rwa [show next + (i + 1) = next + 1 + i by lia] at here

/-- A scan of the whole ring fails just when no place is free. -/
theorem scan_ring_none_iff (some_ : 0 < size) :
    scan free size size next = none ↔ ∀ place < size, free place = false := by
  rw [scan_none_iff]
  constructor
  · intro nowhere place inRing
    have start : next % size < size := Nat.mod_lt next some_
    have here := nowhere ((place + (size - next % size)) % size) (Nat.mod_lt _ some_)
    have same : (next + (place + (size - next % size)) % size) % size = place := by
      have whole := Nat.div_add_mod next size
      have sum : next + (place + (size - next % size)) = place + size * (next / size + 1) := by
        rw [Nat.mul_add]
        lia
      rw [Nat.add_mod_mod, sum, Nat.add_mul_mod_self_left, Nat.mod_eq_of_lt inRing]
    rwa [same] at here
  · exact fun nowhere i _ => nowhere _ (Nat.mod_lt _ some_)

end Xinu.RingScan
