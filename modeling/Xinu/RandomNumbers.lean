import Xinu.CIntegers

/-!
# Random numbers

`rand` replaces `randx` by a linear function of it modulo `2 ^ 32`. Taken twice, such a function is again linear;
doubling its coefficients thirty-two times shows that all values of `randx` lie on one cycle.
-/

namespace Xinu.RandomNumbers

/-- `rand`: the number that is returned, and `randx`. -/
def rand (randx : UInt32) : UInt32 × UInt32 :=
  let randx := randx * 1103515245 + 12345
  ((randx >>> 16) &&& 0o77777, randx)

/-- `randx` after some calls, and the number that the next call returns. -/
def after (seed : UInt32) (calls : Nat) : UInt32 := (fun randx => (rand randx).2)^[calls] seed

def returned (seed : UInt32) (calls : Nat) : UInt32 := (rand (after seed calls)).1

/-- The coefficients of a linear function, when it is taken twice, and so on. -/
def leap : Nat → UInt32 × UInt32
  | 0 => (1103515245, 12345)
  | count + 1 =>
    let (factor, term) := leap count
    (factor * factor, factor * term + term)

section Cycle

variable {seed value : UInt32}

theorem after_add (first second : Nat) : after seed (first + second) = after (after seed second) first :=
  Function.iterate_add_apply _ first second seed

theorem after_two_pow (seed : UInt32) (count : Nat) :
    after seed (2 ^ count) = (leap count).1 * seed + (leap count).2 := by
  induction count generalizing seed with
  | zero => exact congrArg (· + 12345) (UInt32.mul_comm seed 1103515245)
  | succ count inductionHypothesis =>
    have coefficients : leap (count + 1) =
        ((leap count).1 * (leap count).1, (leap count).1 * (leap count).2 + (leap count).2) := rfl
    rw [pow_succ, Nat.mul_two, after_add, inductionHypothesis, inductionHypothesis, coefficients, UInt32.mul_add,
      UInt32.mul_assoc, UInt32.add_assoc]

/-- `randx` comes back after `2 ^ 32` calls and not earlier. -/
theorem minimalPeriod_eq (seed : UInt32) : Function.minimalPeriod (fun randx => (rand randx).2) seed = 2 ^ 32 := by
  refine Function.minimalPeriod_eq_prime_pow (fun half => ?_) ?_
  · have coefficients : leap 31 = (1, 0x80000000) := by decide +kernel
    have moved : after seed (2 ^ 31) = seed + 0x80000000 := by
      rw [after_two_pow, coefficients, UInt32.one_mul]
    have fixed : seed + 0x80000000 = seed + 0 := (moved.symm.trans half).trans (UInt32.add_zero seed).symm
    exact absurd ((UInt32.add_right_inj seed).mp fixed) (by decide)
  · have coefficients : leap 32 = (1, 0) := by decide +kernel
    show after seed (2 ^ 32) = seed
    rw [after_two_pow, coefficients, UInt32.one_mul, UInt32.add_zero]

/-- The number that is returned is made of fifteen bits of `randx`. -/
theorem toNat_rand (randx : UInt32) : (rand randx).1.toNat = (rand randx).2.toNat / 65536 % 32768 := by
  have mask : (0o77777 : UInt32).toNat = 2 ^ 15 - 1 := by decide
  have shift : (16 : UInt32).toNat % 32 = 16 := by decide
  show (((rand randx).2 >>> 16) &&& 0o77777).toNat = _
  rw [UInt32.toNat_and, mask, Nat.and_two_pow_sub_one_eq_mod, UInt32.toNat_shiftRight, shift,
    Nat.shiftRight_eq_div_pow]

/-- A function that takes the numbers below a bound to one another takes as many of them to a property as have it. -/
theorem card_filter_of_injOn {bound : Nat} {function : Nat → Nat} {property : Nat → Prop} [DecidablePred property]
    (injective : Set.InjOn function (Finset.range bound)) (inside : ∀ k, function k < bound) :
    ((Finset.range bound).filter fun k => property (function k)).card = ((Finset.range bound).filter property).card := by
  have onto : (Finset.range bound).image function = Finset.range bound := by
    refine Finset.eq_of_subset_of_card_le (Finset.image_subset_iff.mpr fun k _ => Finset.mem_range.mpr (inside k)) ?_
    rw [Finset.card_image_of_injOn injective]
  conv_rhs => rw [← onto, Finset.filter_image]
  exact (Finset.card_image_of_injOn (injective.mono fun k member => (Finset.mem_filter.mp member).1)).symm

/-- The values with fifteen given bits in the middle. -/
theorem card_middle (middle : Nat) (small : middle < 32768) :
    ((Finset.range (2 ^ 32)).filter fun randx => randx / 65536 % 32768 = middle).card = 2 ^ 17 := by
  rw [← Finset.card_range (2 ^ 17)]
  refine Finset.card_nbij' (fun randx => randx / 2147483648 * 65536 + randx % 65536)
    (fun k => k / 65536 * 2147483648 + middle * 65536 + k % 65536) ?_ ?_ ?_ ?_
  · intro randx inside
    simp only [Finset.coe_filter, Finset.mem_range, Set.mem_ofPred_eq, Finset.coe_range, Set.mem_Iio] at inside ⊢
    omega
  · intro k inside
    simp only [Finset.coe_filter, Finset.mem_range, Set.mem_ofPred_eq, Finset.coe_range, Set.mem_Iio] at inside ⊢
    omega
  · intro randx inside
    simp only [Finset.coe_filter, Finset.mem_range, Set.mem_ofPred_eq] at inside ⊢
    lia
  · intro k inside
    simp only [Finset.coe_range, Set.mem_Iio] at inside ⊢
    omega

end Cycle

/-- After any seed, `randx` comes back only after multiples of `2 ^ 32` calls, and among any `2 ^ 32` calls in a row
each of the numbers up to 32767 is returned equally often. -/
theorem numbers_are_equally_frequent (seed : UInt32) :
    (∀ calls, after seed calls = seed ↔ 2 ^ 32 ∣ calls) ∧
      ∀ start value, value < 32768 → ((Finset.range (2 ^ 32)).filter fun calls =>
        (returned seed (start + calls)).toNat = value).card = 2 ^ 17 := by
  refine ⟨fun calls => ?_, fun start value small => ?_⟩
  · rw [← minimalPeriod_eq seed]
    exact Function.isPeriodicPt_iff_minimalPeriod_dvd
  · have cycle : ∀ calls, (rand (after seed (start + calls))).2 = after (after seed (start + 1)) calls := by
      intro calls
      rw [← after_add, Nat.add_comm calls, Nat.add_assoc, Nat.add_comm 1, ← Nat.add_assoc]
      exact (Function.iterate_succ_apply' (fun randx => (rand randx).2) (start + calls) seed).symm
    have injective : Set.InjOn (fun calls => (after (after seed (start + 1)) calls).toNat) (Finset.range (2 ^ 32)) := by
      intro first isFirst second isSecond same
      refine Function.iterate_injOn_Iio_minimalPeriod ?_ ?_ (UInt32.toNat_inj.mp same)
      · rw [minimalPeriod_eq]
        exact Finset.mem_range.mp isFirst
      · rw [minimalPeriod_eq]
        exact Finset.mem_range.mp isSecond
    have inside : ∀ calls, (after (after seed (start + 1)) calls).toNat < 2 ^ 32 := fun _ => UInt32.toNat_lt _
    have counted := @card_filter_of_injOn _ _ (fun randx => randx / 65536 % 32768 = value) _ injective inside
    rw [← card_middle value small, ← counted]
    refine congrArg Finset.card (Finset.filter_congr fun calls _ => ?_)
    unfold returned
    rw [toNat_rand, cycle]

end Xinu.RandomNumbers
