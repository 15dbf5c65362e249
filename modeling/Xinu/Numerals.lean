import Mathlib

/-!
# Numerals

A number is written in some base with its highest digit first and no leading zero; the number zero is
the digit zero. Programs find the digits from the lowest one on, in a fixed number of places, and drop
the zeros in front.

A character is its code.
-/

namespace Xinu.Numerals

/-- The code of a character. -/
def code (c : Char) : UInt8 := UInt8.ofNat c.toNat

/-- The characters of the digits below sixteen. -/
def glyph (digit : Nat) : UInt8 := ("0123456789abcdef".toList.map code).getD digit 0

/-- With capital letters. -/
def capitalGlyph (digit : Nat) : UInt8 := ("0123456789ABCDEF".toList.map code).getD digit 0

/-- The digits of a number, the highest first. -/
def numeral (base n : Nat) : List Nat := if n = 0 then [0] else (Nat.digits base n).reverse

/-- Some low digits of a number, the lowest first. -/
def lowDigits (base : Nat) : Nat → Nat → List Nat
  | 0, _ => []
  | count + 1, n => n % base :: lowDigits base count (n / base)

/-- The same of an integer, with divisions that round down. -/
def intDigits (base : Nat) : Nat → Int → List Nat
  | 0, _ => []
  | count + 1, z => (z % base).toNat :: intDigits base count (z / base)

section Digits

variable {base count n : Nat} {z : Int}

theorem numeral_ne_nil : numeral base n ≠ [] := by
  unfold numeral
  split
  case isTrue => simp
  case isFalse nonzero => simpa [Nat.digits_eq_nil_iff_eq_zero] using nonzero

/-- A numeral of more than one digit does not begin with a zero. -/
theorem numeral_head (long : 1 < (numeral base n).length) : (numeral base n).head? ≠ some 0 := by
  unfold numeral at long ⊢
  split
  case isTrue zero =>
    rw [if_pos zero] at long
    exact absurd long (by decide)
  case isFalse nonzero =>
    have last := Nat.getLast_digit_ne_zero base nonzero
    rw [List.head?_reverse, List.getLast?_eq_getLast_of_ne_nil (Nat.digits_ne_nil_iff_ne_zero.mpr nonzero)]
    exact fun zero => last (Option.some.inj zero)

/-- The digits of a numeral are below the base. -/
theorem numeral_lt (big : 1 < base) {digit : Nat} (member : digit ∈ numeral base n) : digit < base := by
  unfold numeral at member
  split at member
  case isTrue =>
    obtain rfl := List.mem_singleton.mp member
    omega
  case isFalse => exact Nat.digits_lt_base big (List.mem_reverse.mp member)

/-- A numeral has the value of its number. -/
theorem ofDigits_numeral (base n : Nat) : Nat.ofDigits base (numeral base n).reverse = n := by
  unfold numeral
  split
  case isTrue zero =>
    rw [zero]
    rfl
  case isFalse => rw [List.reverse_reverse, Nat.ofDigits_digits]

/-- The value, read from the highest digit on. -/
theorem foldl_numeral (base n : Nat) : (numeral base n).foldl (fun value digit => base * value + digit) 0 = n := by
  have value := ofDigits_numeral base n
  rw [Nat.ofDigits_eq_foldr, List.foldr_reverse] at value
  simpa [Nat.add_comm] using value

/-- A number below a power of the base has as many digits as the exponent at most. -/
theorem numeral_length_le (big : 1 < base) (some_ : 0 < count) (below : n < base ^ count) :
    (numeral base n).length ≤ count := by
  unfold numeral
  split
  case isTrue => exact some_
  case isFalse =>
    rw [List.length_reverse]
    exact (Nat.digits_length_le_iff big n).mpr below

theorem lowDigits_length : (lowDigits base count n).length = count := by
  induction count generalizing n with
  | zero => rfl
  | succ count inductionHypothesis => rw [lowDigits, List.length_cons, inductionHypothesis]

/-- The low digits are those of the number and zeros. -/
theorem lowDigits_eq (big : 1 < base) (below : n < base ^ count) :
    ∃ zeros, lowDigits base count n = Nat.digits base n ++ List.replicate zeros 0 := by
  induction count generalizing n with
  | zero =>
    obtain rfl : n = 0 := by simpa using below
    exact ⟨0, by simp [lowDigits]⟩
  | succ count inductionHypothesis =>
    have quotient : n / base < base ^ count := Nat.div_lt_of_lt_mul (by rwa [Nat.pow_succ'] at below)
    obtain ⟨zeros, rest⟩ := inductionHypothesis quotient
    rcases Nat.eq_zero_or_pos n with rfl | positive
    · refine ⟨zeros + 1, ?_⟩
      rw [lowDigits, rest]
      simp [List.replicate_succ]
    · refine ⟨zeros, ?_⟩
      rw [lowDigits, rest, Nat.digits_def' big positive, List.cons_append]

/-- Only the number below a power of the base matters. -/
theorem lowDigits_mod : lowDigits base count (n % base ^ count) = lowDigits base count n := by
  induction count generalizing n with
  | zero => rfl
  | succ count inductionHypothesis =>
    rw [lowDigits, lowDigits, Nat.pow_succ', Nat.mod_mul_right_div_self, inductionHypothesis,
      Nat.mod_mul_right_mod]

theorem lowDigits_succ (base count n : Nat) :
    lowDigits base (count + 1) n = lowDigits base count n ++ [n / base ^ count % base] := by
  induction count generalizing n with
  | zero => simp [lowDigits]
  | succ count inductionHypothesis =>
    rw [lowDigits, inductionHypothesis, lowDigits, List.cons_append, Nat.div_div_eq_div_mul, Nat.pow_succ']

/-- The highest digit of a numeral with a known number of digits, and the others. -/
theorem numeral_eq (big : 1 < base) (above : base ^ count ≤ n) (below : n < base ^ (count + 1)) :
    numeral base n = n / base ^ count :: (lowDigits base count n).reverse := by
  have positive : 0 < base ^ count := Nat.pow_pos (by omega)
  obtain ⟨zeros, digits⟩ := lowDigits_eq big below
  have length : count < (Nat.digits base n).length := (Nat.lt_digits_length_iff big n).mpr above
  have total := congrArg List.length digits
  rw [lowDigits_length, List.length_append, List.length_replicate] at total
  obtain rfl : zeros = 0 := by lia
  rw [List.replicate_zero, List.append_nil] at digits
  have first : n / base ^ count < base := Nat.div_lt_of_lt_mul (by rwa [Nat.pow_succ] at below)
  unfold numeral
  rw [if_neg (by omega), ← digits, lowDigits_succ, List.reverse_append, Nat.mod_eq_of_lt first]
  rfl

theorem intDigits_succ (base count : Nat) (z : Int) :
    intDigits base (count + 1) z = intDigits base count z ++ [(z / (base ^ count : Nat) % base).toNat] := by
  induction count generalizing z with
  | zero => simp [intDigits]
  | succ count inductionHypothesis =>
    rw [intDigits, inductionHypothesis, intDigits, List.cons_append, Int.ediv_ediv_of_nonneg (Int.natCast_nonneg base),
      Nat.pow_succ', Int.natCast_mul]

/-- The digits of an integer are those of its remainder. -/
theorem intDigits_eq (some_ : 0 < base) (count : Nat) (z : Int) :
    intDigits base count z = lowDigits base count (z % (base ^ count : Nat)).toNat := by
  induction count generalizing z with
  | zero => rfl
  | succ count inductionHypothesis =>
    have positive : (0 : Int) < (base ^ (count + 1) : Nat) := by
      exact_mod_cast Nat.pow_pos some_
    have low : (z % (base ^ (count + 1) : Nat)).toNat % base = (z % base).toNat := by
      have nonneg := Int.emod_nonneg z (Int.ne_of_gt positive)
      apply Int.ofNat_inj.mp
      rw [Int.natCast_mod, Int.toNat_of_nonneg nonneg,
        Int.toNat_of_nonneg (Int.emod_nonneg z (by exact_mod_cast Nat.ne_of_gt some_))]
      exact Int.emod_emod_of_dvd z (by exact_mod_cast dvd_pow_self base (Nat.succ_ne_zero count))
    have high : (z % (base ^ (count + 1) : Nat)).toNat / base = (z / base % (base ^ count : Nat)).toNat := by
      have nonneg := Int.emod_nonneg z (Int.ne_of_gt positive)
      have other := Int.emod_nonneg (z / base) (show ((base ^ count : Nat) : Int) ≠ 0 by
        exact_mod_cast Nat.ne_of_gt (Nat.pow_pos some_))
      apply Int.ofNat_inj.mp
      rw [Int.natCast_div, Int.toNat_of_nonneg nonneg, Int.toNat_of_nonneg other]
      have whole := Int.emod_def z (base ^ (count + 1) : Nat)
      have part := Int.emod_def (z / base) (base ^ count : Nat)
      rw [whole, part, Nat.pow_succ', Int.natCast_mul, ← Int.ediv_ediv_of_nonneg (Int.natCast_nonneg base), Int.mul_assoc,
        Int.sub_mul_ediv_left _ _ (by exact_mod_cast Nat.ne_of_gt some_)]
    rw [intDigits, lowDigits, inductionHypothesis, low, high]

end Digits

end Xinu.Numerals
