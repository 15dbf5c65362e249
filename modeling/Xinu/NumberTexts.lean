import Xinu.Formatting

/-!
# The texts of numbers

Each conversion fills `temp` with the low digits of its number and drops the zeros, so that what it
writes is the numeral with a null behind. The sign of a word is dealt with in three ways. `%d` divides
the absolute value; `%o`, `%x` and `%b` shift the word with its sign, and the digits that they look at
are those of the unsigned word, but for one bit of the last octal digit, which is masked off; `%u`
divides what is left of the word after some thousand millions were taken off, and adds them to the first
digit.
-/

namespace Xinu.Formatting

open Numerals

section Trimming

variable {temp : List UInt8} {count base n : Nat} {g : Nat → UInt8}

/-- Zeros on the left are passed over. -/
theorem top_zeros (front : List UInt8) (zeros : Nat) :
    top (0 :: (front ++ List.replicate zeros (code '0'))) (front.length + zeros) =
      top (0 :: (front ++ List.replicate zeros (code '0'))) front.length := by
  have passed : ∀ k ≤ zeros, top (0 :: (front ++ List.replicate zeros (code '0'))) (front.length + k) =
      top (0 :: (front ++ List.replicate zeros (code '0'))) front.length := by
    intro k few
    induction k with
    | zero => rfl
    | succ k inductionHypothesis =>
      have isZero : (0 :: (front ++ List.replicate zeros (code '0'))).getD (front.length + k + 1) 0 = code '0' := by
        rw [List.getD_cons_succ, List.getD_append_right _ _ _ _ (Nat.le_add_right _ _), Nat.add_sub_cancel_left,
          List.getD_replicate _ (by omega)]
      rw [← Nat.add_assoc, top, if_pos isZero]
      exact inductionHypothesis (by omega)
  exact passed zeros (le_refl zeros)

/-- What is left of the digits is the numeral. -/
theorem prtl_eq (big : 1 < base) (some_ : 0 < count) (below : n < base ^ count)
    (glyphs : ∀ digit < base, g digit = code '0' ↔ digit = 0) :
    prtl ((lowDigits base count n).map g) = (numeral base n).map g ++ [0] := by
  obtain ⟨zeros, digits⟩ := lowDigits_eq big below
  have zero : g 0 = code '0' := (glyphs 0 (by omega)).mpr rfl
  have texts : (lowDigits base count n).map g = (Nat.digits base n).map g ++ List.replicate zeros (code '0') := by
    rw [digits, List.map_append, List.map_replicate, zero]
  have length : ((lowDigits base count n).map g).length = ((Nat.digits base n).map g).length + zeros := by
    rw [texts, List.length_append, List.length_replicate]
  unfold prtl
  dsimp only
  rw [length, texts, top_zeros]
  rcases Nat.eq_zero_or_pos n with rfl | positive
  · obtain ⟨more, rfl⟩ : ∃ more, zeros = more + 1 := by
      have total : zeros = count := by
        have := congrArg List.length digits
        simpa [lowDigits_length] using this.symm
      exact ⟨zeros - 1, by lia⟩
    simp [numeral, top, zero, List.replicate_succ]
  · have notEmpty : (Nat.digits base n) ≠ [] := Nat.digits_ne_nil_iff_ne_zero.mpr (Nat.ne_of_gt positive)
    obtain ⟨front, last, parts⟩ : ∃ front last, Nat.digits base n = front ++ [last] :=
      ⟨_, _, (List.dropLast_append_getLast notEmpty).symm⟩
    have lastDigit : last ≠ 0 := by
      have := Nat.getLast_digit_ne_zero base (Nat.ne_of_gt positive)
      simpa [parts] using this
    have lastBelow : last < base := Nat.digits_lt_base big (m := n) (by simp [parts])
    have notZero : g last ≠ code '0' := fun isZero => lastDigit ((glyphs last lastBelow).mp isZero)
    have here : top (0 :: ((Nat.digits base n).map g ++ List.replicate zeros (code '0')))
        ((Nat.digits base n).map g).length = front.length + 1 := by
      rw [parts]
      simp [top, notZero]
    rw [here, if_neg (Nat.succ_ne_zero _)]
    unfold numeral
    rw [if_neg (Nat.ne_of_gt positive), parts]
    simp [List.take_append]

/-- The digits that the loop finds. -/
theorem fill_eq {good : Int32 → Prop} {digit : Int32 → UInt8} {next : Int32 → Int32} {num : Int32}
    (isDigit : ∀ num, good num → digit num = g (num.toInt % base).toNat)
    (onward : ∀ num, good num → good (next num) ∧ (next num).toInt = num.toInt / base) (start : good num) (count : Nat) :
    fill digit next count num = (intDigits base count num.toInt).map g := by
  induction count generalizing num with
  | zero => rfl
  | succ count inductionHypothesis =>
    obtain ⟨later, quotient⟩ := onward num start
    rw [fill, intDigits, List.map_cons, isDigit num start, inductionHypothesis later, quotient]

end Trimming

section Words

variable {num : Int32}

/-- The signed and the unsigned reading of a word. -/
theorem toInt_eq (num : Int32) : num.toInt =
    if 2 * num.toUInt32.toNat < 2 ^ 32 then (num.toUInt32.toNat : Int) else num.toUInt32.toNat - (2 ^ 32 : Nat) :=
  BitVec.toInt_eq_toNat_cond num.toBitVec

theorem emod_eq {base : Nat} (divides : base ∣ 2 ^ 32) : (num.toInt % base).toNat = num.toUInt32.toNat % base := by
  obtain ⟨rest, whole⟩ := divides
  rw [toInt_eq]
  split
  · rfl
  · rw [whole, Int.natCast_mul, Int.sub_mul_emod_self_left]
    rfl

theorem toInt_shiftRight {k : Int32} {n : Nat} (amount : (BitVec.smod k.toBitVec 32).toNat = n) :
    (num >>> k).toInt = num.toInt / (2 ^ n : Nat) := by
  have shifted : (num >>> k).toInt = (num.toBitVec.sshiftRight n).toInt := by
    rw [← amount]
    rfl
  rw [shifted, BitVec.toInt_sshiftRight, Int.shiftRight_eq_div_pow]
  rfl

/-- The low bits of a word. -/
theorem toNat_mask {mask : Int32} {k : Nat} (bits : mask.toUInt32.toNat = 2 ^ k - 1) :
    (num &&& mask).toUInt32.toNat = num.toUInt32.toNat % 2 ^ k := by
  have both : (num &&& mask).toUInt32.toNat = num.toUInt32.toNat &&& mask.toUInt32.toNat := rfl
  rw [both, bits, Nat.and_two_pow_sub_one_eq_mod]

theorem glyph_zero_iff : ∀ digit < 16, glyph digit = code '0' ↔ digit = 0 := by decide

theorem capitalGlyph_zero_iff : ∀ digit < 16, capitalGlyph digit = code '0' ↔ digit = 0 := by decide

end Words

section Texts

variable {num : Int32}

/-- A word kept in a `char` after `'0'` was added. -/
theorem toChar_add_zero {value : Int32} (small : value.toUInt32.toNat < 10) :
    toChar (value + 48) = glyph value.toUInt32.toNat := by
  have sum : (value + 48).toUInt32.toNat = value.toUInt32.toNat + 48 := by
    have whole : (value + 48).toUInt32.toNat = (value.toUInt32.toNat + 48) % 2 ^ 32 := rfl
    lia
  have table : ∀ digit < 10, UInt8.ofNat (digit + 48) = glyph digit := by decide
  rw [← table _ small, ← sum]
  rfl

/-- `_prtl10` of a word that is not negative. -/
theorem prtl10_eq (nonneg : 0 ≤ num.toInt) :
    prtl10 num = (numeral 10 num.toInt.toNat).map glyph ++ [0] := by
  have isDigit : ∀ num : Int32, 0 ≤ num.toInt → toChar (num % 10 + 48) = glyph (num.toInt % (10 : Nat)).toNat := by
    intro num nonneg
    have remainder : (num % 10).toInt = num.toInt % 10 := by
      rw [Int32.toInt_mod, Int.tmod_eq_emod_of_nonneg nonneg]
      rfl
    have signed := toInt_eq (num % 10)
    have below := (num % 10).toUInt32.toNat_lt
    have same : (num % 10).toUInt32.toNat = (num.toInt % (10 : Nat)).toNat := by
      split at signed <;> lia
    rw [← same]
    exact toChar_add_zero (by lia)
  have onward : ∀ num : Int32, 0 ≤ num.toInt → 0 ≤ (num / 10).toInt ∧ (num / 10).toInt = num.toInt / (10 : Nat) := by
    intro num nonneg
    have quotient : (num / 10).toInt = num.toInt / (10 : Nat) := by
      rw [Int32.toInt_div_of_ne_right _ _ (by decide), Int.tdiv_eq_ediv_of_nonneg nonneg]
      rfl
    exact ⟨by lia, quotient⟩
  have small := Int32.toInt_lt num
  unfold prtl10
  rw [fill_eq isDigit onward nonneg 10, intDigits_eq (by decide), Int.emod_eq_of_lt nonneg (by omega)]
  exact prtl_eq (by decide) (by decide) (by omega) fun digit below => glyph_zero_iff digit (by omega)

/-- The digits that a loop finds in a word with its sign. -/
theorem fill_shift {base bits : Nat} {g : Nat → UInt8} {digit : Int32 → UInt8} {amount : Int32}
    (isBase : base = 2 ^ bits) (divides : base ∣ 2 ^ 32) (places : (BitVec.smod amount.toBitVec 32).toNat = bits)
    (isDigit : ∀ num : Int32, digit num = g (num.toUInt32.toNat % base)) (count : Nat) :
    fill digit (fun num => num >>> amount) count num = (intDigits base count num.toInt).map g := by
  refine @fill_eq base g (fun _ => True) _ _ num (fun num _ => ?_) (fun num _ => ⟨trivial, ?_⟩) trivial count
  · rw [emod_eq divides]
    exact isDigit num
  · rw [isBase]
    exact toInt_shiftRight places

/-- The digits of a word are those of its unsigned reading. -/
theorem intDigits_toInt {base count : Nat} (some_ : 0 < base) (divides : base ^ count ∣ 2 ^ 32) :
    intDigits base count num.toInt = lowDigits base count num.toUInt32.toNat := by
  rw [intDigits_eq some_, emod_eq divides, lowDigits_mod]

theorem nibble_eq (num : Int32) : (num &&& 0x0F).toNatClampNeg = num.toUInt32.toNat % 16 := by
  have low := @toNat_mask num 0x0F 4 rfl
  have signed := toInt_eq (num &&& 0x0F)
  have clamp : (num &&& 0x0F).toNatClampNeg = (num &&& 0x0F).toInt.toNat := rfl
  rw [clamp]
  split at signed <;> lia

/-- `_prtl16`. -/
theorem prtl16_eq (num : Int32) : prtl16 num = (numeral 16 num.toUInt32.toNat).map glyph ++ [0] := by
  unfold prtl16
  rw [@fill_shift _ 16 4 glyph _ 4 (by decide) (by decide) (by decide) (fun num => by rw [nibble_eq]) 8,
    intDigits_toInt (by decide) (by decide)]
  exact prtl_eq (by decide) (by decide) num.toUInt32.toNat_lt glyph_zero_iff

/-- `_prtX16`. -/
theorem prtX16_eq (num : Int32) : prtX16 num = (numeral 16 num.toUInt32.toNat).map capitalGlyph ++ [0] := by
  unfold prtX16
  rw [@fill_shift _ 16 4 capitalGlyph _ 4 (by decide) (by decide) (by decide) (fun num => by rw [nibble_eq]) 8,
    intDigits_toInt (by decide) (by decide)]
  exact prtl_eq (by decide) (by decide) num.toUInt32.toNat_lt capitalGlyph_zero_iff

/-- `_prtl2`. -/
theorem prtl2_eq (num : Int32) : prtl2 num = (numeral 2 num.toUInt32.toNat).map glyph ++ [0] := by
  have isDigit : ∀ num : Int32, (if num % 2 = 0 then code '0' else code '1') = glyph (num.toUInt32.toNat % 2) := by
    intro num
    have even : num % 2 = 0 ↔ num.toUInt32.toNat % 2 = 0 := by
      rw [← Int32.toInt_inj, Int32.toInt_mod, toInt_eq num]
      have remainder : ∀ z : Int, z.tmod (2 : Int32).toInt = (0 : Int32).toInt ↔ z % 2 = 0 := by
        intro z
        exact (Int.dvd_iff_tmod_eq_zero (a := 2)).symm.trans Int.dvd_iff_emod_eq_zero
      rw [remainder]
      split <;> omega
    rcases Nat.mod_two_eq_zero_or_one num.toUInt32.toNat with zero | one
    · rw [if_pos (even.mpr zero), zero]
      rfl
    · rw [if_neg fun isEven => by have := even.mp isEven; lia, one]
      rfl
  unfold prtl2
  rw [@fill_shift _ 2 1 glyph _ 1 (by decide) (by decide) (by decide) isDigit 32, intDigits_toInt (by decide) (by decide)]
  exact prtl_eq (by decide) (by decide) num.toUInt32.toNat_lt fun digit below => glyph_zero_iff digit (by omega)

theorem modify_last {α : Type} {front : List α} {place : Nat} (length : front.length = place) (last : α) (f : α → α) :
    (front ++ [last]).modify place f = front ++ [f last] := by
  subst length
  induction front with
  | nil => rfl
  | cons first front inductionHypothesis => exact congrArg (first :: ·) inductionHypothesis

/-- `_prtl8`: the mask leaves the two bits that the word has there. -/
theorem prtl8_eq (num : Int32) : prtl8 num = (numeral 8 num.toUInt32.toNat).map glyph ++ [0] := by
  have isDigit : ∀ num : Int32, toChar ((num &&& 7) + 48) = glyph (num.toUInt32.toNat % 8) := by
    intro num
    have low := @toNat_mask num 7 3 rfl
    rw [toChar_add_zero (by omega), low]
    rfl
  have found := @fill_shift num 8 3 glyph _ 3 (by decide) (by decide) (by decide) isDigit 11
  have last : (num.toInt / (8 ^ 10 : Nat) % (8 : Nat)).toNat % 4 = num.toUInt32.toNat / 8 ^ 10 := by
    have below := num.toUInt32.toNat_lt
    rw [toInt_eq num]
    split <;> lia
  have masked : ∀ digit < 8, glyph digit &&& code '3' = glyph (digit % 4) := by decide
  have digits : ((intDigits 8 11 num.toInt).map glyph).modify 10 (· &&& code '3') =
      (lowDigits 8 11 num.toUInt32.toNat).map glyph := by
    have front : ((lowDigits 8 10 num.toUInt32.toNat).map glyph).length = 10 := by
      rw [List.length_map, lowDigits_length]
    have high : num.toUInt32.toNat / 8 ^ 10 % 8 = num.toUInt32.toNat / 8 ^ 10 := by
      have below := num.toUInt32.toNat_lt
      lia
    rw [intDigits_succ, lowDigits_succ, intDigits_toInt (by decide) (by decide), List.map_append, List.map_append,
      List.map_singleton, List.map_singleton, modify_last front, masked _ (by lia), last, high]
  unfold prtl8
  rw [found, digits]
  exact prtl_eq (by decide) (by decide) (Nat.lt_trans num.toUInt32.toNat_lt (by decide))
    fun digit below => glyph_zero_iff digit (by lia)

/-- The loop of `%u` ends, and the word is what is left and the thousand millions taken off. -/
theorem lessen_eq (larg : Int32) : ∃ rest count : Nat, (lessen 3 larg 0).1.toInt = rest ∧
    (lessen 3 larg 0).2 = UInt8.ofNat count ∧ larg.toUInt32.toNat = rest + 1000000000 * count ∧ rest < 2 ^ 31 ∧
    (count = 0 ∨ 1000000000 ≤ rest) := by
  have turn : ∀ word : Int32, word < 0 → (word - 1000000000).toUInt32.toNat = word.toUInt32.toNat - 1000000000 ∧
      2 ^ 31 ≤ word.toUInt32.toNat := by
    intro word negative
    have signed := toInt_eq word
    have below := word.toUInt32.toNat_lt
    have isNegative : word.toInt < 0 := Int32.lt_iff_toInt_lt.mp negative
    have difference : (word - 1000000000).toUInt32.toNat = (2 ^ 32 - 1000000000 + word.toUInt32.toNat) % 2 ^ 32 := rfl
    split at signed <;> lia
  have stop : ∀ word : Int32, ¬ word < 0 → word.toInt = word.toUInt32.toNat ∧ word.toUInt32.toNat < 2 ^ 31 := by
    intro word notNegative
    have signed := toInt_eq word
    have below := word.toUInt32.toNat_lt
    have isPositive : ¬ word.toInt < 0 := fun isNegative => notNegative (Int32.lt_iff_toInt_lt.mpr isNegative)
    split at signed <;> lia
  have below := larg.toUInt32.toNat_lt
  unfold lessen
  by_cases first : larg < 0
  · rw [if_pos first]
    obtain ⟨once, large⟩ := turn larg first
    unfold lessen
    by_cases second : larg - 1000000000 < 0
    · rw [if_pos second]
      obtain ⟨twice, larger⟩ := turn _ second
      unfold lessen
      by_cases third : larg - 1000000000 - 1000000000 < 0
      · rw [if_pos third]
        obtain ⟨thrice, largest⟩ := turn _ third
        have notFourth : ¬ larg - 1000000000 - 1000000000 - 1000000000 < 0 := by
          intro fourth
          have := (turn _ fourth).2
          omega
        obtain ⟨same, small⟩ := stop _ notFourth
        exact ⟨_, 3, same, rfl, by lia, small, Or.inr (by lia)⟩
      · rw [if_neg third]
        obtain ⟨same, small⟩ := stop _ third
        exact ⟨_, 2, same, rfl, by lia, small, Or.inr (by lia)⟩
    · rw [if_neg second]
      obtain ⟨same, small⟩ := stop _ second
      exact ⟨_, 1, same, rfl, by lia, small, Or.inr (by lia)⟩
  · rw [if_neg first]
    obtain ⟨same, small⟩ := stop _ first
    exact ⟨_, 0, same, rfl, by lia, small, Or.inl rfl⟩

/-- `%u`. -/
theorem unsignedText_eq (larg : Int32) :
    unsignedText larg = (numeral 10 larg.toUInt32.toNat).map glyph ++ [0] := by
  obtain ⟨rest, count, isRest, isCount, whole, small, large⟩ := lessen_eq larg
  have text := @prtl10_eq (lessen 3 larg 0).1 (by lia)
  unfold unsignedText
  dsimp only
  rw [text, isRest, isCount, Int.toNat_natCast, whole]
  rcases large with rfl | large
  · obtain ⟨first, others, digits⟩ := List.exists_cons_of_ne_nil (@numeral_ne_nil 10 rest)
    rw [Nat.mul_zero, Nat.add_zero, digits]
    simp
  · have below := larg.toUInt32.toNat_lt
    have add : ∀ digit < 3, ∀ more < 4, glyph digit + UInt8.ofNat more = glyph (digit + more) := by decide
    have high : (rest + 1000000000 * count) / 10 ^ 9 = rest / 10 ^ 9 + count := by lia
    have low : lowDigits 10 9 (rest + 1000000000 * count) = lowDigits 10 9 rest := by
      have same : (rest + 1000000000 * count) % 10 ^ 9 = rest % 10 ^ 9 := by lia
      rw [← lowDigits_mod, same, lowDigits_mod]
    rw [@numeral_eq 10 9 rest (by decide) (by omega) (by lia),
      @numeral_eq 10 9 (rest + 1000000000 * count) (by decide) (by lia) (by lia), high, low, List.map_cons, List.map_cons,
      ← add _ (by lia) _ (by lia)]
    rfl

end Texts

end Xinu.Formatting
