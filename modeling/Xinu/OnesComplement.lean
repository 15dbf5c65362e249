import Mathlib

/-!
# Ones-complement sums

The ones-complement sum of words of 16 bits takes every carry in at the other end. It is the remainder of
the plain sum modulo `2 ^ 16 - 1`, where a sum that is not zero has no remainder zero. The plain sum may
as well be taken in a longer word first. Its high half is then added to its low half, and that is all
where no carry comes of it; a second carry has to be added, too.
-/

namespace Xinu.OnesComplement

/-- Two words with the carry taken in. -/
def add (left right : Nat) : Nat := (left + right) % 65536 + (left + right) / 65536

def sum (words : List Nat) : Nat := words.foldl add 0

/-- The complement of the sum of words. -/
def checksum (words : List Nat) : Nat := 65535 - sum words

/-- The high half of a sum is added to its low half, and a carry is dropped. -/
def fold (total : Nat) : Nat := (total % 65536 + total / 65536) % 65536

variable {words : List Nat} {total : Nat}

theorem add_eq {left right : Nat} (leftWord : left < 65536) (rightWord : right < 65536) :
    add left right < 65536 ∧ add left right % 65535 = (left + right) % 65535 ∧
      (add left right = 0 ↔ left + right = 0) := by
  unfold add
  lia

/-- The sum is a word with the remainder of the plain sum, and zero only for zeros. -/
theorem sum_eq (areWords : ∀ word ∈ words, word < 65536) :
    sum words < 65536 ∧ sum words % 65535 = words.sum % 65535 ∧ (sum words = 0 ↔ words.sum = 0) := by
  have runs : ∀ (words : List Nat) (start : Nat), (∀ word ∈ words, word < 65536) → start < 65536 →
      words.foldl add start < 65536 ∧ words.foldl add start % 65535 = (start + words.sum) % 65535 ∧
        (words.foldl add start = 0 ↔ start + words.sum = 0) := by
    intro words
    induction words with
    | nil => exact fun start _ isWord => ⟨isWord, rfl, Iff.rfl⟩
    | cons word words inductionHypothesis =>
      intro start areWords isWord
      obtain ⟨next, remainder, zero⟩ := add_eq isWord (areWords word List.mem_cons_self)
      obtain ⟨last, same, none_⟩ :=
        inductionHypothesis (add start word) (fun other member => areWords other (List.mem_cons_of_mem _ member)) next
      rw [List.foldl_cons, List.sum_cons]
      refine ⟨last, ?_, ?_⟩
      · rw [same, Nat.add_mod, remainder, ← Nat.add_mod, Nat.add_assoc]
      · rw [none_]
        lia
  have whole := runs words 0 areWords (by decide)
  rwa [Nat.zero_add] at whole

/-- One folding is enough just when it has no carry. -/
theorem fold_eq_iff (areWords : ∀ word ∈ words, word < 65536) (small : words.sum < 65536 * 65536) :
    fold words.sum = sum words ↔ words.sum % 65536 + words.sum / 65536 < 65536 := by
  obtain ⟨isWord, remainder, zero⟩ := sum_eq areWords
  unfold fold
  constructor
  · intro same
    by_contra carry
    lia
  · intro noCarry
    rw [Nat.mod_eq_of_lt noCarry]
    lia

theorem fold_halves {high low : Nat} (lowWord : low < 65536) :
    fold (65536 * high + low) = (low + high) % 65536 := by
  have lowHalf : (65536 * high + low) % 65536 = low := by lia
  have highHalf : (65536 * high + low) / 65536 = high := by lia
  unfold fold
  rw [lowHalf, highHalf]

/-- With its complement the sum folds to ones or, after a second carry, to zero. -/
theorem fold_add_complement (small : total < 65536 * 65535) :
    fold (total + (65535 - fold total)) = if total % 65536 + total / 65536 < 65536 then 65535 else 0 := by
  obtain ⟨high, low, lowWord, rfl⟩ : ∃ high low, low < 65536 ∧ total = 65536 * high + low :=
    ⟨total / 65536, total % 65536, Nat.mod_lt _ (by decide), (Nat.div_add_mod total 65536).symm⟩
  have lowHalf : (65536 * high + low) % 65536 = low := by omega
  have highHalf : (65536 * high + low) / 65536 = high := by omega
  rw [fold_halves lowWord, lowHalf, highHalf]
  by_cases noCarry : low + high < 65536
  · have complement : 65536 * high + low + (65535 - (low + high) % 65536) = 65536 * high + (65535 - high) := by
      rw [Nat.mod_eq_of_lt noCarry]
      lia
    rw [if_pos noCarry, complement, fold_halves (by omega)]
    lia
  · have complement :
        65536 * high + low + (65535 - (low + high) % 65536) = 65536 * (high + 1) + (65535 - high) := by
      rw [Nat.mod_eq_sub_mod (by lia), Nat.mod_eq_of_lt (by lia)]
      omega
    rw [if_neg noCarry, complement, fold_halves (by omega)]
    lia

end Xinu.OnesComplement
