import Mathlib.Data.List.Basic
import Mathlib.Data.List.Infix
import Mathlib.Tactic.Common

/-!
# Terminated strings

A string argument is the bytes before its terminating NUL. `strncmp` compares two
arrays up to a count or up to a common NUL; a `char` is unsigned on this machine,
so the difference it returns is one of byte values.

The callers compare against a string with the count one above its length. Such a
comparison answers zero exactly when the array starts with the string and its NUL,
so two strings compare equal only when they are equal.
-/

namespace Xinu

/-- A string argument: the bytes before its terminating NUL. -/
structure CString where
  chars : List UInt8
  terminated : 0 ∉ chars
deriving DecidableEq

theorem cstring_ext {left right : CString} (same : left.chars = right.chars) : left = right := by
  cases left
  cases right
  cases same
  rfl

/-- `strncmp` of the library, on arrays that hold at least `n` bytes or a NUL. -/
def strncmp : List UInt8 → List UInt8 → Nat → Int
  | _, _, 0 => 0
  | a :: s1, b :: s2, n + 1 =>
    if a = b then if a = 0 then 0 else strncmp s1 s2 n
    else (a.toNat : Int) - b.toNat
  | _, _, _ + 1 => 0

/-- The bytes of two different values differ in the sense `strncmp` returns. -/
theorem byte_difference (a b : UInt8) (different : a ≠ b) : (a.toNat : Int) - b.toNat ≠ 0 := by
  intro equal
  exact different (UInt8.toNat_inj.mp (by lia))

/-- Comparing against a terminated name up to and including its NUL answers zero
exactly when the array starts with that name and a NUL. -/
theorem strncmp_prefix (array chars : List UInt8) (terminated : 0 ∉ chars)
    (room : chars.length + 1 ≤ array.length) :
    strncmp array (chars ++ [0]) (chars.length + 1) = 0 ↔ chars ++ [0] <+: array := by
  induction chars generalizing array with
  | nil =>
    cases array with
    | nil => simp at room
    | cons a rest =>
      by_cases zero : a = 0
      · simp [strncmp, zero]
      · have nonzero : a.toNat ≠ 0 := fun same => zero (UInt8.toNat_inj.mp same)
        simp [strncmp, zero, nonzero, Ne.symm zero]
  | cons c chars inductionHypothesis =>
    cases array with
    | nil => simp at room
    | cons a rest =>
      have notNul : c ≠ 0 := fun same => terminated (by simp [same])
      have tailTerminated : 0 ∉ chars := fun member => terminated (List.mem_cons_of_mem c member)
      have tailRoom : chars.length + 1 ≤ rest.length := by simpa using room
      by_cases same : a = c
      · subst same
        simpa [strncmp, notNul] using inductionHypothesis rest tailTerminated tailRoom
      · have different := byte_difference a c same
        simp [strncmp, same, different, Ne.symm same]

/-- A terminated prefix is the carried name. -/
theorem takeWhile_terminated (array chars : List UInt8) (terminated : 0 ∉ chars)
    (starts : chars ++ [0] <+: array) :
    array.takeWhile (fun c => decide (c ≠ 0)) = chars := by
  obtain ⟨rest, rfl⟩ := starts
  induction chars with
  | nil => simp
  | cons c chars inductionHypothesis =>
    have notNul : c ≠ 0 := fun same => terminated (by simp [same])
    have tailTerminated : 0 ∉ chars := fun member => terminated (List.mem_cons_of_mem c member)
    simpa [notNul] using inductionHypothesis tailTerminated

/-- The carried name of a terminated array, with its NUL, starts the array. -/
theorem takeWhile_prefix (array : List UInt8) (terminated : 0 ∈ array) :
    array.takeWhile (fun c => decide (c ≠ 0)) ++ [0] <+: array := by
  induction array with
  | nil => simp at terminated
  | cons a rest inductionHypothesis =>
    by_cases zero : a = 0
    · simp [zero]
    · have later : 0 ∈ rest := by simpa [Ne.symm zero] using terminated
      simpa [zero] using inductionHypothesis later

/-- Two strings compare equal exactly when they are equal.

Induct over both. A position where one has ended and the other has not compares a
NUL with a byte that is none. -/
theorem strncmp_chars (left right : List UInt8) (leftTerminated : 0 ∉ left)
    (rightTerminated : 0 ∉ right) :
    strncmp (left ++ [0]) (right ++ [0]) (right.length + 1) = 0 ↔ left = right := by
  induction right generalizing left with
  | nil =>
    cases left with
    | nil => simp [strncmp]
    | cons a rest =>
      have notNul : a ≠ 0 := fun same => leftTerminated (by simp [same])
      simpa [strncmp, notNul] using byte_difference a 0 notNul
  | cons b right inductionHypothesis =>
    have notNul : b ≠ 0 := fun same => rightTerminated (by simp [same])
    cases left with
    | nil => simpa [strncmp, Ne.symm notNul] using byte_difference 0 b (Ne.symm notNul)
    | cons a left =>
      have tails := inductionHypothesis left
        (fun member => leftTerminated (List.mem_cons_of_mem a member))
        (fun member => rightTerminated (List.mem_cons_of_mem b member))
      by_cases same : a = b
      · subst same
        simpa [strncmp, notNul] using tails
      · simpa [strncmp, same] using byte_difference a b same

end Xinu
