import Mathlib

/-!
# Thirty-two-bit integers and byte memory

The target is a 32-bit ARM: an `int` is a two's-complement word, `size_t` its
unsigned reading, and a structure in memory is its little-endian bytes. Sums of
`int` values are taken modulo `2 ^ 32`. Stored integers are `Int32` values, so
their range needs no invariant; arithmetic is carried out on their `Int`
readings and wrapped where the source stores the result.

Memory behind a pointer is a total byte function. What lies beyond the object a
pointer denotes is some byte as well; the places where reaching it matters carry
their own bounds.
-/

namespace Xinu.CIntegers

/-- The bytes from some address on. -/
abbrev Memory := Nat → UInt8

/-- The value an `int` holds after an arithmetic result is stored in it. -/
@[irreducible]
def wrap (value : Int) : Int := value.bmod (2 ^ 32)

/-- The unsigned reading of an `int`, as taken in an expression with `sizeof`. -/
def unsigned (value : Int) : Nat := (value % 2 ^ 32).toNat

/-- A result inside the signed range is stored unchanged. -/
theorem wrap_of_range (value : Int) (low : -2 ^ 31 ≤ value) (high : value < 2 ^ 31) :
    wrap value = value := by
  unfold wrap
  rw [Int.bmod_def]
  split <;> omega

/-- Whatever is stored lies in the signed range. -/
theorem wrap_range (value : Int) : -2 ^ 31 ≤ wrap value ∧ wrap value < 2 ^ 31 := by
  unfold wrap
  rw [Int.bmod_def]
  split <;> lia

/-- Storing differs from the exact result by a multiple of the word size. -/
theorem wrap_dvd (value : Int) : (2 ^ 32 : Int) ∣ value - wrap value := by
  unfold wrap
  rw [Int.bmod_def]
  split <;> omega

/-- A stored `int` read back is the wrapped value. -/
@[simp] theorem toInt_ofInt (value : Int) : (Int32.ofInt value).toInt = wrap value := by
  simp [wrap, Int32.toInt_ofInt]

/-- Every stored `int` lies in the signed range. -/
theorem toInt_range (value : Int32) : -2 ^ 31 ≤ value.toInt ∧ value.toInt < 2 ^ 31 :=
  ⟨Int32.le_toInt value, Int32.toInt_lt value⟩

/-- Sums and differences that stay in the signed range. -/
theorem toInt_add_of_range (left right : Int32) (low : -2 ^ 31 ≤ left.toInt + right.toInt)
    (high : left.toInt + right.toInt < 2 ^ 31) :
    (left + right).toInt = left.toInt + right.toInt := by
  rw [Int32.toInt_add, ← wrap_of_range _ low high, wrap]
  simp

theorem toInt_sub_of_range (left right : Int32) (low : -2 ^ 31 ≤ left.toInt - right.toInt)
    (high : left.toInt - right.toInt < 2 ^ 31) :
    (left - right).toInt = left.toInt - right.toInt := by
  rw [Int32.toInt_sub, ← wrap_of_range _ low high, wrap]
  simp

/-- An unsigned word below the sign bit reads the same as an `int`. -/
theorem toInt_toInt32 (word : UInt32) (small : word.toNat < 2 ^ 31) :
    word.toInt32.toInt = word.toNat := by
  have bits : word.toInt32.toInt = word.toBitVec.toInt := rfl
  rw [bits, BitVec.toInt_eq_toNat_of_lt (by rw [UInt32.toNat_toBitVec]; omega),
    UInt32.toNat_toBitVec]

/-- A nonnegative `int` reads the same without its sign. -/
theorem unsigned_of_nonneg (value : Int) (low : 0 ≤ value) (high : value < 2 ^ 32) :
    (unsigned value : Int) = value := by
  unfold unsigned
  lia

/-- `memcpy` of `len` bytes: the target keeps every byte outside the range. -/
def copy (target : Memory) (at_ : Nat) (source : Memory) (len : Nat) : Memory :=
  fun address => if at_ ≤ address ∧ address < at_ + len then source (address - at_) else target address

theorem copy_inside (target source : Memory) (at_ len index : Nat) (inside : index < len) :
    copy target at_ source len (at_ + index) = source index := by
  simp [copy, inside]

theorem copy_outside (target source : Memory) (at_ len address : Nat)
    (outside : address < at_ ∨ at_ + len ≤ address) :
    copy target at_ source len address = target address := by
  unfold copy
  rw [if_neg (by lia)]

/-- The memory that starts `offset` bytes further on. -/
def shift (memory : Memory) (offset : Nat) : Memory := fun address => memory (offset + address)

@[simp] theorem shift_apply (memory : Memory) (offset address : Nat) :
    shift memory offset address = memory (offset + address) := rfl

/-- A window that is fetched, changed in one place and written back changes the
memory in that place only. -/
theorem copy_written_back (memory cache source : Memory) (base len offset size : Nat)
    (fits : offset + size ≤ len) :
    copy memory base (copy (copy cache 0 (shift memory base) len) offset source size) len =
      copy memory (base + offset) source size := by
  funext address
  by_cases window : base ≤ address ∧ address < base + len
  · obtain ⟨index, rfl⟩ := Nat.exists_eq_add_of_le window.1
    rw [copy_inside _ _ _ _ _ (by omega)]
    by_cases changed : offset ≤ index ∧ index < offset + size
    · obtain ⟨place, rfl⟩ := Nat.exists_eq_add_of_le changed.1
      rw [copy_inside _ _ _ _ _ (by omega), ← Nat.add_assoc, copy_inside _ _ _ _ _ (by omega)]
    · have fetched := copy_inside cache (shift memory base) 0 len index (by omega)
      rw [Nat.zero_add] at fetched
      rw [copy_outside _ source offset _ _ (by lia), fetched,
        copy_outside _ _ _ _ _ (by lia), shift_apply]
  · rw [copy_outside _ _ _ _ _ (by lia), copy_outside _ _ _ _ _ (by lia)]

/-- One byte of a word, counted from the least significant one. -/
def byteOf (word position : Nat) : UInt8 := UInt8.ofNat (word / 256 ^ position)

theorem byteOf_toNat (word position : Nat) :
    (byteOf word position).toNat = word / 256 ^ position % 256 := by
  simp [byteOf]

/-- The `int` whose four bytes start at an address. -/
def word32 (memory : Memory) (address : Nat) : Int32 :=
  (UInt32.ofNat ((memory address).toNat + 256 * (memory (address + 1)).toNat +
    65536 * (memory (address + 2)).toNat + 16777216 * (memory (address + 3)).toNat)).toInt32

/-- The `short` whose two bytes start at an address. -/
def word16 (memory : Memory) (address : Nat) : Int16 :=
  (UInt16.ofNat ((memory address).toNat + 256 * (memory (address + 1)).toNat)).toInt16

/-- Four bytes that spell an `int` read back as that `int`. -/
theorem word32_of_bytes (memory : Memory) (address : Nat) (value : Int32)
    (stored : ∀ k < 4, memory (address + k) = byteOf value.toUInt32.toNat k) :
    word32 memory address = value := by
  have low : memory address = byteOf value.toUInt32.toNat 0 := stored 0 (by omega)
  have bound : value.toUInt32.toNat < 2 ^ 32 := UInt32.toNat_lt _
  have sum : (memory address).toNat + 256 * (memory (address + 1)).toNat +
      65536 * (memory (address + 2)).toNat + 16777216 * (memory (address + 3)).toNat =
      value.toUInt32.toNat := by
    rw [low, stored 1 (by omega), stored 2 (by omega), stored 3 (by omega)]
    simp only [byteOf_toNat]
    omega
  unfold word32
  rw [sum, UInt32.ofNat_toNat]
  simp

/-- Two bytes that spell a `short` read back as that `short`. -/
theorem word16_of_bytes (memory : Memory) (address : Nat) (value : Int16)
    (stored : ∀ k < 2, memory (address + k) = byteOf value.toUInt16.toNat k) :
    word16 memory address = value := by
  have low : memory address = byteOf value.toUInt16.toNat 0 := stored 0 (by omega)
  have bound : value.toUInt16.toNat < 2 ^ 16 := UInt16.toNat_lt _
  have sum : (memory address).toNat + 256 * (memory (address + 1)).toNat =
      value.toUInt16.toNat := by
    rw [low, stored 1 (by omega)]
    simp only [byteOf_toNat]
    lia
  unfold word16
  rw [sum, UInt16.ofNat_toNat]
  simp

/-- Reading a word depends on its own four bytes only. -/
theorem word32_congr (left right : Memory) (from_ to_ : Nat)
    (same : ∀ k < 4, left (from_ + k) = right (to_ + k)) : word32 left from_ = word32 right to_ := by
  have first : left from_ = right to_ := same 0 (by omega)
  unfold word32
  rw [first, same 1 (by omega), same 2 (by omega), same 3 (by omega)]

/-- Reading a short word depends on its own two bytes only. -/
theorem word16_congr (left right : Memory) (from_ to_ : Nat)
    (same : ∀ k < 2, left (from_ + k) = right (to_ + k)) : word16 left from_ = word16 right to_ := by
  have first : left from_ = right to_ := same 0 (by omega)
  unfold word16
  rw [first, same 1 (by omega)]

end Xinu.CIntegers
