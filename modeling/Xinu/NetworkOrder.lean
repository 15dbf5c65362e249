import Xinu.CIntegers

/-!
# Fields in network byte order

A message is a stretch of memory. Its fields of two and four bytes carry their most significant
byte first; `ntohs` and `ntohl` read such a field, `htons` and `htonl` store one.
-/

namespace Xinu.NetworkOrder

open CIntegers

/-- The value of a field of two bytes. -/
def ntohs (memory : Memory) (at_ : Nat) : UInt16 :=
  UInt16.ofNat (256 * (memory at_).toNat + (memory (at_ + 1)).toNat)

/-- The value of a field of four bytes. -/
def ntohl (memory : Memory) (at_ : Nat) : UInt32 :=
  UInt32.ofNat (16777216 * (memory at_).toNat + 65536 * (memory (at_ + 1)).toNat +
    256 * (memory (at_ + 2)).toNat + (memory (at_ + 3)).toNat)

/-- Store a field of two bytes. -/
def htons (memory : Memory) (at_ : Nat) (value : UInt16) : Memory :=
  copy memory at_ (fun k => byteOf value.toNat (1 - k)) 2

/-- Store a field of four bytes. -/
def htonl (memory : Memory) (at_ : Nat) (value : UInt32) : Memory :=
  copy memory at_ (fun k => byteOf value.toNat (3 - k)) 4

section Fields

variable {memory other : Memory} {at_ place : Nat}

/-- A field depends on its own bytes. -/
theorem ntohs_congr (same : ∀ k < 2, memory (at_ + k) = other (place + k)) :
    ntohs memory at_ = ntohs other place := by
  have first : memory at_ = other place := same 0 (by omega)
  unfold ntohs
  rw [first, same 1 (by omega)]

/-- A field that was stored is read back. -/
@[simp] theorem ntohs_htons (value : UInt16) : ntohs (htons memory at_ value) at_ = value := by
  have bound : value.toNat < 2 ^ 16 := UInt16.toNat_lt _
  have first : htons memory at_ value at_ = byteOf value.toNat 1 := copy_inside _ _ at_ 2 0 (by omega)
  have second : htons memory at_ value (at_ + 1) = byteOf value.toNat 0 :=
    copy_inside _ _ at_ 2 1 (by omega)
  unfold ntohs
  rw [first, second, byteOf_toNat, byteOf_toNat]
  have sum : 256 * (value.toNat / 256 ^ 1 % 256) + value.toNat / 256 ^ 0 % 256 = value.toNat := by lia
  rw [sum, UInt16.ofNat_toNat]

@[simp] theorem ntohl_htonl (value : UInt32) : ntohl (htonl memory at_ value) at_ = value := by
  have bound : value.toNat < 2 ^ 32 := UInt32.toNat_lt _
  have byte : ∀ k < 4, htonl memory at_ value (at_ + k) = byteOf value.toNat (3 - k) := fun k inside =>
    copy_inside _ _ at_ 4 k inside
  have first : htonl memory at_ value at_ = byteOf value.toNat 3 := byte 0 (by omega)
  unfold ntohl
  rw [first, byte 1 (by omega), byte 2 (by omega), byte 3 (by omega)]
  simp only [byteOf_toNat]
  have sum : 16777216 * (value.toNat / 256 ^ 3 % 256) + 65536 * (value.toNat / 256 ^ (3 - 1) % 256) +
      256 * (value.toNat / 256 ^ (3 - 2) % 256) + value.toNat / 256 ^ (3 - 3) % 256 = value.toNat := by
    omega
  rw [sum, UInt32.ofNat_toNat]

/-- A field beside the stored one keeps its value. -/
theorem ntohs_htonl (value : UInt32) (apart : place + 2 ≤ at_ ∨ at_ + 4 ≤ place) :
    ntohs (htonl memory at_ value) place = ntohs memory place :=
  ntohs_congr fun k inside => copy_outside _ _ at_ 4 _ (by lia)

end Fields

end Xinu.NetworkOrder
