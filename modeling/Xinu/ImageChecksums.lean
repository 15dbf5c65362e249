import Mathlib

/-!
# The checksum of images

`mkimage` computes a checksum of 32 bits from a table with an entry for each byte. The high bytes of the entries
all differ, so that the last bytes of a message can be recovered from the register: a message cannot be changed
within four bytes in a row without a change of its checksum.

The register has no more than 32 bits, also where `unsigned long` has more.
-/

namespace Xinu.ImageChecksums

/-- `crc_table`. -/
def crcTable : List UInt32 := [
  0x00000000, 0x77073096, 0xee0e612c, 0x990951ba, 0x076dc419, 0x706af48f, 0xe963a535, 0x9e6495a3, 0x0edb8832,
  0x79dcb8a4, 0xe0d5e91e, 0x97d2d988, 0x09b64c2b, 0x7eb17cbd, 0xe7b82d07, 0x90bf1d91, 0x1db71064, 0x6ab020f2,
  0xf3b97148, 0x84be41de, 0x1adad47d, 0x6ddde4eb, 0xf4d4b551, 0x83d385c7, 0x136c9856, 0x646ba8c0, 0xfd62f97a,
  0x8a65c9ec, 0x14015c4f, 0x63066cd9, 0xfa0f3d63, 0x8d080df5, 0x3b6e20c8, 0x4c69105e, 0xd56041e4, 0xa2677172,
  0x3c03e4d1, 0x4b04d447, 0xd20d85fd, 0xa50ab56b, 0x35b5a8fa, 0x42b2986c, 0xdbbbc9d6, 0xacbcf940, 0x32d86ce3,
  0x45df5c75, 0xdcd60dcf, 0xabd13d59, 0x26d930ac, 0x51de003a, 0xc8d75180, 0xbfd06116, 0x21b4f4b5, 0x56b3c423,
  0xcfba9599, 0xb8bda50f, 0x2802b89e, 0x5f058808, 0xc60cd9b2, 0xb10be924, 0x2f6f7c87, 0x58684c11, 0xc1611dab,
  0xb6662d3d, 0x76dc4190, 0x01db7106, 0x98d220bc, 0xefd5102a, 0x71b18589, 0x06b6b51f, 0x9fbfe4a5, 0xe8b8d433,
  0x7807c9a2, 0x0f00f934, 0x9609a88e, 0xe10e9818, 0x7f6a0dbb, 0x086d3d2d, 0x91646c97, 0xe6635c01, 0x6b6b51f4,
  0x1c6c6162, 0x856530d8, 0xf262004e, 0x6c0695ed, 0x1b01a57b, 0x8208f4c1, 0xf50fc457, 0x65b0d9c6, 0x12b7e950,
  0x8bbeb8ea, 0xfcb9887c, 0x62dd1ddf, 0x15da2d49, 0x8cd37cf3, 0xfbd44c65, 0x4db26158, 0x3ab551ce, 0xa3bc0074,
  0xd4bb30e2, 0x4adfa541, 0x3dd895d7, 0xa4d1c46d, 0xd3d6f4fb, 0x4369e96a, 0x346ed9fc, 0xad678846, 0xda60b8d0,
  0x44042d73, 0x33031de5, 0xaa0a4c5f, 0xdd0d7cc9, 0x5005713c, 0x270241aa, 0xbe0b1010, 0xc90c2086, 0x5768b525,
  0x206f85b3, 0xb966d409, 0xce61e49f, 0x5edef90e, 0x29d9c998, 0xb0d09822, 0xc7d7a8b4, 0x59b33d17, 0x2eb40d81,
  0xb7bd5c3b, 0xc0ba6cad, 0xedb88320, 0x9abfb3b6, 0x03b6e20c, 0x74b1d29a, 0xead54739, 0x9dd277af, 0x04db2615,
  0x73dc1683, 0xe3630b12, 0x94643b84, 0x0d6d6a3e, 0x7a6a5aa8, 0xe40ecf0b, 0x9309ff9d, 0x0a00ae27, 0x7d079eb1,
  0xf00f9344, 0x8708a3d2, 0x1e01f268, 0x6906c2fe, 0xf762575d, 0x806567cb, 0x196c3671, 0x6e6b06e7, 0xfed41b76,
  0x89d32be0, 0x10da7a5a, 0x67dd4acc, 0xf9b9df6f, 0x8ebeeff9, 0x17b7be43, 0x60b08ed5, 0xd6d6a3e8, 0xa1d1937e,
  0x38d8c2c4, 0x4fdff252, 0xd1bb67f1, 0xa6bc5767, 0x3fb506dd, 0x48b2364b, 0xd80d2bda, 0xaf0a1b4c, 0x36034af6,
  0x41047a60, 0xdf60efc3, 0xa867df55, 0x316e8eef, 0x4669be79, 0xcb61b38c, 0xbc66831a, 0x256fd2a0, 0x5268e236,
  0xcc0c7795, 0xbb0b4703, 0x220216b9, 0x5505262f, 0xc5ba3bbe, 0xb2bd0b28, 0x2bb45a92, 0x5cb36a04, 0xc2d7ffa7,
  0xb5d0cf31, 0x2cd99e8b, 0x5bdeae1d, 0x9b64c2b0, 0xec63f226, 0x756aa39c, 0x026d930a, 0x9c0906a9, 0xeb0e363f,
  0x72076785, 0x05005713, 0x95bf4a82, 0xe2b87a14, 0x7bb12bae, 0x0cb61b38, 0x92d28e9b, 0xe5d5be0d, 0x7cdcefb7,
  0x0bdbdf21, 0x86d3d2d4, 0xf1d4e242, 0x68ddb3f8, 0x1fda836e, 0x81be16cd, 0xf6b9265b, 0x6fb077e1, 0x18b74777,
  0x88085ae6, 0xff0f6a70, 0x66063bca, 0x11010b5c, 0x8f659eff, 0xf862ae69, 0x616bffd3, 0x166ccf45, 0xa00ae278,
  0xd70dd2ee, 0x4e048354, 0x3903b3c2, 0xa7672661, 0xd06016f7, 0x4969474d, 0x3e6e77db, 0xaed16a4a, 0xd9d65adc,
  0x40df0b66, 0x37d83bf0, 0xa9bcae53, 0xdebb9ec5, 0x47b2cf7f, 0x30b5ffe9, 0xbdbdf21c, 0xcabac28a, 0x53b39330,
  0x24b4a3a6, 0xbad03605, 0xcdd70693, 0x54de5729, 0x23d967bf, 0xb3667a2e, 0xc4614ab8, 0x5d681b02, 0x2a6f2b94,
  0xb40bbe37, 0xc30c8ea1, 0x5a05df1b, 0x2d02ef8d]

/-- The index of `DO1`, and `DO1`. -/
def index (crc : UInt32) (byte : UInt8) : Nat := ((crc ^^^ byte.toUInt32) &&& 0xff).toNat

def do1 (crc : UInt32) (byte : UInt8) : UInt32 := crcTable.getD (index crc byte) 0 ^^^ (crc >>> 8)

/-- The two loops of `crc32`: eight bytes at a time, then the bytes that are left. -/
def crcLoop (crc : UInt32) : List UInt8 → UInt32
  | a :: b :: c :: d :: e :: f :: g :: h :: buf => crcLoop ([a, b, c, d, e, f, g, h].foldl do1 crc) buf
  | buf => buf.foldl do1 crc

/-- `crc32`. -/
def crc32 (crc : UInt32) (buf : List UInt8) : UInt32 := crcLoop (crc ^^^ 0xffffffff) buf ^^^ 0xffffffff

/-- No number comes twice, or is a bit of `seen`. -/
def fresh : Nat → List Nat → Bool
  | _, [] => true
  | seen, k :: rest => !seen.testBit k && fresh (seen ||| 1 <<< k) rest

theorem nodup_of_fresh {seen : Nat} {list : List Nat} (isFresh : fresh seen list = true) :
    list.Nodup ∧ ∀ k ∈ list, seen.testBit k = false := by
  induction list generalizing seen with
  | nil => exact ⟨List.nodup_nil, by simp⟩
  | cons k rest inductionHypothesis =>
    obtain ⟨new, others⟩ := Bool.and_eq_true_iff.mp isFresh
    obtain ⟨nodup, apart⟩ := inductionHypothesis others
    simp only [Nat.testBit_or, Bool.or_eq_false_iff] at apart
    refine ⟨List.nodup_cons.mpr ⟨fun again => ?_, nodup⟩,
      List.forall_mem_cons.mpr ⟨by simpa using new, fun other member => (apart other member).1⟩⟩
    simpa using (apart k again).2

/-- The high bytes of the entries tell the entries apart. -/
theorem high_bytes_differ : (crcTable.map fun entry => entry.toNat >>> 24).Nodup :=
  (@nodup_of_fresh 0 _ (by decide +kernel)).1

/-- The loop with eight bytes at a time is the plain one. -/
theorem crcLoop_eq (crc : UInt32) (buf : List UInt8) : crcLoop crc buf = buf.foldl do1 crc := by
  fun_induction crcLoop crc buf with
  | case1 crc a b c d e f g h buf inductionHypothesis =>
    rw [inductionHypothesis, ← List.foldl_append]
    simp only [List.cons_append, List.nil_append]
  | case2 => rfl

section Registers

variable {crc other : UInt32} {byte second : UInt8} {low : Nat}

/-- An index is made of the byte and the low byte of the register. -/
theorem index_eq (crc : UInt32) (byte : UInt8) : index crc byte = (crc.toNat ^^^ byte.toNat) % 2 ^ 8 := by
  have mask : (0xff : UInt32).toNat = 2 ^ 8 - 1 := by decide
  unfold index
  rw [UInt32.toNat_and, mask, Nat.and_two_pow_sub_one_eq_mod, UInt32.toNat_xor, UInt8.toNat_toUInt32]

theorem index_lt (crc : UInt32) (byte : UInt8) : index crc byte < crcTable.length := by
  have length : crcTable.length = 2 ^ 8 := by decide +kernel
  rw [index_eq, length]
  exact Nat.mod_lt _ (by decide)

/-- One byte and the index give the low byte of the register, and the other way round. -/
theorem index_inj (same : index crc byte = index other second) :
    byte = second ↔ crc.toNat % 2 ^ 8 = other.toNat % 2 ^ 8 := by
  have first : byte.toNat % 2 ^ 8 = byte.toNat := Nat.mod_eq_of_lt (UInt8.toNat_lt byte)
  have last : second.toNat % 2 ^ 8 = second.toNat := Nat.mod_eq_of_lt (UInt8.toNat_lt second)
  rw [index_eq, index_eq, Nat.xor_mod_two_pow, Nat.xor_mod_two_pow, first, last] at same
  rw [← UInt8.toNat_inj]
  constructor
  · intro sameByte
    rwa [sameByte, Nat.xor_left_inj] at same
  · intro sameLow
    rwa [sameLow, Nat.xor_right_inj] at same

theorem toNat_do1 (crc : UInt32) (byte : UInt8) :
    (do1 crc byte).toNat = (crcTable.getD (index crc byte) 0).toNat ^^^ crc.toNat >>> 8 := by
  unfold do1
  rw [UInt32.toNat_xor, UInt32.toNat_shiftRight]
  rfl

/-- Where two registers end alike but for some low bytes, the entries that were taken are the same, and the registers
before were alike but for one low byte more. -/
theorem do1_cases (few : low < 4) (same : (do1 crc byte).toNat >>> (8 * low) = (do1 other second).toNat >>> (8 * low)) :
    index crc byte = index other second ∧ crc.toNat >>> (8 * (low + 1)) = other.toNat >>> (8 * (low + 1)) := by
  rw [toNat_do1, toNat_do1] at same
  have sameIndex : index crc byte = index other second := by
    have high : ∀ register : UInt32, register.toNat >>> 8 >>> 24 = 0 := by
      intro register
      rw [← Nat.shiftRight_add, Nat.shiftRight_eq_div_pow]
      exact Nat.div_eq_of_lt (UInt32.toNat_lt register)
    have shifted := congrArg (· >>> (24 - 8 * low)) same
    have whole : 8 * low + (24 - 8 * low) = 24 := by lia
    simp only [← Nat.shiftRight_add, whole] at shifted
    rw [Nat.shiftRight_xor_distrib, Nat.shiftRight_xor_distrib, high, high, Nat.xor_zero, Nat.xor_zero,
      List.getD_eq_getElem _ _ (index_lt crc byte), List.getD_eq_getElem _ _ (index_lt other second)] at shifted
    refine (@List.Nodup.getElem_inj_iff _ _ high_bytes_differ _ (by simpa using index_lt crc byte) _
      (by simpa using index_lt other second)).mp ?_
    rw [List.getElem_map, List.getElem_map]
    exact shifted
  refine ⟨sameIndex, ?_⟩
  rw [sameIndex, Nat.shiftRight_xor_distrib, Nat.shiftRight_xor_distrib, Nat.xor_right_inj, ← Nat.shiftRight_add,
    ← Nat.shiftRight_add] at same
  rwa [Nat.mul_add, Nat.add_comm (8 * low)]

/-- The bytes of a burst can be recovered, up to four of them. -/
theorem run_cases {burst changed : List UInt8} (length : burst.length = changed.length) (short : low + burst.length ≤ 4)
    (same : (burst.foldl do1 crc).toNat >>> (8 * low) = (changed.foldl do1 other).toNat >>> (8 * low)) :
    crc.toNat >>> (8 * (low + burst.length)) = other.toNat >>> (8 * (low + burst.length)) ∧
      (crc = other → burst = changed) := by
  induction burst generalizing changed crc other with
  | nil =>
    cases changed with
    | nil => exact ⟨same, fun _ => rfl⟩
    | cons => cases length
  | cons byte burst inductionHypothesis =>
    cases changed with
    | nil => cases length
    | cons second changed =>
      rw [List.length_cons] at short
      obtain ⟨inFront, recovered⟩ := inductionHypothesis (Nat.succ.inj length) (by lia) same
      obtain ⟨sameIndex, before⟩ := do1_cases (by omega) inFront
      refine ⟨before, fun sameRegister => ?_⟩
      have sameByte := (index_inj sameIndex).mpr (by rw [sameRegister])
      rw [sameByte, recovered (by rw [sameByte, sameRegister])]

/-- What follows keeps registers apart. -/
theorem foldl_injective {rest : List UInt8} (same : rest.foldl do1 crc = rest.foldl do1 other) : crc = other := by
  induction rest generalizing crc other with
  | nil => exact same
  | cons byte rest inductionHypothesis =>
    obtain ⟨sameIndex, before⟩ := @do1_cases crc other byte byte 0 (by decide) (by rw [inductionHypothesis same])
    have low := (index_inj sameIndex).mp rfl
    rw [Nat.shiftRight_eq_div_pow, Nat.shiftRight_eq_div_pow] at before
    apply UInt32.toNat_inj.mp
    lia

end Registers

/-- A message that is changed within four bytes in a row has another checksum, whatever stands before and behind
them. -/
theorem bursts_change_the_checksum (crc : UInt32) (before burst changed behind : List UInt8)
    (length : burst.length = changed.length) (short : burst.length ≤ 4) (differ : burst ≠ changed) :
    crc32 crc (before ++ burst ++ behind) ≠ crc32 crc (before ++ changed ++ behind) := by
  intro same
  unfold crc32 at same
  rw [crcLoop_eq, crcLoop_eq, UInt32.xor_left_inj] at same
  simp only [List.foldl_append] at same
  have inBurst := foldl_injective same
  exact differ ((@run_cases _ _ 0 _ _ length (by lia) (by rw [inBurst])).2 rfl)

/-- A bit of a message of five bytes. -/
theorem one_bit_changes_the_checksum : crc32 0 [1, 2, 3, 4, 5] ≠ crc32 0 [1, 2, 3, 4, 4] :=
  bursts_change_the_checksum 0 [1, 2, 3, 4] [5] [4] [] rfl (by decide) (by decide)

end Xinu.ImageChecksums
