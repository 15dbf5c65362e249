import Xinu.CallOutcomes

/-!
# The inode region

Inodes are stored from block 2 on, as many to a block as fit. For block sizes
between the size of an inode and the size of the block cache, reading and storing
an inode touches exactly the block its number selects: a read finds the sixty-four
bytes at the inode's address and a store replaces them and no other byte.

The two functions accept every number that is not above the inode count. The
count itself is one too many: where it fills its last block exactly, that number
selects the first data block. Negative numbers are accepted as well and select
blocks far behind the device.
-/

namespace Xinu.FileSystem

open CIntegers BlockStore Runs

/-- Inodes read from memories that agree on sixty-four bytes are the same. -/
theorem ofBytes_congr (left right : Memory) (from_ to_ : Nat)
    (same : ∀ k < 64, left (from_ + k) = right (to_ + k)) :
    Inode.ofBytes left from_ = Inode.ofBytes right to_ := by
  have word : ∀ k, k + 4 ≤ 64 → word32 left (from_ + k) = word32 right (to_ + k) := by
    intro k fits
    apply word32_congr
    intro j inside
    rw [Nat.add_assoc, Nat.add_assoc]
    exact same (k + j) (by omega)
  have half : ∀ k, k + 2 ≤ 64 → word16 left (from_ + k) = word16 right (to_ + k) := by
    intro k fits
    apply word16_congr
    intro j inside
    rw [Nat.add_assoc, Nat.add_assoc]
    exact same (k + j) (by omega)
  unfold Inode.ofBytes
  congr 1
  · exact word 0 (by omega)
  · exact half 4 (by omega)
  · exact half 6 (by omega)
  · exact word 8 (by omega)
  · exact word 12 (by omega)
  · funext i
    rw [Nat.add_assoc, Nat.add_assoc]
    exact word (16 + 4 * i.val) (by omega)

/-- An inode read back from its own bytes is the inode. -/
theorem ofBytes_bytes (inode : Inode) : Inode.ofBytes inode.bytes 0 = inode := by
  have blockWord : ∀ i : Fin 12, word32 inode.bytes (16 + 4 * i.val) = inode.blocks i := by
    intro i
    apply word32_of_bytes
    intro k inside
    have quotient : (16 + 4 * i.val + k - 16) / 4 = i.val := by lia
    have remainder : (16 + 4 * i.val + k) % 4 = k := by lia
    unfold Inode.bytes
    rw [if_neg (by lia), if_neg (by lia), if_neg (by lia), if_neg (by lia),
      if_neg (by lia), dif_pos (by lia)]
    simp only [quotient, remainder]
  cases inode with
  | mk id type nlink device size blocks =>
    unfold Inode.ofBytes
    congr 1
    · apply word32_of_bytes
      intro k inside
      simp [Inode.bytes, inside]
    · apply word16_of_bytes
      intro k inside
      simp only [Inode.bytes]
      rw [if_neg (by lia), if_pos (by omega)]
      congr 1
      lia
    · apply word16_of_bytes
      intro k inside
      simp only [Inode.bytes]
      rw [if_neg (by lia), if_neg (by lia), if_pos (by omega)]
      congr 1
      lia
    · apply word32_of_bytes
      intro k inside
      simp only [Inode.bytes]
      rw [if_neg (by lia), if_neg (by lia), if_neg (by lia), if_pos (by omega)]
      congr 1
      lia
    · apply word32_of_bytes
      intro k inside
      simp only [Inode.bytes]
      rw [if_neg (by lia), if_neg (by lia), if_neg (by lia), if_neg (by lia),
        if_pos (by omega)]
      congr 1
      lia
    · funext i
      rw [Nat.zero_add]
      exact blockWord i

/-- Block sizes that hold an inode and fit the block cache. -/
structure CacheFits (fsd : Fsystem) : Prop where
  low : 64 ≤ fsd.blocksz.toInt
  high : fsd.blocksz.toInt ≤ 512

/-- Under such a block size between one and eight inodes share a block. -/
theorem CacheFits.perBlock {fsd : Fsystem} (fits : CacheFits fsd) :
    0 < fsd.inodesPerBlock ∧ fsd.inodesPerBlock ≤ 8 ∧
      (fsd.inodesPerBlock : Int) * 64 ≤ fsd.blocksz.toInt := by
  obtain ⟨low, high⟩ := fits
  have exact := unsigned_of_nonneg fsd.blocksz.toInt (by lia) (by omega)
  unfold Fsystem.inodesPerBlock sizeofInode
  omega

/-- The offset of an inode inside its block. -/
theorem CacheFits.inodeOff {fsd : Fsystem} (fits : CacheFits fsd) (number : Int) :
    fsd.inodeOff number = (unsigned number % fsd.inodesPerBlock : Nat) * 64 := by
  obtain ⟨positive, small, _⟩ := fits.perBlock
  have below : unsigned number % fsd.inodesPerBlock < fsd.inodesPerBlock := Nat.mod_lt _ positive
  unfold Fsystem.inodeOff sizeofInode
  rw [wrap_of_range _ (by omega) (by lia)]
  push_cast
  rfl

/-- The bytes of an inode lie inside its block, hence inside the cache. -/
theorem CacheFits.inodeOff_range {fsd : Fsystem} (fits : CacheFits fsd) (number : Int) :
    0 ≤ fsd.inodeOff number ∧ fsd.inodeOff number + 64 ≤ fsd.blocksz.toInt := by
  obtain ⟨positive, _, room⟩ := fits.perBlock
  have below : unsigned number % fsd.inodesPerBlock < fsd.inodesPerBlock := Nat.mod_lt _ positive
  rw [fits.inodeOff]
  lia

theorem CacheFits.cacheHolds {fsd : Fsystem} (fits : CacheFits fsd) (number : Int) :
    CacheHolds (fsd.inodeOff number) := by
  have range := fits.inodeOff_range number
  have high := fits.high
  unfold CacheHolds sizeofInode blockCacheSize
  omega

/-- The numbers whose inodes lie in the inode region: those below the count, and
the count itself where its last block is not full. -/
def InodeWithin (fsd : Fsystem) (number : Int) : Prop :=
  0 ≤ number ∧ number ≤ fsd.ninodes.toInt ∧
    (number = fsd.ninodes.toInt → fsd.ninodes.toInt % fsd.inodesPerBlock ≠ 0)

/-- The number of inode blocks is the inode count divided by the inodes to a
block, rounded up. -/
theorem numInodeBlocks_exact (fsd : Fsystem) (inodes : 0 < fsd.ninodes.toInt) :
    (fsd.numInodeBlocks : Int) = fsd.ninodes.toInt / fsd.inodesPerBlock +
      if fsd.ninodes.toInt % fsd.inodesPerBlock = 0 then 0 else 1 := by
  have bound := toInt_range fsd.ninodes
  have exact := unsigned_of_nonneg fsd.ninodes.toInt (by lia) (by omega)
  have remainder : ((unsigned fsd.ninodes.toInt % fsd.inodesPerBlock : Nat) : Int) =
      fsd.ninodes.toInt % fsd.inodesPerBlock := by rw [Int.natCast_mod, exact]
  have quotient : ((unsigned fsd.ninodes.toInt / fsd.inodesPerBlock : Nat) : Int) =
      fsd.ninodes.toInt / fsd.inodesPerBlock := by rw [Int.natCast_div, exact]
  unfold Fsystem.numInodeBlocks
  by_cases full : unsigned fsd.ninodes.toInt % fsd.inodesPerBlock = 0
  · rw [if_pos full, if_pos (by lia), quotient, Int.add_zero]
  · rw [if_neg full, if_neg (by lia)]
    push_cast
    rw [exact]

/-- The block of an accepted number that is not negative. It lies in the inode
region exactly for the numbers within it. -/
theorem inodeBlock_exact (s : State) (geometry : Geometry s) (fits : CacheFits s.fsd)
    (number : Int) (nonneg : 0 ≤ number) (accepted : number ≤ s.fsd.ninodes.toInt) :
    s.fsd.inodeBlock number = 2 + number / s.fsd.inodesPerBlock ∧
      (s.fsd.inodeBlock number < s.fsd.firstDataBlock ↔ InodeWithin s.fsd number) := by
  have bound := toInt_range s.fsd.ninodes
  have blocks := toInt_range s.fsd.nblocks
  have region := geometry.region
  obtain ⟨positive, _, _⟩ := fits.perBlock
  have count := numInodeBlocks_exact s.fsd geometry.inodes
  have ordered : number / s.fsd.inodesPerBlock ≤ s.fsd.ninodes.toInt / s.fsd.inodesPerBlock :=
    Int.ediv_le_ediv (by lia) accepted
  have quotientNonneg : 0 ≤ number / s.fsd.inodesPerBlock := Int.ediv_nonneg nonneg (by lia)
  have quotient : ((unsigned number / s.fsd.inodesPerBlock : Nat) : Int) =
      number / s.fsd.inodesPerBlock := by
    rw [Int.natCast_div, unsigned_of_nonneg number nonneg (by omega)]
  have small : s.fsd.ninodes.toInt / s.fsd.inodesPerBlock ≤ s.fsd.numInodeBlocks := by
    rw [count]
    split <;> lia
  have exact : s.fsd.inodeBlock number = 2 + number / s.fsd.inodesPerBlock := by
    unfold Fsystem.inodeBlock firstInodeBlock
    rw [quotient, wrap_of_range (number / _) (by lia) (by lia),
      wrap_of_range _ (by lia) (by lia), Int.add_comm]
  refine ⟨exact, ?_⟩
  rw [exact, geometry.firstDataBlock]
  constructor
  · intro inside
    refine ⟨nonneg, accepted, ?_⟩
    rintro rfl full
    rw [count, if_pos full] at inside
    lia
  · rintro ⟨_, _, notFull⟩
    by_cases last : number = s.fsd.ninodes.toInt
    · rw [count, if_neg (notFull last), last]
      exact (Int.add_lt_add_iff_left 2).mpr (Int.lt_succ _)
    · rw [count]
      split
      case isTrue full =>
        have strict : number / s.fsd.inodesPerBlock < s.fsd.ninodes.toInt / s.fsd.inodesPerBlock := by
          apply Int.ediv_lt_of_lt_mul (by exact_mod_cast positive)
          rw [Int.ediv_mul_cancel (Int.dvd_of_emod_eq_zero full)]
          exact lt_of_le_of_ne accepted last
        rw [Int.add_zero]
        exact (Int.add_lt_add_iff_left 2).mpr strict
      case isFalse =>
        exact (Int.add_lt_add_iff_left 2).mpr (Int.lt_add_one_of_le ordered)

/-- The address of an inode on the device. -/
def Fsystem.inodeAddress (fsd : Fsystem) (number : Int) : Nat :=
  (fsd.inodeBlock number * fsd.blocksz.toInt + fsd.inodeOff number).toNat

section Stored

variable {s : State} (geometry : Geometry s) (fits : CacheFits s.fsd) {number : Int}
  (nonneg : 0 ≤ number) (accepted : number ≤ s.fsd.ninodes.toInt)
  (inDevice : s.fsd.inodeBlock number < s.fsd.nblocks.toInt)

include geometry fits nonneg accepted in
/-- The block of an accepted inode number is not negative. -/
theorem inodeBlock_nonneg : 0 ≤ s.fsd.inodeBlock number := by
  obtain ⟨exact, _⟩ := inodeBlock_exact s geometry fits number nonneg accepted
  have quotient : 0 ≤ number / s.fsd.inodesPerBlock := Int.ediv_nonneg nonneg (Int.natCast_nonneg _)
  rw [exact]
  exact Int.add_nonneg (by decide) quotient

include geometry fits nonneg accepted inDevice in
/-- An inode's block lies in the memory of the device. -/
theorem inodeBlock_holds :
    s.device.blocks.Holds (s.addressOf (s.fsd.inodeBlock number) 0) s.fsd.blocksz.toInt.toNat := by
  have low := inodeBlock_nonneg geometry fits nonneg accepted
  have positive := geometry.positive
  rw [geometry.addressOf (s.fsd.inodeBlock number) 0 low inDevice, Int.add_zero]
  refine Or.inr ⟨Int.mul_nonneg low (le_of_lt positive), ?_⟩
  rw [Int.toNat_of_nonneg (le_of_lt positive)]
  exact geometry.blockEnd (s.fsd.inodeBlock number) inDevice

include fits in
/-- A block fits the cache. -/
theorem CacheFits.room : ∀ size ∈ some blockCacheSize, s.fsd.blocksz.toInt.toNat ≤ size := by
  have high := fits.high
  intro size isCache
  cases isCache
  unfold blockCacheSize
  omega

/-- The cache after the block of an inode has been read. -/
def State.inodeCache (s : State) (number : Int) : Memory :=
  copy s.blockCache 0 (shift s.device.blocks.bytes
    (s.fsd.inodeBlock number * s.fsd.blocksz.toInt).toNat) s.fsd.blocksz.toInt.toNat

include geometry fits nonneg accepted inDevice in
/-- The block read for an inode fetches its whole block. -/
theorem inodeBlock_fetched : s.bread (s.fsd.inodeBlock number) 0 s.blockCache (some blockCacheSize)
      s.fsd.blocksz.toInt =
    some (s.inodeCache number, s.record (inodeTransfer s.fsd false number)) := by
  have low := inodeBlock_nonneg geometry fits nonneg accepted
  have good : 0 < s.device.blocksize.toInt := by
    rw [geometry.blocksz]
    exact geometry.positive
  rw [bread_done _ _ _ _ _ _ good (inodeBlock_holds geometry fits nonneg accepted inDevice)
      fits.room, geometry.addressOf (s.fsd.inodeBlock number) 0 low inDevice, Int.add_zero]
  rfl

include geometry fits nonneg accepted in
/-- The address of an inode is its offset from the start of its block. -/
theorem inodeAddress_exact : s.fsd.inodeAddress number =
    (s.fsd.inodeBlock number * s.fsd.blocksz.toInt).toNat + (s.fsd.inodeOff number).toNat := by
  have low := inodeBlock_nonneg geometry fits nonneg accepted
  exact Int.toNat_add (Int.mul_nonneg low (le_of_lt geometry.positive))
    (fits.inodeOff_range number).1

include geometry fits nonneg accepted inDevice in
/-- A read finds the bytes at the inode's address. -/
theorem getInode_exact : fsGetInodeByNum s 0 number =
    some (.ok (Inode.ofBytes s.device.blocks.bytes (s.fsd.inodeAddress number)),
      (s.record (inodeTransfer s.fsd false number)).withCache (s.inodeCache number)) := by
  have range := fits.inodeOff_range number
  have perBlock := fits.perBlock.1
  have fetched := inodeBlock_fetched geometry fits nonneg accepted inDevice
  refine (getInode_ok_iff ..).mpr ⟨accepted, by lia, fits.cacheHolds number,
    s.inodeCache number, s.record (inodeTransfer s.fsd false number), fetched, ?_, rfl⟩
  rw [inodeAddress_exact geometry fits nonneg accepted]
  apply ofBytes_congr
  intro k inside
  have cached := copy_inside s.blockCache (shift s.device.blocks.bytes
    (s.fsd.inodeBlock number * s.fsd.blocksz.toInt).toNat) 0 s.fsd.blocksz.toInt.toNat
    ((s.fsd.inodeOff number).toNat + k) (by omega)
  rw [Nat.zero_add, shift_apply, ← Nat.add_assoc] at cached
  exact cached.symm

/-- The state after an inode has been stored. -/
def State.stored (s : State) (number : Int) (inode : Inode) : State :=
  (((s.record (inodeTransfer s.fsd false number)).withCache
    (cacheWith (s.inodeCache number) (s.fsd.inodeOff number) inode)).withBytes
      (copy s.device.blocks.bytes (s.fsd.inodeAddress number) inode.bytes 64)).record
        (inodeTransfer s.fsd true number)

include geometry fits nonneg accepted inDevice in
/-- Writing a cached block back replaces the inode's whole block. -/
theorem inodeBlock_written (transfer : Transfer) (cache : Memory) :
    ((s.record transfer).withCache cache).bwrite (s.fsd.inodeBlock number) 0 cache
        (some blockCacheSize) s.fsd.blocksz.toInt =
      some ((((s.record transfer).withCache cache).withBytes
        (copy s.device.blocks.bytes (s.fsd.inodeBlock number * s.fsd.blocksz.toInt).toNat cache
          s.fsd.blocksz.toInt.toNat)).record (inodeTransfer s.fsd true number)) := by
  have low := inodeBlock_nonneg geometry fits nonneg accepted
  have good : 0 < s.device.blocksize.toInt := by
    rw [geometry.blocksz]
    exact geometry.positive
  have address := geometry.addressOf (s.fsd.inodeBlock number) 0 low inDevice
  have holds := inodeBlock_holds geometry fits nonneg accepted inDevice
  have stored := bwrite_done ((s.record transfer).withCache cache) (s.fsd.inodeBlock number) 0
    cache (some blockCacheSize) s.fsd.blocksz.toInt good
    (by rw [withCache_addressOf, record_addressOf]; exact holds) fits.room
  rw [withCache_addressOf, record_addressOf, address, Int.add_zero] at stored
  exact stored

include geometry fits nonneg accepted inDevice in
/-- A store replaces the sixty-four bytes at the inode's address. The rest of the
block is written back as it was read. -/
theorem putInode_exact (inode : Inode) :
    fsPutInodeByNum s 0 number inode = some (.ok OK, s.stored number inode) := by
  have range := fits.inodeOff_range number
  have perBlock := fits.perBlock.1
  have written := inodeBlock_written geometry fits nonneg accepted inDevice
    (inodeTransfer s.fsd false number)
    (cacheWith (s.inodeCache number) (s.fsd.inodeOff number) inode)
  have replaced : copy s.device.blocks.bytes
      (s.fsd.inodeBlock number * s.fsd.blocksz.toInt).toNat
      (cacheWith (s.inodeCache number) (s.fsd.inodeOff number) inode) s.fsd.blocksz.toInt.toNat =
      copy s.device.blocks.bytes (s.fsd.inodeAddress number) inode.bytes 64 := by
    rw [inodeAddress_exact geometry fits nonneg accepted]
    exact copy_written_back _ _ _ _ _ _ _ (by unfold sizeofInode; omega)
  rw [replaced] at written
  exact (putInode_ok_iff ..).mpr ⟨accepted, by omega, fits.cacheHolds number, rfl, _, _,
    inodeBlock_fetched geometry fits nonneg accepted inDevice, written⟩

/-- A window of a block ends before a window of a later block, or a later window
of the same block, begins. -/
theorem window_before {blocksz leftBlock rightBlock leftOff rightOff : Int}
    (positive : 0 < blocksz) (nonneg : 0 ≤ leftBlock) (leftLow : 0 ≤ leftOff)
    (leftHigh : leftOff + 64 ≤ blocksz) (rightLow : 0 ≤ rightOff)
    (ordered : leftBlock < rightBlock ∨ leftBlock = rightBlock ∧ leftOff + 64 ≤ rightOff) :
    (leftBlock * blocksz).toNat + leftOff.toNat + 64 ≤
      (rightBlock * blocksz).toNat + rightOff.toNat := by
  have start : 0 ≤ leftBlock * blocksz := Int.mul_nonneg nonneg (le_of_lt positive)
  rcases ordered with smaller | ⟨rfl, later⟩
  · have below : (leftBlock + 1) * blocksz ≤ rightBlock * blocksz :=
      Int.mul_le_mul_of_nonneg_right smaller (le_of_lt positive)
    rw [Int.add_mul, Int.one_mul] at below
    omega
  · lia

include geometry fits in
/-- The bytes of a lower inode end before those of a higher one begin.

Both quotients and both remainders are compared: a smaller quotient selects an
earlier block, an equal one leaves the smaller remainder. -/
theorem inodeAddress_lt {left right : Int} (leftNonneg : 0 ≤ left) (less : left < right)
    (rightAccepted : right ≤ s.fsd.ninodes.toInt) :
    s.fsd.inodeAddress left + 64 ≤ s.fsd.inodeAddress right := by
  have leftAccepted : left ≤ s.fsd.ninodes.toInt := le_of_lt (lt_of_lt_of_le less rightAccepted)
  have rightNonneg : 0 ≤ right := le_of_lt (lt_of_le_of_lt leftNonneg less)
  have bound := (toInt_range s.fsd.ninodes).2
  have positive : (0 : Int) < s.fsd.inodesPerBlock := by exact_mod_cast fits.perBlock.1
  rw [inodeAddress_exact geometry fits leftNonneg leftAccepted,
    inodeAddress_exact geometry fits rightNonneg rightAccepted]
  apply window_before geometry.positive (inodeBlock_nonneg geometry fits leftNonneg leftAccepted)
    (fits.inodeOff_range left).1 (fits.inodeOff_range left).2 (fits.inodeOff_range right).1
  rw [(inodeBlock_exact s geometry fits left leftNonneg leftAccepted).1,
    (inodeBlock_exact s geometry fits right rightNonneg rightAccepted).1,
    fits.inodeOff, fits.inodeOff, Int.natCast_mod, Int.natCast_mod,
    unsigned_of_nonneg left leftNonneg (by omega), unsigned_of_nonneg right rightNonneg (by lia)]
  generalize (s.fsd.inodesPerBlock : Int) = perBlock at positive ⊢
  have ordered : left / perBlock ≤ right / perBlock := Int.ediv_le_ediv positive (le_of_lt less)
  have leftDivided := Int.mul_ediv_add_emod left perBlock
  have rightDivided := Int.mul_ediv_add_emod right perBlock
  rcases lt_or_eq_of_le ordered with smaller | same
  · exact Or.inl (by omega)
  · rw [same] at leftDivided ⊢
    exact Or.inr ⟨rfl, by lia⟩

include geometry fits in
/-- The bytes of two inodes do not overlap. -/
theorem inodeAddress_apart {left right : Int} (leftNonneg : 0 ≤ left)
    (leftAccepted : left ≤ s.fsd.ninodes.toInt) (rightNonneg : 0 ≤ right)
    (rightAccepted : right ≤ s.fsd.ninodes.toInt) (different : left ≠ right) :
    s.fsd.inodeAddress left + 64 ≤ s.fsd.inodeAddress right ∨
      s.fsd.inodeAddress right + 64 ≤ s.fsd.inodeAddress left := by
  rcases lt_or_gt_of_ne different with less | greater
  · exact Or.inl (inodeAddress_lt geometry fits leftNonneg less rightAccepted)
  · exact Or.inr (inodeAddress_lt geometry fits rightNonneg greater leftAccepted)

end Stored

/-- Storing an inode keeps the geometry. -/
theorem stored_same (s : State) (number : Int) (inode : Inode) :
    SameGeometry s (s.stored number inode) :=
  sameGeometry_trans (record_same s _) (sameGeometry_trans (withCache_same _ _)
    (sameGeometry_trans (withBytes_same _ _) (record_same _ _)))

@[simp] theorem stored_fsd (s : State) (number : Int) (inode : Inode) :
    (s.stored number inode).fsd = s.fsd := by
  rw [State.stored, record_fsd, withBytes_fsd, withCache_fsd, record_fsd]

@[simp] theorem stored_bytes (s : State) (number : Int) (inode : Inode) :
    (s.stored number inode).device.blocks.bytes =
      copy s.device.blocks.bytes (s.fsd.inodeAddress number) inode.bytes 64 := by
  rw [State.stored, record_device, withBytes_bytes]

@[simp] theorem stored_transfers (s : State) (number : Int) (inode : Inode) :
    (s.stored number inode).transfers = s.transfers ++ [inodeTransfer s.fsd false number] ++
      [inodeTransfer s.fsd true number] := by
  rw [State.stored, record_transfers, withBytes_transfers, withCache_transfers, record_transfers]

@[simp] theorem stored_oft (s : State) (number : Int) (inode : Inode) :
    (s.stored number inode).oft = s.oft := by
  rw [State.stored, record_oft, withBytes_oft, withCache_oft, record_oft]

section Region

variable {s : State} (geometry : Geometry s) (fits : CacheFits s.fsd) {number : Int}
  (within : InodeWithin s.fsd number)

include geometry fits within in
/-- The block of a number within the inode region lies in that region, hence in
the device. -/
theorem inodeBlock_within :
    2 ≤ s.fsd.inodeBlock number ∧ s.fsd.inodeBlock number < s.fsd.firstDataBlock ∧
      s.fsd.inodeBlock number < s.fsd.nblocks.toInt := by
  obtain ⟨nonneg, accepted, _⟩ := id within
  obtain ⟨exact, inside⟩ := inodeBlock_exact s geometry fits number nonneg accepted
  have quotient : 0 ≤ number / s.fsd.inodesPerBlock := Int.ediv_nonneg nonneg (Int.natCast_nonneg _)
  have below := inside.mpr within
  refine ⟨?_, below, lt_of_lt_of_le below geometry.regionFits.2⟩
  rw [exact]
  exact Int.le_add_of_nonneg_right quotient

include geometry fits within in
/-- The inode stored under a number within the region is the one its bytes spell. -/
theorem storedInode_exact : storedInode s number =
    some (Inode.ofBytes s.device.blocks.bytes (s.fsd.inodeAddress number)) := by
  unfold storedInode
  rw [getInode_exact geometry fits within.1 within.2.1
    (inodeBlock_within geometry fits within).2.2]
  rfl

include geometry fits within in
/-- The bytes of an inode within the region end before the data region begins. -/
theorem inodeAddress_below :
    (s.fsd.inodeAddress number + 64 : Int) ≤ s.fsd.firstDataBlock * s.fsd.blocksz.toInt := by
  have positive := geometry.positive
  obtain ⟨low, high, _⟩ := inodeBlock_within geometry fits within
  obtain ⟨offLow, offHigh⟩ := fits.inodeOff_range number
  have below : (s.fsd.inodeBlock number + 1) * s.fsd.blocksz.toInt ≤
      s.fsd.firstDataBlock * s.fsd.blocksz.toInt :=
    Int.mul_le_mul_of_nonneg_right high (le_of_lt positive)
  have start : 0 ≤ s.fsd.inodeBlock number * s.fsd.blocksz.toInt :=
    Int.mul_nonneg (le_trans (by decide) low) (le_of_lt positive)
  rw [Int.add_mul, Int.one_mul] at below
  unfold Fsystem.inodeAddress
  generalize s.fsd.inodeOff number = offset at *
  generalize s.fsd.inodeBlock number * s.fsd.blocksz.toInt = base at *
  rw [Int.toNat_of_nonneg (by lia)]
  omega

end Region

/-- A number that neither function answers with `SYSERR`. -/
def Accepts (s : State) (number : Int) : Prop :=
  (∀ failure next, fsGetInodeByNum s 0 number ≠ some (.error failure, next)) ∧
    ∀ inode failure next, fsPutInodeByNum s 0 number inode ≠ some (.error failure, next)

/-- The accepted numbers are those not above the inode count. -/
theorem accepts_iff (s : State) (number : Int) :
    Accepts s number ↔ number ≤ s.fsd.ninodes.toInt := by
  constructor
  · rintro ⟨reads, _⟩
    by_contra above
    apply reads (.inodeOutOfRange "fs_get_inode_by_num" number) s
    unfold fsGetInodeByNum
    rw [if_neg (not_not.mpr rfl), if_pos (not_le.mp above)]
  · intro accepted
    refine ⟨?_, ?_⟩
    · intro failure next done
      rcases getInode_cases _ _ _ _ done with ⟨above, _⟩ | ⟨_, ⟨_, impossible⟩, _⟩
      · exact absurd accepted (not_le.mpr above)
      · cases impossible
    · intro inode failure next done
      rcases putInode_cases _ _ _ _ _ done with ⟨above, _⟩ | ⟨_, impossible, _⟩
      · exact absurd accepted (not_le.mpr above)
      · cases impossible

/-- The transfers a step adds to the record. -/
def newTransfers (before after : State) : List Transfer :=
  after.transfers.drop before.transfers.length

/-- Reading and storing under a number touch the inode region only; what is
stored is read back, and no other inode and no byte of the data region changes. -/
def InodeIsolated (s : State) (number : Int) : Prop :=
  ∀ inode, ∃ found got put,
    fsGetInodeByNum s 0 number = some (.ok found, got) ∧
    fsPutInodeByNum s 0 number inode = some (.ok OK, put) ∧
    (∀ transfer ∈ newTransfers s got ++ newTransfers s put,
      2 ≤ transfer.block ∧ transfer.block < 2 + s.fsd.numInodeBlocks) ∧
    storedInode put number = some inode ∧
    (∀ other, InodeWithin s.fsd other → other ≠ number →
      storedInode put other = storedInode s other) ∧
    (∀ address : Nat, s.fsd.firstDataBlock * s.fsd.blocksz.toInt ≤ address →
      put.device.blocks.bytes address = s.device.blocks.bytes address)

/-- Numbers within the region are isolated. -/
theorem within_isolated (s : State) (geometry : Geometry s) (fits : CacheFits s.fsd)
    (number : Int) (within : InodeWithin s.fsd number) : InodeIsolated s number := by
  obtain ⟨nonneg, accepted, _⟩ := id within
  obtain ⟨low, high, inDevice⟩ := inodeBlock_within geometry fits within
  have below := inodeAddress_below geometry fits within
  intro inode
  have putDone := putInode_exact geometry fits nonneg accepted inDevice inode
  have putSame := stored_same s number inode
  have putFsd := stored_fsd s number inode
  have putBytes := stored_bytes s number inode
  have putTransfers := stored_transfers s number inode
  generalize s.stored number inode = put at putDone putSame putFsd putBytes putTransfers
  have putGeometry : Geometry put := putSame.sound geometry
  have putFits : CacheFits put.fsd := by
    rw [putFsd]
    exact fits
  refine ⟨_, _, put, getInode_exact geometry fits nonneg accepted inDevice, putDone,
    ?_, ?_, ?_, ?_⟩
  · intro transfer member
    have named : transfer.block = s.fsd.inodeBlock number := by
      simp only [newTransfers, withCache_transfers, record_transfers,
        putTransfers, List.drop_left, List.append_assoc, List.mem_append,
        List.mem_singleton] at member
      rcases member with rfl | rfl | rfl <;> rfl
    rw [named, ← geometry.firstDataBlock]
    exact ⟨low, high⟩
  · have putWithin : InodeWithin put.fsd number := by
      rw [putFsd]
      exact within
    rw [storedInode_exact putGeometry putFits putWithin]
    congr 1
    refine Eq.trans ?_ (ofBytes_bytes inode)
    apply ofBytes_congr
    intro k inside
    rw [putFsd, putBytes, copy_inside _ _ _ _ _ inside, Nat.zero_add]
  · intro other otherWithin different
    have putWithin : InodeWithin put.fsd other := by
      rw [putFsd]
      exact otherWithin
    rw [storedInode_exact putGeometry putFits putWithin,
      storedInode_exact geometry fits otherWithin]
    congr 1
    apply ofBytes_congr
    intro k inside
    have apart := inodeAddress_apart geometry fits otherWithin.1 otherWithin.2.1 nonneg accepted
      different
    rw [putFsd, putBytes]
    generalize s.fsd.inodeAddress other = otherAddress at *
    generalize s.fsd.inodeAddress number = numberAddress at *
    rw [copy_outside _ _ _ _ _ (by lia)]
  · intro address beyond
    rw [putBytes]
    generalize s.fsd.inodeAddress number = numberAddress at *
    generalize s.fsd.firstDataBlock * s.fsd.blocksz.toInt = start at *
    rw [copy_outside _ _ _ _ _ (Or.inr (by lia))]

/-- With 512-byte blocks eight inodes share a block. -/
theorem perBlock_eight (fsd : Fsystem) (size : fsd.blocksz = 512) : fsd.inodesPerBlock = 8 := by
  unfold Fsystem.inodesPerBlock
  rw [size]
  decide

theorem cacheFits_512 (fsd : Fsystem) (size : fsd.blocksz = 512) : CacheFits fsd :=
  ⟨by rw [size]; decide, by rw [size]; decide⟩

/-- An accepted number is isolated exactly when it is not negative and is below
the inode count, or the count does not fill its last block. -/
theorem isolated_iff (s : State) (geometry : Geometry s) (size : s.fsd.blocksz = 512)
    (number : Int32) (accepted : Accepts s number.toInt) :
    InodeIsolated s number.toInt ↔
      0 ≤ number.toInt ∧ (number.toInt < s.fsd.ninodes.toInt ∨ s.fsd.ninodes.toInt % 8 ≠ 0) := by
  have fits := cacheFits_512 s.fsd size
  have perBlock := perBlock_eight s.fsd size
  have notAbove := (accepts_iff s number.toInt).mp accepted
  have withinIff : InodeWithin s.fsd number.toInt ↔
      0 ≤ number.toInt ∧ (number.toInt < s.fsd.ninodes.toInt ∨ s.fsd.ninodes.toInt % 8 ≠ 0) := by
    unfold InodeWithin
    rw [perBlock]
    constructor
    · rintro ⟨nonneg, _, notFull⟩
      refine ⟨nonneg, ?_⟩
      rcases lt_or_eq_of_le notAbove with below | last
      · exact Or.inl below
      · exact Or.inr (notFull last)
    · rintro ⟨nonneg, below | notFull⟩
      · exact ⟨nonneg, notAbove, fun last => absurd last (ne_of_lt below)⟩
      · exact ⟨nonneg, notAbove, fun _ => notFull⟩
  rw [← withinIff]
  constructor
  · intro isolated
    obtain ⟨_, got, _, getDone, _, touched, _⟩ := isolated zeroInode
    have recorded : inodeTransfer s.fsd false number.toInt ∈ newTransfers s got := by
      rcases getInode_cases _ _ _ _ getDone with ⟨above, _⟩ | ⟨_, _, transfers⟩
      · exact absurd notAbove (not_le.mpr above)
      · rw [newTransfers, transfers, List.drop_left]
        exact List.mem_singleton.mpr rfl
    obtain ⟨_, inside⟩ := touched _ (List.mem_append_left _ recorded)
    have block : s.fsd.inodeBlock number.toInt < s.fsd.firstDataBlock := by
      rw [geometry.firstDataBlock, ← inodeTransfer_block s.fsd false number.toInt]
      exact inside
    rcases le_or_gt 0 number.toInt with nonneg | negative
    · exact (inodeBlock_exact s geometry fits number.toInt nonneg notAbove).2.mp block
    · exfalso
      have bound := toInt_range number
      have region := geometry.regionFits.2
      have product := geometry.product
      rw [size] at product
      have far : s.fsd.inodeBlock number.toInt = 2 + (number.toInt + 2 ^ 32) / 8 := by
        have reading : (unsigned number.toInt : Int) = number.toInt + 2 ^ 32 := by
          unfold unsigned
          lia
        unfold Fsystem.inodeBlock firstInodeBlock
        rw [perBlock]
        rw [Int.natCast_div, reading, wrap_of_range (_ / _) (by lia) (by lia),
          wrap_of_range _ (by lia) (by lia), Int.add_comm]
        rfl
      have named : (512 : Int32).toInt = 512 := by decide
      rw [named] at product
      lia
  · exact within_isolated s geometry fits number.toInt

/-- A step writes to no data block and changes no byte of one. -/
def SparesData (before after : State) : Prop :=
  (∀ transfer ∈ newTransfers before after, transfer.write = true →
    transfer.block < 2 + before.fsd.numInodeBlocks) ∧
  (∀ address : Nat, before.fsd.firstDataBlock * before.fsd.blocksz.toInt ≤ address →
    after.device.blocks.bytes address = before.device.blocks.bytes address)

/-- A step that keeps the bytes of the device and issues reads only spares the data. -/
theorem sparesData_of_reads (before after : State) (reads : List Transfer)
    (recorded : after.transfers = before.transfers ++ reads)
    (onlyReads : ∀ transfer ∈ reads, transfer.write = false)
    (bytes : after.device.blocks.bytes = before.device.blocks.bytes) : SparesData before after := by
  refine ⟨?_, fun address _ => by rw [bytes]⟩
  intro transfer member isWrite
  rw [newTransfers, recorded, List.drop_left] at member
  rw [onlyReads transfer member] at isWrite
  cases isWrite

/-- The inode `fs_create` stores spares the data exactly when its number is not the
inode count, or the count does not fill its last block.

After the store, only reads follow. A number above the count stores nothing. The
count itself is accepted, and selects the first data block where it fills its last
block. -/
theorem create_spares_iff (s next : State) (answers : Answers) (filename : CString) (mode : Int32)
    (value : Return) (geometry : Geometry s) (fits : CacheFits s.fsd)
    (done : fsCreate s answers filename mode = some (value, next)) :
    SparesData s next ↔ CreateRefused s answers filename mode ∨
      (s.fsd.inodesUsed : Int) ≠ s.fsd.ninodes.toInt ∨
      s.fsd.ninodes.toInt % s.fsd.inodesPerBlock ≠ 0 := by
  rcases create_cases _ _ _ _ _ _ done with
    ⟨refused, rfl, _⟩ | ⟨accepted, chunk, put, stored, _, putDone, outcome⟩
  · exact ⟨fun _ => Or.inl refused,
      fun _ => sparesData_of_reads next next [] (by simp) (by simp) rfl⟩
  obtain ⟨reads, recorded, onlyReads, sameBytes⟩ : ∃ reads,
      next.transfers = stored.transfers ++ reads ∧ (∀ transfer ∈ reads, transfer.write = false) ∧
      next.device.blocks.bytes = stored.device.blocks.bytes := by
    rcases outcome with ⟨_, rfl, _⟩ | ⟨room, opened, _, _, openDone, _⟩
    · exact ⟨[], by simp, by simp, rfl⟩
    · obtain ⟨reads, recorded, onlyReads⟩ := open_transfers openDone
      exact ⟨reads, recorded, onlyReads, by rw [(open_frame openDone).2]; rfl⟩
  have takenSame : SameGeometry s s.inodeTaken := ⟨rfl, rfl, rfl, rfl, rfl, rfl, rfl⟩
  have takenGeometry : Geometry s.inodeTaken := takenSame.sound geometry
  have takenFits : CacheFits s.inodeTaken.fsd := ⟨fits.low, fits.high⟩
  rcases putInode_cases _ _ _ _ _ putDone with ⟨above, rfl, _⟩ | ⟨notAbove, _, putTransfers⟩
  · refine ⟨fun _ => Or.inr (Or.inl ?_), fun _ => sparesData_of_reads s next reads recorded
      onlyReads sameBytes⟩
    exact ne_of_gt above
  · have block := inodeBlock_exact s.inodeTaken takenGeometry takenFits s.fsd.inodesUsed
      (Int.natCast_nonneg _) notAbove
    constructor
    · rintro ⟨writes, _⟩
      right
      have member : inodeTransfer s.inodeTaken.fsd true s.fsd.inodesUsed ∈ newTransfers s next := by
        rw [newTransfers, recorded, putTransfers, List.append_assoc, List.append_assoc]
        have same : s.inodeTaken.transfers = s.transfers := rfl
        rw [same, List.drop_left]
        simp
      have inside := writes _ member rfl
      rw [inodeTransfer_block, ← geometry.firstDataBlock] at inside
      have within : InodeWithin s.inodeTaken.fsd s.fsd.inodesUsed := block.2.mp inside
      by_cases last : (s.fsd.inodesUsed : Int) = s.fsd.ninodes.toInt
      · exact Or.inr (within.2.2 last)
      · exact Or.inl last
    · rintro (refused | within)
      · exact absurd refused accepted
      · have inRegion : InodeWithin s.inodeTaken.fsd s.fsd.inodesUsed := by
          refine ⟨Int.natCast_nonneg _, notAbove, ?_⟩
          intro last
          rcases within with different | notFull
          · exact absurd last different
          · exact notFull
        obtain ⟨_, below, inDevice⟩ := inodeBlock_within takenGeometry takenFits inRegion
        have exact := putInode_exact takenGeometry takenFits (Int.natCast_nonneg _) notAbove
          inDevice (freshInode chunk s.fsd.inodesUsed)
        rw [putDone, Option.some.injEq, Prod.mk.injEq] at exact
        have bytes := stored_bytes s.inodeTaken s.fsd.inodesUsed
          (freshInode chunk s.fsd.inodesUsed)
        rw [← exact.2] at bytes
        have end_ := inodeAddress_below takenGeometry takenFits inRegion
        refine ⟨?_, ?_⟩
        · intro transfer member isWrite
          rw [newTransfers, recorded, putTransfers, List.append_assoc, List.append_assoc] at member
          have same : s.inodeTaken.transfers = s.transfers := rfl
          rw [same, List.drop_left] at member
          rcases List.mem_append.mp member with first | rest
          · rw [List.mem_singleton.mp first] at isWrite
            cases isWrite
          · rcases List.mem_append.mp rest with second | read
            · rw [List.mem_singleton.mp second, inodeTransfer_block, ← geometry.firstDataBlock]
              exact below
            · rw [onlyReads transfer read] at isWrite
              cases isWrite
        · intro address beyond
          rw [sameBytes, bytes]
          have start : s.inodeTaken.fsd.firstDataBlock * s.inodeTaken.fsd.blocksz.toInt ≤
            address := beyond
          generalize s.inodeTaken.fsd.inodeAddress s.fsd.inodesUsed = slot at *
          generalize s.inodeTaken.fsd.firstDataBlock * s.inodeTaken.fsd.blocksz.toInt = region at *
          rw [copy_outside _ _ _ _ _ (Or.inr (by lia))]
          rfl

/-- On a device of 512-byte blocks formatted for any positive number of inodes,
after every run of calls on files: an accepted inode number is isolated exactly
when it is not negative and is below the count, or the count is no multiple of
eight; and `fs_create` spares the data blocks under the same condition on the
number it uses. -/
theorem inode_region_iff (count inodes : Int32) (first last : State)
    (events : List (Event State Call Reply)) (formatted : FormattedBy 512 count inodes first)
    (positive : 0 < inodes.toInt) (region : 2 + (first.fsd.numInodeBlocks : Int) ≤ count.toInt)
    (product : count.toInt * 512 < 2 ^ 31)
    (run : Run exec first events last) (onFiles : ∀ event ∈ events, event.call.OnFiles) :
    (∀ number : Int32, Accepts last number.toInt →
      (InodeIsolated last number.toInt ↔
        0 ≤ number.toInt ∧ (number.toInt < inodes.toInt ∨ inodes.toInt % 8 ≠ 0))) ∧
    (∀ answers filename mode reply next,
      exec last (.create answers filename mode) = some (reply, next) →
      (SparesData last next ↔ CreateRefused last answers filename mode ∨
        (last.fsd.inodesUsed : Int) ≠ inodes.toInt ∨ inodes.toInt % 8 ≠ 0)) := by
  have countNonzero : count ≠ 0 := by
    rintro rfl
    have zero : (0 : Int32).toInt = 0 := by decide
    rw [zero] at region
    omega
  have exact := formatted_exact 512 count inodes first (by decide) countNonzero formatted
  have same : SameGeometry first last := invariant_last (SameGeometry first)
    (fun _ (call : Call) => call.OnFiles)
    (fun _ _ _ _ kept onFiles completed => sameGeometry_trans kept (exec_same onFiles completed))
    first last events run (sameGeometry_refl first) onFiles
  have geometry : Geometry last := same.sound (exact.geometry (by decide) product region)
  have size : last.fsd.blocksz = 512 := by rw [same.blocksz, exact.blocksz]
  have number : last.fsd.ninodes = inodes := by
    rw [same.ninodes, exact.ninodes, if_neg (by omega)]
  refine ⟨?_, ?_⟩
  · intro accepted holds
    rw [isolated_iff last geometry size accepted holds, number]
  · intro answers filename mode reply next done
    rw [create_spares_iff last next answers filename mode reply.value geometry
      (cacheFits_512 last.fsd size) (exec_create done), number, perBlock_eight last.fsd size]
    rfl

/-- The law applies to a device of sixteen blocks formatted for sixteen inodes,
after a file has been created. -/
theorem inode_region_after_create : ∃ first events last,
    FormattedBy 512 16 16 first ∧ Run exec first events last ∧ events.length = 1 ∧
    (∀ number : Int32, Accepts last number.toInt →
      (InodeIsolated last number.toInt ↔
        0 ≤ number.toInt ∧ (number.toInt < (16 : Int32).toInt ∨ (16 : Int32).toInt % 8 ≠ 0))) ∧
    (∀ answers filename mode reply next,
      exec last (.create answers filename mode) = some (reply, next) →
      (SparesData last next ↔ CreateRefused last answers filename mode ∨
        (last.fsd.inodesUsed : Int) ≠ (16 : Int32).toInt ∨ (16 : Int32).toInt % 8 ≠ 0)) := by
  obtain ⟨first, events, last, formatted, run, checked⟩ := formatted_trace_exists 512 16 16
    [.create granting fileA oCreat]
    (fun events _ => events.length == 1 && events.all fun event => decide event.call.OnFiles)
    (by decide +kernel)
  rw [Bool.and_eq_true] at checked
  have onFiles : ∀ event ∈ events, event.call.OnFiles := fun event member =>
    of_decide_eq_true (List.all_eq_true.mp checked.2 event member)
  have region : 2 + (first.fsd.numInodeBlocks : Int) ≤ (16 : Int32).toInt := by
    rw [formatted_inodeBlocks 512 16 16 first (by decide) (by decide) formatted]
    decide
  exact ⟨first, events, last, formatted, run, by simpa using checked.1,
    inode_region_iff 16 16 first last events formatted (by decide) region (by decide) run onFiles⟩

/-- With eight inodes, number 8 is accepted and its inode lies in the first data
block. -/
theorem last_inode_in_data_block :
    ¬ ∀ (count inodes : Int32) (first : State), FormattedBy 512 count inodes first →
      0 < inodes.toInt → 2 + (first.fsd.numInodeBlocks : Int) ≤ count.toInt →
      count.toInt * 512 < 2 ^ 31 →
      ∀ number : Int32, Accepts first number.toInt → InodeIsolated first number.toInt := by
  intro isolated
  obtain ⟨first, events, last, formatted, _, _⟩ := formatted_trace_exists 512 16 8 []
    (fun _ _ => true) (by decide +kernel)
  have exact := formatted_exact 512 16 8 first (by decide) (by decide) formatted
  have region : 2 + (first.fsd.numInodeBlocks : Int) ≤ (16 : Int32).toInt := by
    rw [formatted_inodeBlocks 512 16 8 first (by decide) (by decide) formatted]
    decide
  have accepted : Accepts first (8 : Int32).toInt := by
    rw [accepts_iff, exact.ninodes]
    decide
  have geometry : Geometry first := exact.geometry (by decide) (by decide) region
  have alone := isolated 16 8 first formatted (by decide) region (by decide) 8 accepted
  rw [isolated_iff first geometry exact.blocksz 8 accepted, exact.ninodes] at alone
  exact absurd alone (by decide)

end Xinu.FileSystem
