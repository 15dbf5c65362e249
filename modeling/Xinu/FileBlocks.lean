import Xinu.InodeRegion

/-!
# The transfer loops of `fs_read` and `fs_write`

Both calls walk over the block list from the first block that begins at or after
the file position to the last block below the end of the range. Counting the
blocks a size occupies, that is an interval of block indices. Each turn transfers
one chunk, which stays inside its block.

A loop whose indices lie in the block list and whose blocks lie in the data region
completes. It leaves every byte outside its blocks as it was.
-/

namespace Xinu.FileSystem

open CIntegers BlockStore Runs

/-- The number of blocks that hold a number of bytes. -/
def blocksFor (size blocksz : Int) : Int := (size + blocksz - 1) / blocksz

/-- Block `i` is among them exactly when it begins below the size. -/
theorem lt_blocksFor_iff (i size blocksz : Int) (positive : 0 < blocksz) :
    i < blocksFor size blocksz ↔ i * blocksz < size := by
  unfold blocksFor
  rw [Int.lt_iff_add_one_le, Int.le_ediv_iff_mul_le positive, Int.add_mul, Int.one_mul]
  lia

theorem blocksFor_nonneg (size blocksz : Int) (positive : 0 < blocksz) (nonneg : 0 ≤ size) :
    0 ≤ blocksFor size blocksz :=
  Int.ediv_nonneg (by omega) (le_of_lt positive)

theorem blocksFor_mono (small large blocksz : Int) (positive : 0 < blocksz)
    (ordered : small ≤ large) : blocksFor small blocksz ≤ blocksFor large blocksz :=
  Int.ediv_le_ediv positive (by lia)

/-- The count is determined by the two multiples of the block size around the
size. -/
theorem blocksFor_eq (count size blocksz : Int) (positive : 0 < blocksz)
    (above : (count - 1) * blocksz < size) (below : size ≤ count * blocksz) :
    blocksFor size blocksz = count := by
  have low := (lt_blocksFor_iff (count - 1) size blocksz positive).mpr above
  have high := mt (lt_blocksFor_iff count size blocksz positive).mp (not_lt.mpr below)
  lia

/-- A file shorter than twelve blocks uses at most twelve. -/
theorem blocksFor_le (size blocksz : Int) (positive : 0 < blocksz)
    (short : size < 12 * blocksz) : blocksFor size blocksz ≤ 12 := by
  by_contra large
  have used := (lt_blocksFor_iff 12 size blocksz positive).mp (not_le.mp large)
  omega

/-- The index the code computes for a position is that of the last block the
position's bytes occupy. -/
theorem blockBefore_exact (position blocksz : Int) (positive : 0 < blocksz)
    (nonneg : 0 ≤ position) (small : position < 2 ^ 31) :
    blockBefore position blocksz = blocksFor position blocksz - 1 := by
  have divided := Int.mul_ediv_add_emod position blocksz
  have remainder := Int.emod_lt_of_pos position positive
  have remainderNonneg := Int.emod_nonneg position (ne_of_gt positive)
  have quotient : 0 ≤ position / blocksz := Int.ediv_nonneg nonneg (le_of_lt positive)
  have quotientSmall : position / blocksz ≤ position := Int.ediv_le_self _ nonneg
  unfold blockBefore
  rw [Int.tmod_eq_emod_of_nonneg nonneg, Int.tdiv_eq_ediv_of_nonneg nonneg]
  split
  case isTrue boundary =>
    rw [wrap_of_range _ (by lia) (by lia)]
    rw [blocksFor_eq (position / blocksz) position blocksz positive]
    · rw [Int.sub_mul, Int.one_mul, Int.mul_comm]
      omega
    · rw [Int.mul_comm]
      omega
  case isFalse inside =>
    rw [blocksFor_eq (position / blocksz + 1) position blocksz positive]
    · lia
    · rw [Int.add_sub_cancel, Int.mul_comm]
      omega
    · rw [Int.add_mul, Int.one_mul, Int.mul_comm]
      omega

/-- The chunk of a turn stays inside its block. -/
theorem chunkOf_range (blocksz fileptr newSize start last i : Int) (positive : 0 < blocksz)
    (fromNonneg : 0 ≤ fileptr) (endNonneg : 0 ≤ newSize) :
    0 ≤ (chunkOf blocksz fileptr newSize start last i).1 ∧
      (chunkOf blocksz fileptr newSize start last i).1 < blocksz ∧
      0 ≤ (chunkOf blocksz fileptr newSize start last i).2 ∧
      (chunkOf blocksz fileptr newSize start last i).1 +
        (chunkOf blocksz fileptr newSize start last i).2 ≤ blocksz := by
  have offset := Int.emod_lt_of_pos fileptr positive
  have offsetNonneg := Int.emod_nonneg fileptr (ne_of_gt positive)
  have rest := Int.emod_lt_of_pos newSize positive
  have restNonneg := Int.emod_nonneg newSize (ne_of_gt positive)
  unfold chunkOf
  rw [Int.tmod_eq_emod_of_nonneg fromNonneg, Int.tmod_eq_emod_of_nonneg endNonneg]
  split
  · dsimp only
    lia
  split
  · dsimp only
    lia
  · dsimp only
    lia

/-- A transfer names a block of the device and stays inside it. -/
def Transfer.InBounds (fsd : Fsystem) (transfer : Transfer) : Prop :=
  0 ≤ transfer.block ∧ transfer.block < fsd.nblocks.toInt ∧ 0 ≤ transfer.offset ∧
    transfer.offset + transfer.len ≤ fsd.blocksz.toInt

instance (fsd : Fsystem) (transfer : Transfer) : Decidable (transfer.InBounds fsd) :=
  inferInstanceAs (Decidable (_ ∧ _))

/-- The blocks that a loop over the indices from `i` on visits. -/
def Visits (fsd : Fsystem) (inode : Inode) (i : Int) (turns : Nat) : Prop :=
  ∀ k : Int, i ≤ k → k < i + turns → ∃ inside : 0 ≤ k ∧ k < 12,
    DataRegion fsd (inode.blocks (blockIndex k inside)).toInt

/-- Every index of a loop names a block of the data region. -/
theorem Visits.found {fsd : Fsystem} {inode : Inode} {i : Int} {turns : Nat}
    (visits : Visits fsd inode i turns) (k : Int) (low : i ≤ k) (high : k < i + turns) :
    ∃ block, inode.block k = some block ∧ DataRegion fsd block.toInt := by
  obtain ⟨inside, region⟩ := visits k low high
  refine ⟨_, ?_, region⟩
  unfold Inode.block
  rw [dif_pos inside]

/-- The first block of a loop and the blocks of the remaining turns. -/
theorem Visits.step {fsd : Fsystem} {inode : Inode} {i : Int} {turns : Nat}
    (visits : Visits fsd inode i (turns + 1)) :
    (∃ block, inode.block i = some block ∧ DataRegion fsd block.toInt) ∧
      Visits fsd inode (i + 1) turns := by
  refine ⟨visits.found i (le_refl i) (by push_cast; omega), ?_⟩
  intro k low high
  exact visits k (by omega) (by push_cast; omega)

/-- A chunk of a data block lies in the memory of the device. -/
theorem Geometry.chunk {s : State} (geometry : Geometry s) (write : Bool) (block offset size : Int)
    (region : DataRegion s.fsd block) (low : 0 ≤ offset)
    (high : offset + size ≤ s.fsd.blocksz.toInt) (nonneg : 0 ≤ size) :
    0 ≤ block * s.fsd.blocksz.toInt ∧
      s.addressOf block offset = block * s.fsd.blocksz.toInt + offset ∧
      s.device.blocks.Holds (s.addressOf block offset) size.toNat ∧
      (⟨write, block, offset, size⟩ : Transfer).InBounds s.fsd := by
  have blockNonneg : 0 ≤ block := le_trans geometry.regionFits.1 region.1
  have address := geometry.addressOf block offset blockNonneg region.2
  have memory := geometry.blockEnd block region.2
  have start : 0 ≤ block * s.fsd.blocksz.toInt :=
    Int.mul_nonneg blockNonneg (le_of_lt geometry.positive)
  refine ⟨start, address, ?_, blockNonneg, region.2, low, high⟩
  rw [address]
  refine Or.inr ⟨by lia, ?_⟩
  rw [Int.toNat_of_nonneg nonneg]
  lia

/-- An address that belongs to no byte of a block. -/
def OutsideBlock (fsd : Fsystem) (block : Int) (address : Nat) : Prop :=
  (address : Int) < block * fsd.blocksz.toInt ∨
    block * fsd.blocksz.toInt + fsd.blocksz.toInt ≤ address

/-- What a completed transfer loop shows: the transfers it issued are in bounds,
and bytes outside the blocks it visited are as before. -/
structure LoopDone (s next : State) (inode : Inode) (i : Int) (turns : Nat) : Prop where
  transfers : ∃ issued, next.transfers = s.transfers ++ issued ∧
    ∀ transfer ∈ issued, transfer.InBounds s.fsd
  bytes : ∀ address, (∀ k, i ≤ k → k < i + turns → ∀ block, inode.block k = some block →
    OutsideBlock s.fsd block.toInt address) →
    next.device.blocks.bytes address = s.device.blocks.bytes address

/-- The write loop over blocks of the data region completes.

Induct over the turns. The chunk of a turn lies in its block, so the write
completes and changes bytes of that block only. -/
theorem writeBlocks_done (inode : Inode) (fileptr newSize start last : Int) (buf : Memory)
    (turns : Nat) (i pos : Int) (s : State) (geometry : Geometry s)
    (visits : Visits s.fsd inode i turns) (fromNonneg : 0 ≤ fileptr) (endNonneg : 0 ≤ newSize)
    (posNonneg : 0 ≤ pos) :
    ∃ next, writeBlocks inode fileptr newSize start last buf turns i pos s = some next ∧
      LoopDone s next inode i turns := by
  induction turns generalizing i pos s with
  | zero => exact ⟨s, rfl, ⟨[], by simp, by simp⟩, fun _ _ => rfl⟩
  | succ turns inductionHypothesis =>
    obtain ⟨⟨block, found, region⟩, rest⟩ := visits.step
    obtain ⟨low, good, sizeNonneg, high⟩ := chunkOf_range s.fsd.blocksz.toInt fileptr newSize start
      last i geometry.positive fromNonneg endNonneg
    generalize chunk : chunkOf s.fsd.blocksz.toInt fileptr newSize start last i = piece at *
    obtain ⟨offset, size⟩ := piece
    obtain ⟨base, address, memory, inBounds⟩ := geometry.chunk true block.toInt offset size region low
      high sizeNonneg
    have written := bwrite_done s block.toInt offset (shift buf pos.toNat) none size
      (by rw [geometry.blocksz]; exact good) memory (by simp)
    generalize outcome : ((s.withBytes (copy s.device.blocks.bytes
      (s.addressOf block.toInt offset).toNat (shift buf pos.toNat) size.toNat)).record
      ⟨true, block.toInt, offset, size⟩) = middle at written
    have same : SameGeometry s middle := bwrite_same _ _ _ _ _ _ _ written
    have sameFsd : middle.fsd = s.fsd := by rw [← outcome]; rfl
    obtain ⟨next, done, ⟨issued, recorded, allInBounds⟩, kept⟩ := inductionHypothesis (i + 1)
      (pos + size) middle (same.sound geometry) (by rw [sameFsd]; exact rest) (by lia)
    refine ⟨next, ?_, ⟨⟨true, block.toInt, offset, size⟩ :: issued, ?_, ?_⟩, ?_⟩
    · simp only [writeBlocks, found, Option.bind_eq_bind, Option.bind_some, chunk]
      rw [if_neg (by omega), written, Option.bind_some]
      exact done
    · rw [recorded, ← outcome]
      simp
    · intro transfer member
      rcases List.mem_cons.mp member with rfl | later
      · exact inBounds
      · have inner := allInBounds transfer later
        unfold Transfer.InBounds at inner ⊢
        rwa [sameFsd] at inner
    · intro byte outside
      have here := outside i (le_refl i) (by push_cast; lia) block found
      rw [kept byte]
      · rw [← outcome, record_device, withBytes_bytes]
        apply copy_outside
        unfold OutsideBlock at here
        rw [address]
        lia
      · intro k from_ below other otherFound
        have later := outside k (by lia) (by push_cast; lia) other otherFound
        unfold OutsideBlock at later ⊢
        rwa [sameFsd]

/-- What the completion of the write loop shows of its final state. -/
theorem writeBlocks_loop {inode : Inode} {fileptr newSize start last : Int} {buf : Memory}
    {turns : Nat} {i pos : Int} {s next : State} (geometry : Geometry s)
    (visits : Visits s.fsd inode i turns) (fromNonneg : 0 ≤ fileptr) (endNonneg : 0 ≤ newSize)
    (posNonneg : 0 ≤ pos)
    (done : writeBlocks inode fileptr newSize start last buf turns i pos s = some next) :
    LoopDone s next inode i turns := by
  obtain ⟨other, otherDone, loop⟩ := writeBlocks_done inode fileptr newSize start last buf turns i
    pos s geometry visits fromNonneg endNonneg posNonneg
  rw [done, Option.some.injEq] at otherDone
  exact otherDone ▸ loop

/-- The read loop over blocks of the data region completes and changes the record
only. -/
theorem readBlocks_done (inode : Inode) (fileptr newSize start last : Int)
    (turns : Nat) (i pos : Int) (buf : Memory) (s : State) (geometry : Geometry s)
    (visits : Visits s.fsd inode i turns) (fromNonneg : 0 ≤ fileptr) (endNonneg : 0 ≤ newSize)
    (posNonneg : 0 ≤ pos) :
    ∃ after next, readBlocks inode fileptr newSize start last turns i pos buf s =
        some (after, next) ∧ LoopDone s next inode i turns := by
  induction turns generalizing i pos buf s with
  | zero => exact ⟨buf, s, rfl, ⟨[], by simp, by simp⟩, fun _ _ => rfl⟩
  | succ turns inductionHypothesis =>
    obtain ⟨⟨block, found, region⟩, rest⟩ := visits.step
    obtain ⟨low, good, sizeNonneg, high⟩ := chunkOf_range s.fsd.blocksz.toInt fileptr newSize start
      last i geometry.positive fromNonneg endNonneg
    generalize chunk : chunkOf s.fsd.blocksz.toInt fileptr newSize start last i = piece at *
    obtain ⟨offset, size⟩ := piece
    obtain ⟨_, _, memory, inBounds⟩ := geometry.chunk false block.toInt offset size region low
      high sizeNonneg
    have fetched := bread_done s block.toInt offset (shift buf pos.toNat) none size
      (by rw [geometry.blocksz]; exact good) memory (by simp)
    generalize copy (shift buf pos.toNat) 0 (shift s.device.blocks.bytes
      (s.addressOf block.toInt offset).toNat) size.toNat = chunkBytes at fetched
    obtain ⟨after, next, done, ⟨issued, recorded, allInBounds⟩, kept⟩ :=
      inductionHypothesis (i + 1) (pos + size) (copy buf pos.toNat chunkBytes size.toNat)
        (s.record ⟨false, block.toInt, offset, size⟩)
        ((record_same s _).sound geometry) rest (by omega)
    refine ⟨after, next, ?_, ⟨⟨false, block.toInt, offset, size⟩ :: issued, ?_, ?_⟩, ?_⟩
    · simp only [readBlocks, found, Option.bind_eq_bind, Option.bind_some, chunk]
      rw [if_neg (by omega), fetched, Option.bind_some]
      exact done
    · rw [recorded, record_transfers]
      simp
    · intro transfer member
      rcases List.mem_cons.mp member with rfl | later
      · exact inBounds
      · exact allInBounds transfer later
    · intro byte outside
      rw [kept byte]
      · rfl
      · intro k from_ below other otherFound
        exact outside k (by omega) (by push_cast; omega) other otherFound

/-- What the completion of the read loop shows of its final state. -/
theorem readBlocks_loop {inode : Inode} {fileptr newSize start last : Int} {turns : Nat}
    {i pos : Int} {buf after : Memory} {s next : State} (geometry : Geometry s)
    (visits : Visits s.fsd inode i turns) (fromNonneg : 0 ≤ fileptr) (endNonneg : 0 ≤ newSize)
    (posNonneg : 0 ≤ pos)
    (done : readBlocks inode fileptr newSize start last turns i pos buf s = some (after, next)) :
    LoopDone s next inode i turns := by
  obtain ⟨_, other, otherDone, loop⟩ := readBlocks_done inode fileptr newSize start last turns i
    pos buf s geometry visits fromNonneg endNonneg posNonneg
  rw [done, Option.some.injEq, Prod.mk.injEq] at otherDone
  exact otherDone.2 ▸ loop

end Xinu.FileSystem
