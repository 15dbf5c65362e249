import Xinu.Durability

/-!
# What the transfer loops move

On 512-byte blocks a file is meant to be a sequence of bytes with a cursor. The
loops of `fs_read` and `fs_write` agree with that on ranges that begin at a block
boundary: there the first chunk is a whole block, the chunks in between are whole
blocks, and the last chunk ends where the range ends, unless the range ends at a
block boundary and has more than one block. In that case the last chunk is empty
although a whole block is due.

A range inside one block is moved as a whole block too. A short write therefore
also replaces the bytes behind its range up to the end of the block, which is
harmless only where the file has no such bytes.
-/

namespace Xinu.FileSystem

open CIntegers BlockStore Runs

/-- A nonempty range that begins at a block boundary and, if it is longer than a
block, does not end at one. -/
structure AlignedRange (low high : Int) : Prop where
  nonneg : 0 ≤ low
  aligned : low % 512 = 0
  nonempty : low < high
  ending : high ≤ low + 512 ∨ high % 512 ≠ 0

/-- The end of the bytes that the loops move for a range: the first chunk is a
whole block. -/
def transferEnd (low high : Int) : Int := max high (low + 512)

/-- The chunk of every turn begins at its block and ends with the block or with
the bytes to be moved. -/
theorem chunkOf_aligned (low high i : Int) (range : AlignedRange low high)
    (begin : blocksFor low 512 ≤ i) (last : i < blocksFor high 512) :
    chunkOf 512 low high (blocksFor low 512 - 1) (blocksFor high 512 - 1) i =
      (0, min 512 (transferEnd low high - 512 * i)) := by
  obtain ⟨nonneg, aligned, nonempty, ending⟩ := range
  unfold chunkOf transferEnd blocksFor at *
  rw [Int.tmod_eq_emod_of_nonneg nonneg, Int.tmod_eq_emod_of_nonneg (by omega)]
  split
  case isTrue first =>
    rw [Prod.mk.injEq]
    lia
  case isFalse later =>
    split
    case isTrue final =>
      rw [Prod.mk.injEq]
      lia
    case isFalse middle =>
      rw [Prod.mk.injEq]
      lia

/-- A byte of one block lies outside every other block. -/
theorem outside_other (fsd : Fsystem) (block other offset : Int) (nonneg : 0 ≤ block)
    (low : 0 ≤ offset) (high : offset < fsd.blocksz.toInt) (different : block ≠ other) :
    OutsideBlock fsd other (block * fsd.blocksz.toInt + offset).toNat := by
  have positive : 0 ≤ fsd.blocksz.toInt := by omega
  have base : 0 ≤ block * fsd.blocksz.toInt := Int.mul_nonneg nonneg positive
  unfold OutsideBlock
  rw [Int.toNat_of_nonneg (by omega)]
  rcases lt_or_gt_of_ne different with below | above
  · have order := Int.mul_le_mul_of_nonneg_right (Int.add_one_le_of_lt below) positive
    rw [Int.add_mul, Int.one_mul] at order
    left
    omega
  · have order := Int.mul_le_mul_of_nonneg_right (Int.add_one_le_of_lt above) positive
    rw [Int.add_mul, Int.one_mul] at order
    right
    omega

/-- The byte shown at a position, where the block list covers it. -/
theorem shownByte_eq (s : State) (inode : Inode) (k : Int) (block : Int32)
    (found : inode.block (k / s.fsd.blocksz.toInt) = some block) :
    shownByte s inode k = some (s.device.blocks.bytes
      (block.toInt * s.fsd.blocksz.toInt + k % s.fsd.blocksz.toInt).toNat) := by
  unfold shownByte
  rw [found]
  rfl

/-- Two states show the same byte of a block whose bytes they agree on. -/
theorem shownByte_congr (s next : State) (inode : Inode) (k : Int) (block : Int32)
    (sameSize : next.fsd.blocksz = s.fsd.blocksz)
    (found : inode.block (k / s.fsd.blocksz.toInt) = some block)
    (sameByte : next.device.blocks.bytes
        (block.toInt * s.fsd.blocksz.toInt + k % s.fsd.blocksz.toInt).toNat =
      s.device.blocks.bytes
        (block.toInt * s.fsd.blocksz.toInt + k % s.fsd.blocksz.toInt).toNat) :
    shownByte next inode k = shownByte s inode k := by
  rw [shownByte_eq s inode k block found, shownByte_eq next inode k block (by rwa [sameSize]),
    sameSize, sameByte]

/-- A loop leaves the bytes of every block it does not visit. -/
theorem LoopDone.shown {s next : State} {inode : Inode} {i : Int} {turns : Nat}
    (loop : LoopDone s next inode i turns) (geometry : Geometry s)
    (sameSize : next.fsd.blocksz = s.fsd.blocksz) (list : Inode) (k : Int) (block : Int32)
    (nonneg : 0 ≤ block.toInt) (found : list.block (k / s.fsd.blocksz.toInt) = some block)
    (apart : ∀ j, i ≤ j → j < i + turns → inode.block j ≠ some block) :
    shownByte next list k = shownByte s list k := by
  have positive := geometry.positive
  apply shownByte_congr s next list k block sameSize found
  apply loop.bytes
  intro j low high other visited
  apply outside_other s.fsd _ _ _ nonneg (Int.emod_nonneg k (ne_of_gt positive))
    (Int.emod_lt_of_pos k positive)
  intro same
  apply apart j low high
  rw [visited, Int32.toInt_inj.mp same]

/-- One turn of the write loop that begins at the start of its block: the bytes of
the chunk are those of the buffer, all other bytes stay. -/
theorem bwrite_turn (s : State) (geometry : Geometry s) (size : s.fsd.blocksz.toInt = 512)
    (block : Int) (region : DataRegion s.fsd block) (buf : Memory) (pos : Nat) (piece : Int)
    (low : 0 ≤ piece) (high : piece ≤ 512) :
    ∃ next, s.bwrite block 0 (shift buf pos) none piece = some next ∧ next.fsd = s.fsd ∧
      (∀ offset : Int, 0 ≤ offset → offset < piece →
        next.device.blocks.bytes (block * 512 + offset).toNat = buf (pos + offset.toNat)) ∧
      ∀ address : Nat, (address : Int) < block * 512 ∨ block * 512 + piece ≤ address →
        next.device.blocks.bytes address = s.device.blocks.bytes address := by
  obtain ⟨base, address, memory, _⟩ := geometry.chunk true block 0 piece region (le_refl 0)
    (by omega) low
  refine ⟨_, bwrite_done s block 0 (shift buf pos) none piece (by rw [geometry.blocksz]; omega)
    memory (by simp), rfl, ?_, ?_⟩
  · intro offset offsetLow offsetHigh
    rw [size] at base address
    have split : (block * 512 + offset).toNat = (block * 512).toNat + offset.toNat := by lia
    rw [record_device, withBytes_bytes, address, Int.add_zero, split,
      copy_inside _ _ _ _ _ (by lia), shift_apply]
  · intro byte outside
    rw [size] at base address
    rw [record_device, withBytes_bytes, address, Int.add_zero]
    apply copy_outside
    lia

/-- No block is named twice by the indices of a loop. -/
def Apart (inode : Inode) (i : Int) (turns : Nat) : Prop :=
  ∀ j k, i ≤ j → j < k → k < i + turns → inode.block j ≠ inode.block k

theorem Apart.step {inode : Inode} {i : Int} {turns : Nat} (apart : Apart inode i (turns + 1)) :
    Apart inode (i + 1) turns :=
  fun j k low order high => apart j k (by omega) order (by push_cast; omega)

section Aligned

variable {low high : Int} (range : AlignedRange low high)

include range in
/-- The bytes an aligned range moves in one turn, and what precedes them. -/
theorem AlignedRange.turn {i : Int} (begin : blocksFor low 512 ≤ i)
    (last : i < blocksFor high 512) :
    low ≤ 512 * i ∧ 512 * i < transferEnd low high ∧
      (i + 1 < blocksFor high 512 → 512 * (i + 1) ≤ transferEnd low high) ∧
      transferEnd low high ≤ 512 * blocksFor high 512 := by
  obtain ⟨nonneg, aligned, nonempty, ending⟩ := range
  unfold transferEnd blocksFor at *
  omega

include range in
/-- The write loop over an aligned range: inside the visited blocks the bytes are
those of the buffer up to the end of the transfer, and as before behind it.

Induct over the turns. The block of the current turn is not visited again, so the
bytes of its chunk stay. -/
theorem writeBlocks_content (inode : Inode) (buf : Memory) (turns : Nat) (i : Int)
    (s next : State) (geometry : Geometry s) (size : s.fsd.blocksz.toInt = 512)
    (visits : Visits s.fsd inode i turns) (apart : Apart inode i turns)
    (begin : blocksFor low 512 ≤ i) (last : i + turns = blocksFor high 512)
    (done : writeBlocks inode low high (blocksFor low 512 - 1) (blocksFor high 512 - 1) buf turns i
      (512 * i - low) s = some next)
    (position : Int) (above : 512 * i ≤ position) (below : position < 512 * blocksFor high 512) :
    shownByte next inode position =
      if position < transferEnd low high then some (buf (position - low).toNat)
      else shownByte s inode position := by
  induction turns generalizing i s with
  | zero => omega
  | succ turns inductionHypothesis =>
    obtain ⟨⟨block, found, region⟩, rest⟩ := visits.step
    push_cast at last
    have chunk := chunkOf_aligned low high i range begin (by omega)
    obtain ⟨beginLow, reaches, continues, _⟩ := range.turn begin (by omega)
    have nonneg := range.nonneg
    have nonempty := range.nonempty
    generalize pieceSize : min 512 (transferEnd low high - 512 * i) = piece at chunk
    obtain ⟨middle, written, sameFsd, moved, kept⟩ := bwrite_turn s geometry size block.toInt region
      buf (512 * i - low).toNat piece (by lia) (by lia)
    have same : SameGeometry s middle := bwrite_same _ _ _ _ _ _ _ written
    have middleGeometry := same.sound geometry
    have middleVisits : Visits middle.fsd inode (i + 1) turns := by rwa [sameFsd]
    have index : position / s.fsd.blocksz.toInt = position / 512 := by rw [size]
    simp only [writeBlocks, found, Option.bind_eq_bind, Option.bind_some, size, chunk] at done
    rw [if_neg (by omega), written, Option.bind_some] at done
    rcases eq_or_ne (position / 512) i with here | later
    · have foundHere : inode.block (position / s.fsd.blocksz.toInt) = some block := by
        rw [index, here, found]
      have loop := writeBlocks_loop middleGeometry middleVisits nonneg (by lia) (by omega) done
      have nextFsd : next.fsd = middle.fsd := by
        rw [writeBlocks_frame _ _ _ _ _ _ _ _ _ _ _ done]
      have blockNonneg := le_trans geometry.regionFits.1 region.1
      rw [loop.shown middleGeometry (by rw [nextFsd]) inode position block blockNonneg
        (by rw [sameFsd]; exact foundHere)
        (fun j lowJ highJ => found ▸ (apart i j (le_refl i) (by lia) (by push_cast; lia)).symm)]
      rw [shownByte_eq middle inode position block (by rw [sameFsd]; exact foundHere),
        shownByte_eq s inode position block foundHere, sameFsd, size]
      split
      case isTrue inside =>
        rw [moved _ (by lia) (by omega)]
        congr 2
        lia
      case isFalse outside => rw [kept _ (by omega)]
    · obtain ⟨other, foundOther, otherRegion⟩ := visits.found (position / 512) (by lia)
        (by push_cast; lia)
      have different : other.toInt ≠ block.toInt := by
        intro equal
        apply apart i (position / 512) (le_refl i) (by lia) (by push_cast; lia)
        rw [found, foundOther, Int32.toInt_inj.mp equal]
      have step : 512 * i - low + piece = 512 * (i + 1) - low := by lia
      rw [step] at done
      rw [inductionHypothesis (i + 1) middle middleGeometry (by rw [sameFsd]; exact size)
        middleVisits apart.step (by omega) (by lia) done (by lia)]
      have unchanged : shownByte middle inode position = shownByte s inode position := by
        apply shownByte_congr s middle inode position other (by rw [sameFsd])
          (by rw [index]; exact foundOther)
        have outside := outside_other s.fsd other.toInt block.toInt
          (position % s.fsd.blocksz.toInt) (le_trans geometry.regionFits.1 otherRegion.1)
          (by rw [size]; lia) (by rw [size]; lia) different
        apply kept
        unfold OutsideBlock at outside
        rw [size] at outside ⊢
        lia
      rw [unchanged]

include range in
/-- The read loop over an aligned range: up to the end of the transfer the buffer
holds the bytes of the blocks, and what precedes the loop's part stays.

Induct over the turns. Later turns store behind the chunk of the current one. -/
theorem readBlocks_content (inode : Inode) (turns : Nat) (i pos : Int) (buf after : Memory)
    (s next : State) (geometry : Geometry s) (size : s.fsd.blocksz.toInt = 512)
    (visits : Visits s.fsd inode i turns)
    (begin : blocksFor low 512 ≤ i) (last : i + turns = blocksFor high 512)
    (here : turns = 0 ∨ pos = 512 * i - low)
    (done : readBlocks inode low high (blocksFor low 512 - 1) (blocksFor high 512 - 1) turns i
      pos buf s = some (after, next)) :
    (∀ k : Nat, (k : Int) < pos → after k = buf k) ∧
      ∀ position, 512 * i ≤ position → position < transferEnd low high →
        position < 512 * blocksFor high 512 →
        shownByte s inode position = some (after (position - low).toNat) := by
  induction turns generalizing i pos s buf with
  | zero =>
    cases done
    exact ⟨fun _ _ => rfl, fun position above _ below => by lia⟩
  | succ turns inductionHypothesis =>
    obtain ⟨⟨block, found, region⟩, rest⟩ := visits.step
    push_cast at last
    have chunk := chunkOf_aligned low high i range begin (by omega)
    obtain ⟨beginLow, reaches, continues, _⟩ := range.turn begin (by omega)
    generalize pieceSize : min 512 (transferEnd low high - 512 * i) = piece at chunk
    obtain ⟨base, address, memory, _⟩ := geometry.chunk false block.toInt 0 piece region (le_refl 0)
      (by lia) (by lia)
    rw [size, Int.add_zero] at address
    rw [size] at base
    have fetched := bread_done s block.toInt 0 (shift buf pos.toNat) none piece
      (by rw [geometry.blocksz]; omega) memory (by simp)
    simp only [readBlocks, found, Option.bind_eq_bind, Option.bind_some, size, chunk] at done
    rw [if_neg (by lia), fetched, Option.bind_some, address] at done
    dsimp only at done
    obtain ⟨kept, later⟩ := inductionHypothesis (i + 1) (pos + piece) _ (s.record _)
      ((record_same s _).sound geometry) size rest (by lia) (by lia) (by lia) done
    refine ⟨?_, ?_⟩
    · intro k before
      rw [kept k (by lia)]
      apply copy_outside
      lia
    · intro position above moved below
      rcases eq_or_ne (position / 512) i with same | other
      · have offset : (position - low).toNat = pos.toNat + (position % 512).toNat := by lia
        have source : (block.toInt * 512 + position % 512).toNat =
            (block.toInt * 512).toNat + (position % 512).toNat := by lia
        have fetchedByte := copy_inside (shift buf pos.toNat) (shift s.device.blocks.bytes
          (block.toInt * 512).toNat) 0 piece.toNat (position % 512).toNat (by lia)
        rw [Nat.zero_add] at fetchedByte
        rw [shownByte_eq s inode position block (by rw [size, same, found]), size,
          kept _ (by omega), offset, copy_inside _ _ _ _ _ (by omega), fetchedByte, shift_apply,
          source]
      · exact later position (by lia) moved below

end Aligned

end Xinu.FileSystem
