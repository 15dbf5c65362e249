import Xinu.FileCalls

/-!
# The free mask and block allocation

The mask packs eight blocks into a byte, the lowest block in the high-order bit.
Setting a bit changes that bit and no other, whatever byte it shares. The search
of `fs_write` therefore answers a block whose bit was clear, and the allocation
loop hands out blocks that were free before it, pairwise different and marked
afterwards. When the loop runs out it has only set bits.
-/

namespace Xinu.FileSystem

open CIntegers BlockStore

/-- The three-step extraction of `fs_getmaskbit` reads one bit of the byte. -/
theorem extracted_bit (byte : UInt8) (position : Nat) (inside : position < 8) :
    ((byte <<< UInt8.ofNat position) &&& 0x80) >>> 7 =
      if byte.toNat.testBit (7 - position) then 1 else 0 := by
  have table : ∀ value : Fin 256, ∀ place : Fin 8,
      ((UInt8.ofNat value.val <<< UInt8.ofNat place.val) &&& 0x80) >>> 7 =
        if value.val.testBit (7 - place.val) then 1 else 0 := by
    decide +kernel
  have exact := table ⟨byte.toNat, UInt8.toNat_lt byte⟩ ⟨position, inside⟩
  simpa only [UInt8.ofNat_toNat] using exact

/-- The weight of a position is a single bit. -/
theorem weight_bit (position other : Nat) (inside : position < 8) (otherInside : other < 8) :
    ((0x80 : UInt8) >>> UInt8.ofNat position).toNat.testBit (7 - other) =
      decide (position = other) := by
  have table : ∀ place other : Fin 8,
      ((0x80 : UInt8) >>> UInt8.ofNat place.val).toNat.testBit (7 - other.val) =
        decide (place.val = other.val) := by
    decide +kernel
  exact table ⟨position, inside⟩ ⟨other, otherInside⟩

/-- A block's bit is zero or one wherever the mask has a byte for it. -/
theorem getmaskbit_holds (fsd : Fsystem) (block : Int) (nonneg : 0 ≤ block)
    (holds : fsd.maskHolds block) :
    fsGetmaskbit fsd block =
      some (if (fsd.freemask.bytes (block.toNat / 8)).toNat.testBit (7 - block.toNat % 8)
        then 1 else 0) := by
  have quotient : (maskByte block).toNat = block.toNat / 8 := by
    unfold maskByte
    rw [Int.tdiv_eq_ediv_of_nonneg nonneg]
    lia
  have remainder : (block.tmod 8).toNat = block.toNat % 8 := by
    rw [Int.tmod_eq_emod_of_nonneg nonneg]
    omega
  unfold fsGetmaskbit
  rw [if_pos holds, quotient, remainder, extracted_bit _ _ (Nat.mod_lt _ (by decide))]

/-- The mask holds a byte for every block below eight times its size. -/
theorem maskHolds_iff (fsd : Fsystem) (block : Int) (nonneg : 0 ≤ block) :
    fsd.maskHolds block ↔ block.toNat / 8 < fsd.freemask.size := by
  unfold Fsystem.maskHolds Region.Holds maskByte
  rw [Int.tdiv_eq_ediv_of_nonneg nonneg]
  lia

/-- Setting a bit keeps the size of the mask and every other field. -/
theorem setmaskbit_frame (fsd next : Fsystem) (block : Int)
    (done : fsSetmaskbit fsd block = some next) :
    next = { fsd with freemask := { fsd.freemask with bytes := next.freemask.bytes } } := by
  unfold fsSetmaskbit at done
  split at done
  · cases done
    rfl
  · cases done

/-- Setting a bit sets that block's bit and leaves every other bit as it was.

Two blocks of one byte differ in their position; two blocks of different bytes
are not touched by the same update. -/
theorem setmaskbit_bit (fsd next : Fsystem) (block other : Int) (nonneg : 0 ≤ block)
    (otherNonneg : 0 ≤ other) (done : fsSetmaskbit fsd block = some next) :
    fsGetmaskbit next other = if other = block then some 1 else fsGetmaskbit fsd other := by
  unfold fsSetmaskbit at done
  split at done
  case isFalse => cases done
  case isTrue holds =>
    cases done
    have quotient : (maskByte block).toNat = block.toNat / 8 := by
      unfold maskByte
      rw [Int.tdiv_eq_ediv_of_nonneg nonneg]
      lia
    have remainder : (block.tmod 8).toNat = block.toNat % 8 := by
      rw [Int.tmod_eq_emod_of_nonneg nonneg]
      omega
    by_cases otherHolds : fsd.maskHolds other
    · have stillHolds : (fsd.setMaskByte block
          (fsd.freemask.bytes (maskByte block).toNat ||| maskWeight block)).maskHolds other :=
        otherHolds
      rw [getmaskbit_holds _ _ otherNonneg stillHolds, getmaskbit_holds _ _ otherNonneg otherHolds]
      by_cases sameByte : other.toNat / 8 = block.toNat / 8
      · simp only [Fsystem.setMaskByte, quotient, sameByte, Function.update_self, UInt8.toNat_or,
          Nat.testBit_or, maskWeight, remainder]
        rw [weight_bit _ _ (Nat.mod_lt _ (by decide)) (Nat.mod_lt _ (by decide))]
        by_cases same : other = block
        · simp [same]
        · have different : block.toNat % 8 ≠ other.toNat % 8 := by omega
          simp [same, different]
      · have different : other ≠ block := by
          rintro rfl
          exact sameByte rfl
        simp [Fsystem.setMaskByte, quotient, Function.update_of_ne sameByte, different]
    · have same : other ≠ block := by
        rintro rfl
        exact otherHolds holds
      have stillOut : ¬ (fsd.setMaskByte block
          (fsd.freemask.bytes (maskByte block).toNat ||| maskWeight block)).maskHolds other :=
        otherHolds
      simp [fsGetmaskbit, otherHolds, stillOut, same]

/-- The search answers the first block at or after `j` whose bit is clear, or
the end of its range when every bit in the range is set. -/
theorem findFree_exact (fsd : Fsystem) (left : Nat) (j found : Int)
    (answered : findFree fsd left j = some found) :
    j ≤ found ∧ found ≤ j + left ∧
      (∀ k, j ≤ k → k < found → ∃ bit, fsGetmaskbit fsd k = some bit ∧ bit ≠ 0) ∧
      (found < j + left → fsGetmaskbit fsd found = some 0) := by
  induction left generalizing j with
  | zero =>
    simp only [findFree, Option.some.injEq] at answered
    subst answered
    refine ⟨le_refl _, by simp, ?_, ?_⟩
    · intro k low high
      omega
    · intro impossible
      simp at impossible
  | succ left inductionHypothesis =>
    simp only [findFree, Option.bind_eq_bind, Option.bind_eq_some_iff] at answered
    obtain ⟨bit, read, rest⟩ := answered
    split at rest
    case isTrue clear =>
      cases rest
      refine ⟨le_refl _, by omega, ?_, ?_⟩
      · intro k low high
        omega
      · intro _
        rw [read, clear]
    case isFalse marked =>
      obtain ⟨low, high, before, atEnd⟩ := inductionHypothesis (j + 1) rest
      refine ⟨by omega, by push_cast; omega, ?_, ?_⟩
      · intro k from_ below
        by_cases here : k = j
        · exact ⟨bit, here ▸ read, marked⟩
        · exact before k (by lia) below
      · intro inside
        exact atEnd (by push_cast at inside; omega)

/-- A search over blocks the mask covers always answers. -/
theorem findFree_total (fsd : Fsystem) (left : Nat) (j : Int) (nonneg : 0 ≤ j)
    (covered : j + left ≤ 8 * fsd.freemask.size) : ∃ found, findFree fsd left j = some found := by
  induction left generalizing j with
  | zero => exact ⟨j, rfl⟩
  | succ left inductionHypothesis =>
    have holds : fsd.maskHolds j := (maskHolds_iff fsd j nonneg).mpr (by lia)
    have read := getmaskbit_holds fsd j nonneg holds
    obtain ⟨found, answered⟩ := inductionHypothesis (j + 1) (by omega) (by push_cast at covered; lia)
    by_cases clear : (fsd.freemask.bytes (j.toNat / 8)).toNat.testBit (7 - j.toNat % 8) = true
    · exact ⟨found, by simp [findFree, read, clear, answered]⟩
    · exact ⟨j, by simp [findFree, read, clear]⟩

/-- What the mask says about a block of the data region. -/
def Fsystem.Marked (fsd : Fsystem) (block : Int) : Prop := fsGetmaskbit fsd block = some 1

/-- The mask gains bits and nothing else of the superblock changes. -/
structure MaskGrows (before after : Fsystem) : Prop where
  fields : after = { before with
    freemask := { before.freemask with bytes := after.freemask.bytes } }
  kept : ∀ block, 0 ≤ block → before.Marked block → after.Marked block

theorem maskGrows_refl (fsd : Fsystem) : MaskGrows fsd fsd := ⟨rfl, fun _ _ marked => marked⟩

theorem maskGrows_trans {first second third : Fsystem} (left : MaskGrows first second)
    (right : MaskGrows second third) : MaskGrows first third := by
  refine ⟨?_, fun block nonneg marked => right.kept block nonneg (left.kept block nonneg marked)⟩
  rw [right.fields, left.fields]

theorem MaskGrows.blocksz {before after : Fsystem} (grows : MaskGrows before after) :
    after.blocksz = before.blocksz := by rw [grows.fields]

theorem MaskGrows.nblocks {before after : Fsystem} (grows : MaskGrows before after) :
    after.nblocks = before.nblocks := by rw [grows.fields]

theorem MaskGrows.ninodes {before after : Fsystem} (grows : MaskGrows before after) :
    after.ninodes = before.ninodes := by rw [grows.fields]

theorem MaskGrows.maskSize {before after : Fsystem} (grows : MaskGrows before after) :
    after.freemask.size = before.freemask.size := by rw [grows.fields]

theorem MaskGrows.firstDataBlock {before after : Fsystem} (grows : MaskGrows before after) :
    after.firstDataBlock = before.firstDataBlock := by
  rw [grows.fields]
  rfl

theorem MaskGrows.rootDir {before after : Fsystem} (grows : MaskGrows before after) :
    after.rootDir = before.rootDir := by rw [grows.fields]

theorem MaskGrows.inodesUsed {before after : Fsystem} (grows : MaskGrows before after) :
    after.inodesUsed = before.inodesUsed := by rw [grows.fields]

theorem MaskGrows.inodesPerBlock {before after : Fsystem} (grows : MaskGrows before after) :
    after.inodesPerBlock = before.inodesPerBlock := by
  rw [grows.fields]
  rfl

/-- Setting a bit is a growth of the mask. -/
theorem setmaskbit_grows (fsd next : Fsystem) (block : Int) (nonneg : 0 ≤ block)
    (done : fsSetmaskbit fsd block = some next) : MaskGrows fsd next := by
  refine ⟨setmaskbit_frame fsd next block done, ?_⟩
  intro other otherNonneg marked
  unfold Fsystem.Marked at marked ⊢
  rw [setmaskbit_bit fsd next block other nonneg otherNonneg done, marked]
  simp

/-- The blocks that `fs_write` may hand out form an interval of block numbers. -/
def DataRegion (fsd : Fsystem) (block : Int) : Prop :=
  fsd.firstDataBlock ≤ block ∧ block < fsd.nblocks.toInt

/-- The inode region ends inside the device. -/
def RegionFits (fsd : Fsystem) : Prop :=
  0 ≤ fsd.firstDataBlock ∧ fsd.firstDataBlock ≤ fsd.nblocks.toInt

/-- One search either finds the region full or answers a free block of it. -/
theorem freeBlock_exact (fsd : Fsystem) (fits : RegionFits fsd) (found : Int)
    (answered : freeBlock fsd = some found) :
    (found = fsd.nblocks.toInt ∧
      ∀ k, DataRegion fsd k → ∃ bit, fsGetmaskbit fsd k = some bit ∧ bit ≠ 0) ∨
    (found ≠ fsd.nblocks.toInt ∧ DataRegion fsd found ∧ fsGetmaskbit fsd found = some 0) := by
  obtain ⟨_, fitsHigh⟩ := fits
  unfold freeBlock at answered
  split at answered
  · cases answered
  · obtain ⟨low, high, before, atEnd⟩ := findFree_exact fsd _ _ _ answered
    have span : fsd.firstDataBlock + ((fsd.nblocks.toInt - fsd.firstDataBlock).toNat : Int) =
        fsd.nblocks.toInt := by lia
    rw [span] at high atEnd
    by_cases full : found = fsd.nblocks.toInt
    · left
      refine ⟨full, ?_⟩
      rintro k ⟨from_, below⟩
      exact before k from_ (by omega)
    · right
      exact ⟨full, ⟨low, by lia⟩, atEnd (by omega)⟩

/-- What a completed allocation has done to the private inode: every index of
the loop holds a block of the data region that was free before and is marked
now, no block was handed out twice, and nothing else of the inode changed. -/
structure Allocated (before after : Fsystem) (i : Int) (turns : Nat) (inode grown : Inode) :
    Prop where
  size : grown.size = inode.size
  kept : ∀ m : Fin 12, (m : Int) < i ∨ i + turns ≤ m → grown.blocks m = inode.blocks m
  region : ∀ m : Fin 12, i ≤ m → (m : Int) < i + turns → DataRegion before (grown.blocks m).toInt
  free : ∀ m : Fin 12, i ≤ m → (m : Int) < i + turns →
    fsGetmaskbit before (grown.blocks m).toInt = some 0
  marked : ∀ m : Fin 12, i ≤ m → (m : Int) < i + turns → after.Marked (grown.blocks m).toInt
  distinct : ∀ m n : Fin 12, i ≤ m → (m : Int) < i + turns → i ≤ n → (n : Int) < i + turns →
    grown.blocks m = grown.blocks n → m = n

/-- Storing a block number changes one slot. -/
theorem setBlock_exact (inode next : Inode) (i block : Int)
    (stored : inode.setBlock i block = some next) :
    0 ≤ i ∧ i < 12 ∧ next.size = inode.size ∧
      (∀ m : Fin 12, (m : Int) = i → next.blocks m = Int32.ofInt block) ∧
      (∀ m : Fin 12, (m : Int) ≠ i → next.blocks m = inode.blocks m) := by
  unfold Inode.setBlock at stored
  split at stored
  case isFalse => cases stored
  case isTrue inside =>
    cases stored
    refine ⟨inside.1, inside.2, rfl, ?_, ?_⟩
    · intro m here
      have same : m = blockIndex i inside := Fin.ext (by simp [blockIndex]; lia)
      simp only [same, Function.update_self]
    · intro m elsewhere
      have different : m ≠ blockIndex i inside := by
        rintro rfl
        exact elsewhere (by simp [blockIndex]; omega)
      simp only [Function.update_of_ne different]

/-- A block number of the data region survives being stored as an `int`. -/
theorem region_stored (fsd : Fsystem) (fits : RegionFits fsd) (block : Int)
    (inside : DataRegion fsd block) : (Int32.ofInt block).toInt = block := by
  rw [toInt_ofInt]
  have bound := toInt_range fsd.nblocks
  exact wrap_of_range _ (by have := fits.1; have := inside.1; omega)
    (by have := inside.2; omega)

/-- Whatever its outcome, the allocation loop changes bytes of the mask only. -/
theorem allocBlocks_frame (turns : Nat) (i : Int) (inode : Inode) (fsd after : Fsystem)
    (found : Option Inode) (done : allocBlocks turns i inode fsd = some (found, after)) :
    after = { fsd with freemask := { fsd.freemask with bytes := after.freemask.bytes } } := by
  induction turns generalizing i inode fsd with
  | zero =>
    simp only [allocBlocks, Option.some.injEq, Prod.mk.injEq] at done
    rw [← done.2]
  | succ turns inductionHypothesis =>
    simp only [allocBlocks, Option.bind_eq_bind, Option.bind_eq_some_iff] at done
    obtain ⟨j, _, rest⟩ := done
    split at rest
    · cases rest
      rfl
    · simp only [Option.bind_eq_some_iff] at rest
      obtain ⟨marked, setDone, next, _, tail⟩ := rest
      have frame := setmaskbit_frame fsd marked j setDone
      rw [inductionHypothesis _ _ _ tail, frame]

/-- The allocation loop only adds marks, and on success establishes `Allocated`.

Induct over the turns. The block found now is free, hence different from every
block the later turns find free after it has been marked; a mark once set stays. -/
theorem allocBlocks_exact (turns : Nat) (i : Int) (inode : Inode) (fsd after : Fsystem)
    (found : Option Inode) (fits : RegionFits fsd)
    (done : allocBlocks turns i inode fsd = some (found, after)) :
    MaskGrows fsd after ∧ ∀ grown, found = some grown → Allocated fsd after i turns inode grown := by
  induction turns generalizing i inode fsd with
  | zero =>
    simp only [allocBlocks, Option.some.injEq, Prod.mk.injEq] at done
    obtain ⟨rfl, rfl⟩ := done
    refine ⟨maskGrows_refl fsd, ?_⟩
    intro grown same
    cases same
    refine ⟨rfl, fun _ _ => rfl, ?_, ?_, ?_, ?_⟩ <;> intros <;> omega
  | succ turns inductionHypothesis =>
    simp only [allocBlocks, Option.bind_eq_bind, Option.bind_eq_some_iff] at done
    obtain ⟨j, searched, rest⟩ := done
    split at rest
    case isTrue full =>
      cases rest
      exact ⟨maskGrows_refl _, fun _ impossible => by cases impossible⟩
    case isFalse notFull =>
      simp only [Option.bind_eq_some_iff] at rest
      obtain ⟨marked, setDone, next, stored, tail⟩ := rest
      obtain ⟨_, inside, free⟩ : j ≠ fsd.nblocks.toInt ∧ DataRegion fsd j ∧
          fsGetmaskbit fsd j = some 0 := by
        rcases freeBlock_exact fsd fits j searched with ⟨full, _⟩ | answer
        · exact absurd full notFull
        · exact answer
      have nonneg : 0 ≤ j := le_trans fits.1 inside.1
      have grows : MaskGrows fsd marked := setmaskbit_grows fsd marked j nonneg setDone
      have fitsNext : RegionFits marked := by
        unfold RegionFits
        rw [grows.firstDataBlock, grows.nblocks]
        exact fits
      obtain ⟨tailGrows, tailAllocated⟩ := inductionHypothesis (i + 1) next marked fitsNext tail
      refine ⟨maskGrows_trans grows tailGrows, ?_⟩
      intro grown same
      have rest := tailAllocated grown same
      obtain ⟨low, high, sizeSame, here, elsewhere⟩ := setBlock_exact inode next i j stored
      have atIndex : ∀ m : Fin 12, (m : Int) = i → grown.blocks m = Int32.ofInt j := by
        intro m index
        rw [rest.kept m (Or.inl (by omega)), here m index]
      have storedExact : (Int32.ofInt j).toInt = j := region_stored fsd fits j inside
      have laterRegion : ∀ m : Fin 12, i + 1 ≤ m → (m : Int) < i + 1 + turns →
          DataRegion fsd (grown.blocks m).toInt := by
        intro m from_ below
        have region := rest.region m from_ below
        unfold DataRegion at region ⊢
        rwa [grows.firstDataBlock, grows.nblocks] at region
      have laterFree : ∀ m : Fin 12, i + 1 ≤ m → (m : Int) < i + 1 + turns →
          (grown.blocks m).toInt ≠ j ∧ fsGetmaskbit fsd (grown.blocks m).toInt = some 0 := by
        intro m from_ below
        have clear := rest.free m from_ below
        have otherNonneg : 0 ≤ (grown.blocks m).toInt := le_trans fits.1 (laterRegion m from_ below).1
        rw [setmaskbit_bit fsd marked j _ nonneg otherNonneg setDone] at clear
        split at clear
        · cases clear
        · exact ⟨‹_›, clear⟩
      refine ⟨rest.size.trans sizeSame, ?_, ?_, ?_, ?_, ?_⟩
      · intro m outside
        rw [rest.kept m (by push_cast at outside; lia), elsewhere m (by push_cast at outside; lia)]
      · intro m from_ below
        by_cases index : (m : Int) = i
        · rw [atIndex m index, storedExact]
          exact inside
        · exact laterRegion m (by lia) (by push_cast at below; omega)
      · intro m from_ below
        by_cases index : (m : Int) = i
        · rw [atIndex m index, storedExact]
          exact free
        · exact (laterFree m (by omega) (by push_cast at below; omega)).2
      · intro m from_ below
        by_cases index : (m : Int) = i
        · rw [atIndex m index, storedExact]
          apply tailGrows.kept j nonneg
          unfold Fsystem.Marked
          rw [setmaskbit_bit fsd marked j j nonneg nonneg setDone, if_pos rfl]
        · exact rest.marked m (by omega) (by push_cast at below; omega)
      · intro m n mLow mHigh nLow nHigh equal
        push_cast at mHigh nHigh
        by_cases mHere : (m : Int) = i <;> by_cases nHere : (n : Int) = i
        · exact Fin.ext (by lia)
        · exact absurd (by rw [← equal, atIndex m mHere, storedExact])
            (laterFree n (by lia) (by lia)).1
        · exact absurd (by rw [equal, atIndex n nHere, storedExact])
            (laterFree m (by lia) (by lia)).1
        · exact rest.distinct m n (by lia) (by omega) (by lia) (by lia) equal

/-- The allocation always comes to an end when the mask covers the device and the
indices lie in the block list. -/
theorem allocBlocks_total (turns : Nat) (i : Int) (inode : Inode) (fsd : Fsystem)
    (fits : RegionFits fsd) (covered : fsd.nblocks.toInt ≤ 8 * fsd.freemask.size)
    (perBlock : fsd.inodesPerBlock ≠ 0) (low : 0 ≤ i) (high : i + turns ≤ 12) :
    ∃ found after, allocBlocks turns i inode fsd = some (found, after) := by
  induction turns generalizing i inode fsd with
  | zero => exact ⟨_, _, rfl⟩
  | succ turns inductionHypothesis =>
    obtain ⟨j, searched⟩ : ∃ j, freeBlock fsd = some j := by
      unfold freeBlock
      rw [if_neg perBlock]
      obtain ⟨fitsLow, fitsHigh⟩ := id fits
      exact findFree_total fsd _ _ fitsLow (by lia)
    simp only [allocBlocks, searched, Option.bind_eq_bind, Option.bind_some]
    by_cases full : j = fsd.nblocks.toInt
    · rw [if_pos full]
      exact ⟨_, _, rfl⟩
    · rw [if_neg full]
      obtain ⟨_, inside, _⟩ : j ≠ fsd.nblocks.toInt ∧ DataRegion fsd j ∧
          fsGetmaskbit fsd j = some 0 := by
        rcases freeBlock_exact fsd fits j searched with ⟨isFull, _⟩ | answer
        · exact absurd isFull full
        · exact answer
      have nonneg : 0 ≤ j := le_trans fits.1 inside.1
      have holds : fsd.maskHolds j := by
        obtain ⟨_, below⟩ := inside
        exact (maskHolds_iff fsd j nonneg).mpr (by lia)
      obtain ⟨marked, setDone⟩ : ∃ marked, fsSetmaskbit fsd j = some marked := by
        unfold fsSetmaskbit
        rw [if_pos holds]
        exact ⟨_, rfl⟩
      obtain ⟨next, stored⟩ : ∃ next, inode.setBlock i j = some next := by
        unfold Inode.setBlock
        rw [dif_pos ⟨low, by push_cast at high; omega⟩]
        exact ⟨_, rfl⟩
      have grows := setmaskbit_grows fsd marked j nonneg setDone
      rw [setDone, Option.bind_some, stored, Option.bind_some]
      apply inductionHypothesis
      · unfold RegionFits
        rw [grows.firstDataBlock, grows.nblocks]
        exact fits
      · rw [grows.nblocks, grows.maskSize]
        exact covered
      · rw [grows.inodesPerBlock]
        exact perBlock
      · omega
      · push_cast at high
        lia

end Xinu.FileSystem
