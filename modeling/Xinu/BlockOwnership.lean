import Xinu.FileInvariants

/-!
# Block ownership and file pointers over whole runs

Two readings of the invariant of the open-file table. Block ownership: what holds
a file's bytes lies in the data region, is marked, and is nobody else's. File
pointers: an open entry's pointer stays inside its size, and the block list is
indexed below twelve. Each fails in a run that takes one of the two steps the
invariant excludes, and a run of each kind is recorded here.
-/

namespace Xinu.FileSystem

open CIntegers BlockStore Runs

/-- The blocks that hold a file's bytes are data blocks, are marked, and belong to
one index of one entry. -/
structure BlocksOwned (s : State) : Prop where
  owned : ∀ (d : Fin 16) (i : Nat),
    (i : Int) < blocksFor (s.oft d).inode.size.toInt s.fsd.blocksz.toInt →
    ∃ inside : i < 12, DataRegion s.fsd ((s.oft d).inode.blocks ⟨i, inside⟩).toInt ∧
      s.fsd.Marked ((s.oft d).inode.blocks ⟨i, inside⟩).toInt
  once : ∀ (d e : Fin 16) (i j : Fin 12),
    (i : Int) < blocksFor (s.oft d).inode.size.toInt s.fsd.blocksz.toInt →
    (j : Int) < blocksFor (s.oft e).inode.size.toInt s.fsd.blocksz.toInt →
    (s.oft d).inode.blocks i = (s.oft e).inode.blocks j → d = e ∧ i = j

theorem FilesSound.blocksOwned {s : State} (sound : FilesSound s) : BlocksOwned s where
  owned d i used := by
    have short := blocksFor_le _ _ sound.geometry.positive (sound.entries d).size
    have inside : i < 12 := by omega
    exact ⟨inside, (sound.entries d).region ⟨i, inside⟩ used,
      (sound.entries d).marked ⟨i, inside⟩ used⟩
  once := sound.distinct

/-- On a device of 512-byte blocks with room for the inode region, every run whose
creations use an inode number that fits, and whose reads and writes do not
overflow, keeps block ownership. -/
theorem block_ownership (count inodes : Int32) (first last : State)
    (events : List (Event State Call Reply)) (formatted : FormattedBy 512 count inodes first)
    (region : 2 + (first.fsd.numInodeBlocks : Int) ≤ first.fsd.nblocks.toInt)
    (product : first.fsd.nblocks.toInt * 512 < 2 ^ 31) (run : Run exec first events last)
    (fits : Meets StepFits events) : BlocksOwned last := by
  have chosen := formatted_chosen 512 count inodes first formatted
  have size : first.fsd.blocksz = 512 := chosen.blocksz
  have geometry : Geometry first := formatted_geometry 512 count inodes first formatted
    (by rw [size]; decide) region (by rw [size]; exact product)
  exact ((formatted_filesSound 512 count inodes first formatted geometry).run run fits).blocksOwned

/-- An allocator that grants the first request of a call and refuses the rest. -/
def grantingOnce : Answers := fun k => if k = 0 then granting 0 else none

/-- A buffer that spells an inode of size 512 whose first block is block 0. -/
def forgedInode : Memory := fun k => if k = 13 then 2 else 0

/-- The law applies to a run that creates a file and writes to it. -/
theorem block_ownership_after_write : ∃ first events last, FormattedBy 512 16 16 first ∧
    Run exec first events last ∧ Meets StepFits events ∧ events.length = 2 ∧
    BlocksOwned last := by
  obtain ⟨first, events, last, formatted, run, checked⟩ := formatted_trace_exists 512 16 16
    [.create granting fileA oCreat, .write granting 0 forgedInode 1200]
    (fun events _ => events.length == 2 && events.all fun event =>
      decide (StepFits event.before event.call)) (by decide +kernel)
  rw [Bool.and_eq_true] at checked
  have fits : Meets StepFits events := fun event member =>
    of_decide_eq_true (List.all_eq_true.mp checked.2 event member)
  obtain ⟨size, _, region, product⟩ := formatted16_sizes first formatted
  rw [size] at product
  exact ⟨first, events, last, formatted, run, fits, by simpa using checked.1,
    block_ownership 16 16 first last events formatted region product run fits⟩

/-- Sixteen creations that find no memory for the directory entry use up the
sixteen inode numbers. The next file gets number 16, whose inode lies in the first
data block; writing to the file overwrites it, and opening the file again yields
an entry whose block 0 is the superblock. -/
theorem forged_inode_breaks_ownership :
    ¬ ∀ (count inodes : Int32) (first last : State) (events : List (Event State Call Reply)),
      FormattedBy 512 count inodes first → 16 ≤ first.fsd.ninodes.toInt →
      2 + (first.fsd.numInodeBlocks : Int) ≤ first.fsd.nblocks.toInt →
      Run exec first events last →
      (∀ event ∈ events, event.call.OnFiles ∧ ∀ fd nbytes,
        (∃ answers buf, event.call = .write answers fd buf nbytes ∨
          event.call = .read answers fd buf nbytes) → CountFits event.before fd nbytes) →
      BlocksOwned last := by
  intro owned
  obtain ⟨first, events, last, formatted, run, checked⟩ := formatted_trace_exists 512 16 16
    (List.replicate 16 (.create grantingOnce fileA oCreat) ++
      [.create granting fileA oCreat, .write granting 0 forgedInode 512,
        .open granting fileA oRdwr])
    (fun events last => (events.all fun event => match event.call with
        | .create .. | .open .. => true
        | .write _ fd _ nbytes => decide (CountFits event.before fd nbytes)
        | _ => false) &&
      decide (0 < blocksFor (last.oft 1).inode.size.toInt last.fsd.blocksz.toInt) &&
      decide (((last.oft 1).inode.blocks 0).toInt < last.fsd.firstDataBlock))
    (by decide +kernel)
  simp only [Bool.and_eq_true, decide_eq_true_eq] at checked
  obtain ⟨⟨calls, used⟩, outside⟩ := checked
  obtain ⟨_, inodeCount, region, _⟩ := formatted16_sizes first formatted
  have onFiles : ∀ event ∈ events, event.call.OnFiles ∧ ∀ fd nbytes,
      (∃ answers buf, event.call = .write answers fd buf nbytes ∨
        event.call = .read answers fd buf nbytes) → CountFits event.before fd nbytes := by
    intro event member
    have kind := List.all_eq_true.mp calls event member
    split at kind
    case h_1 call => rw [call]; exact ⟨trivial, by rintro _ _ ⟨_, _, same | same⟩ <;> cases same⟩
    case h_2 call => rw [call]; exact ⟨trivial, by rintro _ _ ⟨_, _, same | same⟩ <;> cases same⟩
    case h_3 call =>
      rw [call]
      refine ⟨trivial, ?_⟩
      rintro fd nbytes ⟨_, _, same | same⟩
      · cases same
        exact of_decide_eq_true kind
      · cases same
    case h_4 => cases kind
  obtain ⟨_, inside, _⟩ := (owned 16 16 first last events formatted
    (by rw [inodeCount]; decide) region run onFiles).owned 1 0 used
  exact absurd inside.1 (not_le.mpr outside)

/-- The indices the loops of a read or a write use lie in the block list. -/
def IndicesInside (start last : Int) : Prop := ∀ i, start + 1 ≤ i → i ≤ last → 0 ≤ i ∧ i < 12

/-- Every open entry has its pointer inside its size and less than twelve blocks
of bytes; and the indices that a read or a write of a fitting count uses into its
block list are below twelve. -/
def PointersInside (s : State) : Prop :=
  ∀ d : Fin 16, (s.oft d).state = .opened →
    (0 ≤ (s.oft d).fileptr.toInt ∧ (s.oft d).fileptr.toInt ≤ (s.oft d).inode.size.toInt ∧
      (s.oft d).inode.size.toInt < 12 * s.fsd.blocksz.toInt) ∧
    ∀ nbytes : Int32, 0 < nbytes.toInt → (s.oft d).fileptr.toInt + nbytes.toInt < 2 ^ 31 →
      IndicesInside (blockBefore (s.oft d).fileptr.toInt s.fsd.blocksz.toInt)
        (blockBefore (readEnd (s.oft d) nbytes.toInt) s.fsd.blocksz.toInt) ∧
      (writeEnd (s.oft d) nbytes.toInt < wrap (s.fsd.blocksz.toInt * inodeBlocks) →
        IndicesInside (blockBefore (s.oft d).fileptr.toInt s.fsd.blocksz.toInt)
          (blockBefore (writeEnd (s.oft d) nbytes.toInt) s.fsd.blocksz.toInt) ∧
        IndicesInside (blockBefore (s.oft d).inode.size.toInt s.fsd.blocksz.toInt)
          (blockBefore (writeEnd (s.oft d) nbytes.toInt) s.fsd.blocksz.toInt))

/-- A range of positions below twelve blocks uses indices below twelve. -/
theorem indices_inside (low high blocksz : Int) (positive : 0 < blocksz) (lowNonneg : 0 ≤ low)
    (lowSmall : low < 2 ^ 31) (highNonneg : 0 ≤ high) (highSmall : high < 2 ^ 31)
    (short : high < 12 * blocksz) :
    IndicesInside (blockBefore low blocksz) (blockBefore high blocksz) := by
  have first := blocksFor_nonneg low blocksz positive lowNonneg
  have last := blocksFor_le high blocksz positive short
  intro i from_ upTo
  rw [blockBefore_exact low blocksz positive lowNonneg lowSmall] at from_
  rw [blockBefore_exact high blocksz positive highNonneg highSmall] at upTo
  lia

theorem FilesSound.pointersInside {s : State} (sound : FilesSound s) : PointersInside s := by
  intro d isOpen
  obtain ⟨low, high, short, small⟩ := sound.bounds (d := d)
  have positive := sound.geometry.positive
  refine ⟨⟨low, high, short⟩, ?_⟩
  intro nbytes nonzero fits
  obtain ⟨endLow, endHigh, _⟩ := sound.readEnd_range nonzero fits
  refine ⟨indices_inside _ _ _ positive low (by omega) (by lia) (by lia) (by lia), ?_⟩
  intro space
  have exact : writeEnd (s.oft d) nbytes.toInt = (s.oft d).fileptr.toInt + nbytes.toInt :=
    wrap_of_range _ (by lia) fits
  rw [exact, wrap_blocks s.fsd (sound.opened d isOpen)] at space
  rw [exact]
  exact ⟨indices_inside _ _ _ positive low (by lia) (by lia) fits space,
    indices_inside _ _ _ positive (by lia) small (by omega) fits space⟩

/-- On a device with a sound geometry, every run whose counts do not overflow the
file pointer and whose creations use an inode number that fits keeps every pointer
inside its file. -/
theorem file_pointers_inside (size count inodes : Int32) (first last : State)
    (events : List (Event State Call Reply)) (formatted : FormattedBy size count inodes first)
    (positive : 0 < first.fsd.blocksz.toInt)
    (region : 2 + (first.fsd.numInodeBlocks : Int) ≤ first.fsd.nblocks.toInt)
    (product : first.fsd.nblocks.toInt * first.fsd.blocksz.toInt < 2 ^ 31)
    (run : Run exec first events last) (fits : Meets StepFits events) : PointersInside last := by
  have geometry := formatted_geometry size count inodes first formatted positive region product
  exact ((formatted_filesSound size count inodes first formatted geometry).run run
    fits).pointersInside

/-- The law applies to a run that creates a file and writes to it. -/
theorem file_pointers_after_write : ∃ first events last, FormattedBy 512 16 16 first ∧
    Run exec first events last ∧ Meets StepFits events ∧ events.length = 2 ∧
    PointersInside last := by
  obtain ⟨first, events, last, formatted, run, checked⟩ := formatted_trace_exists 512 16 16
    [.create granting fileA oCreat, .write granting 0 forgedInode 1200]
    (fun events _ => events.length == 2 && events.all fun event =>
      decide (StepFits event.before event.call)) (by decide +kernel)
  rw [Bool.and_eq_true] at checked
  have fits : Meets StepFits events := fun event member =>
    of_decide_eq_true (List.all_eq_true.mp checked.2 event member)
  obtain ⟨size, _, region, product⟩ := formatted16_sizes first formatted
  exact ⟨first, events, last, formatted, run, fits, by simpa using checked.1,
    file_pointers_inside 512 16 16 first last events formatted (by rw [size]; decide) region
      product run fits⟩

/-- After one byte has been written, a write of `2 ^ 31 - 1` bytes passes the space
check with a wrapped end and leaves the pointer at `-2 ^ 31`. -/
theorem overflow_moves_pointer_below_zero :
    ¬ ∀ (size count inodes : Int32) (first last : State) (events : List (Event State Call Reply)),
      FormattedBy size count inodes first → Run exec first events last →
      (∀ event ∈ events, event.call.OnFiles) → PointersInside last := by
  intro inside
  obtain ⟨first, events, last, formatted, run, checked⟩ := formatted_trace_exists 512 16 16
    [.create granting fileA oCreat, .write granting 0 forgedInode 1,
      .write granting 0 forgedInode 2147483647]
    (fun events last => (events.all fun event => decide event.call.OnFiles) &&
      decide ((last.oft 0).state = .opened) && decide ((last.oft 0).fileptr.toInt < 0))
    (by decide +kernel)
  simp only [Bool.and_eq_true, decide_eq_true_eq] at checked
  obtain ⟨⟨calls, isOpen⟩, negative⟩ := checked
  have onFiles : ∀ event ∈ events, event.call.OnFiles := fun event member =>
    of_decide_eq_true (List.all_eq_true.mp calls event member)
  have pointers := inside 512 16 16 first last events formatted run onFiles 0 isOpen
  exact absurd pointers.1.1 (not_le.mpr negative)

end Xinu.FileSystem
