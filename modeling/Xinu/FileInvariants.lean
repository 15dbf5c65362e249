import Xinu.FileBlocks

/-!
# Block ownership and file pointers

What holds of the open-file table in every state that calls on files reach. Every
entry has its file pointer inside its size and fewer than twelve blocks of bytes;
the blocks that hold them lie in the data region, are marked in the free mask, and
no block belongs to two indices or two entries. Every directory entry names an
inode within the inode region, and the inode stored there has size zero, since
`fs_write` updates only the copy in the open-file table.

Two steps can break this. `fs_read` and `fs_write` add the byte count to the file
pointer without a check, so a count that overflows moves the pointer below zero.
`fs_create` stores an inode in the first data block when the inode count fills its
last block and all numbers are used. Every run without these two keeps the
invariant.
-/

namespace Xinu.FileSystem

open CIntegers BlockStore Runs

/-- Index `i` of the block list holds bytes of the entry's file. -/
def Uses (fsd : Fsystem) (entry : FileTable) (i : Fin 12) : Prop :=
  (i : Int) < blocksFor entry.inode.size.toInt fsd.blocksz.toInt

/-- An entry with its pointer inside its size, and blocks of its own kind. -/
structure EntrySound (fsd : Fsystem) (entry : FileTable) : Prop where
  pointerLow : 0 ≤ entry.fileptr.toInt
  pointerHigh : entry.fileptr.toInt ≤ entry.inode.size.toInt
  size : entry.inode.size.toInt < 12 * fsd.blocksz.toInt
  region : ∀ i, Uses fsd entry i → DataRegion fsd (entry.inode.blocks i).toInt
  marked : ∀ i, Uses fsd entry i → fsd.Marked (entry.inode.blocks i).toInt

/-- The inode of a directory entry: inside its region, and empty on the device. -/
structure InodeSound (s : State) (number : Int) : Prop where
  fits : CacheFits s.fsd
  within : InodeWithin s.fsd number
  empty : (Inode.ofBytes s.device.blocks.bytes (s.fsd.inodeAddress number)).size = 0

/-- The invariant of the open-file table and the directory. -/
structure FilesSound (s : State) : Prop where
  geometry : Geometry s
  entries : ∀ d, EntrySound s.fsd (s.oft d)
  distinct : ∀ d e i j, Uses s.fsd (s.oft d) i → Uses s.fsd (s.oft e) j →
    (s.oft d).inode.blocks i = (s.oft e).inode.blocks j → d = e ∧ i = j
  opened : ∀ d, (s.oft d).state = .opened → CacheFits s.fsd
  inodes : ∀ entry ∈ s.fsd.rootDir, InodeSound s entry.inodeNum

section Geometry

variable {before after : State} (same : SameGeometry before after)

include same in
theorem SameGeometry.cacheFits (fits : CacheFits before.fsd) : CacheFits after.fsd :=
  ⟨by rw [same.blocksz]; exact fits.low, by rw [same.blocksz]; exact fits.high⟩

include same in
theorem SameGeometry.within {number : Int} (within : InodeWithin before.fsd number) :
    InodeWithin after.fsd number := by
  unfold InodeWithin at *
  rw [same.ninodes, same.inodesPerBlock]
  exact within

include same in
theorem SameGeometry.inodeAddress (number : Int) :
    after.fsd.inodeAddress number = before.fsd.inodeAddress number := by
  unfold Fsystem.inodeAddress
  rw [same.inodeBlock, same.inodeOff, same.blocksz]

include same in
theorem SameGeometry.dataRegion {block : Int} (region : DataRegion before.fsd block) :
    DataRegion after.fsd block := by
  unfold DataRegion at *
  rw [same.firstDataBlock, same.nblocks]
  exact region

include same in
theorem SameGeometry.uses {entry : FileTable} {i : Fin 12} :
    Uses after.fsd entry i ↔ Uses before.fsd entry i := by
  unfold Uses
  rw [same.blocksz]

include same in
/-- An entry stays sound while marks are only added. -/
theorem SameGeometry.entrySound {entry : FileTable} (geometry : Geometry before)
    (marks : ∀ block, 0 ≤ block → before.fsd.Marked block → after.fsd.Marked block)
    (sound : EntrySound before.fsd entry) : EntrySound after.fsd entry where
  pointerLow := sound.pointerLow
  pointerHigh := sound.pointerHigh
  size := by rw [same.blocksz]; exact sound.size
  region i uses := same.dataRegion (sound.region i (same.uses.mp uses))
  marked i uses := marks _
    (le_trans geometry.regionFits.1 (sound.region i (same.uses.mp uses)).1)
    (sound.marked i (same.uses.mp uses))

include same in
/-- An inode stays sound while the bytes of the inode region are kept. -/
theorem SameGeometry.inodeSound {number : Int} (geometry : Geometry before)
    (bytes : ∀ address : Nat,
      (address : Int) < before.fsd.firstDataBlock * before.fsd.blocksz.toInt →
      after.device.blocks.bytes address = before.device.blocks.bytes address)
    (sound : InodeSound before number) : InodeSound after number where
  fits := same.cacheFits sound.fits
  within := same.within sound.within
  empty := by
    have below := inodeAddress_below geometry sound.fits sound.within
    rw [← sound.empty, same.inodeAddress]
    generalize before.fsd.inodeAddress number = slot at *
    generalize before.fsd.firstDataBlock * before.fsd.blocksz.toInt = region at *
    congr 1
    apply ofBytes_congr
    intro k inside
    exact bytes (slot + k) (by omega)

include same in
/-- A step that keeps the table, the directory and the bytes of the inode region,
and only adds marks, keeps the invariant. -/
theorem FilesSound.kept (sound : FilesSound before)
    (marks : ∀ block, 0 ≤ block → before.fsd.Marked block → after.fsd.Marked block)
    (rootDir : after.fsd.rootDir = before.fsd.rootDir) (oft : after.oft = before.oft)
    (bytes : ∀ address : Nat,
      (address : Int) < before.fsd.firstDataBlock * before.fsd.blocksz.toInt →
      after.device.blocks.bytes address = before.device.blocks.bytes address) :
    FilesSound after where
  geometry := same.sound sound.geometry
  entries d := by
    rw [oft]
    exact same.entrySound sound.geometry marks (sound.entries d)
  distinct d e i j dUses eUses equal := by
    rw [oft] at dUses eUses equal
    exact sound.distinct d e i j (same.uses.mp dUses) (same.uses.mp eUses) equal
  opened d isOpen := same.cacheFits (sound.opened d (by rw [← oft]; exact isOpen))
  inodes entry member := same.inodeSound sound.geometry bytes
    (sound.inodes entry (by rw [← rootDir]; exact member))

end Geometry

theorem setOft_same (s : State) (d : Fin 16) (entry : FileTable) :
    SameGeometry s (s.setOft d entry) := ⟨rfl, rfl, rfl, rfl, rfl, rfl, rfl⟩

/-- Replacing an entry by a sound one keeps the invariant when the blocks it uses
are no other entry's. -/
theorem FilesSound.replaced {s : State} (sound : FilesSound s) (d : Fin 16) (entry : FileTable)
    (entrySound : EntrySound s.fsd entry) (fits : entry.state = .opened → CacheFits s.fsd)
    (inner : ∀ i j, Uses s.fsd entry i → Uses s.fsd entry j →
      entry.inode.blocks i = entry.inode.blocks j → i = j)
    (outer : ∀ e i j, e ≠ d → Uses s.fsd entry i → Uses s.fsd (s.oft e) j →
      entry.inode.blocks i ≠ (s.oft e).inode.blocks j) : FilesSound (s.setOft d entry) where
  geometry := (setOft_same s d entry).sound sound.geometry
  entries e := by
    by_cases here : e = d
    · subst here
      simpa [State.setOft] using entrySound
    · simpa [State.setOft, Function.update_of_ne here] using sound.entries e
  distinct e f i j eUses fUses equal := by
    by_cases eHere : e = d <;> by_cases fHere : f = d
    · subst eHere
      subst fHere
      simp only [State.setOft, Function.update_self] at eUses fUses equal
      exact ⟨rfl, inner i j eUses fUses equal⟩
    · subst eHere
      simp only [State.setOft, Function.update_self, Function.update_of_ne fHere]
        at eUses fUses equal
      exact absurd equal (outer f i j fHere eUses fUses)
    · subst fHere
      simp only [State.setOft, Function.update_self, Function.update_of_ne eHere]
        at eUses fUses equal
      exact absurd equal.symm (outer e j i eHere fUses eUses)
    · simp only [State.setOft, Function.update_of_ne eHere, Function.update_of_ne fHere]
        at eUses fUses equal
      exact sound.distinct e f i j eUses fUses equal
  opened e isOpen := by
    by_cases here : e = d
    · subst here
      simp only [State.setOft, Function.update_self] at isOpen
      exact fits isOpen
    · simp only [State.setOft, Function.update_of_ne here] at isOpen
      exact sound.opened e isOpen
  inodes entry member := by
    obtain ⟨fits, within, empty⟩ := sound.inodes entry member
    exact ⟨fits, within, empty⟩

/-- An empty entry uses no block. -/
theorem empty_unused (fsd : Fsystem) (entry : FileTable) (positive : 0 < fsd.blocksz.toInt)
    (empty : entry.inode.size = 0) (i : Fin 12) : ¬ Uses fsd entry i := by
  intro uses
  have zero : (0 : Int32).toInt = 0 := by decide
  unfold Uses at uses
  rw [empty, zero, lt_blocksFor_iff _ _ _ positive] at uses
  exact absurd uses (not_lt.mpr (Int.mul_nonneg (Int.natCast_nonneg _) (le_of_lt positive)))

/-- An empty entry is sound. -/
theorem entrySound_empty (fsd : Fsystem) (entry : FileTable) (positive : 0 < fsd.blocksz.toInt)
    (pointer : entry.fileptr = 0) (empty : entry.inode.size = 0) : EntrySound fsd entry := by
  have zero : (0 : Int32).toInt = 0 := by decide
  refine ⟨?_, ?_, ?_, ?_, ?_⟩
  · rw [pointer, zero]
  · rw [pointer, empty]
  · rw [empty, zero]
    omega
  · exact fun i uses => absurd uses (empty_unused fsd entry positive empty i)
  · exact fun i uses => absurd uses (empty_unused fsd entry positive empty i)

/-- An entry that uses no block replaces any other. -/
theorem FilesSound.emptied {s : State} (sound : FilesSound s) (d : Fin 16) (entry : FileTable)
    (pointer : entry.fileptr = 0) (empty : entry.inode.size = 0)
    (fits : entry.state = .opened → CacheFits s.fsd) : FilesSound (s.setOft d entry) := by
  have unused := empty_unused s.fsd entry sound.geometry.positive empty
  exact sound.replaced d entry (entrySound_empty s.fsd entry sound.geometry.positive pointer empty)
    fits (fun i _ uses => absurd uses (unused i)) (fun _ i _ _ uses => absurd uses (unused i))

/-- An entry that keeps the inode and has its pointer inside the size replaces the
one before. -/
theorem FilesSound.moved {s : State} (sound : FilesSound s) (d : Fin 16) (entry : FileTable)
    (inode : entry.inode = (s.oft d).inode) (low : 0 ≤ entry.fileptr.toInt)
    (high : entry.fileptr.toInt ≤ (s.oft d).inode.size.toInt)
    (fits : entry.state = .opened → CacheFits s.fsd) : FilesSound (s.setOft d entry) := by
  have old := sound.entries d
  have sameUses : ∀ i, Uses s.fsd entry i → Uses s.fsd (s.oft d) i := by
    intro i uses
    unfold Uses at *
    rwa [inode] at uses
  refine sound.replaced d entry ⟨low, ?_, ?_, ?_, ?_⟩ fits ?_ ?_
  · rw [inode]
    exact high
  · rw [inode]
    exact old.size
  · intro i uses
    rw [inode]
    exact old.region i (sameUses i uses)
  · intro i uses
    rw [inode]
    exact old.marked i (sameUses i uses)
  · intro i j iUses jUses equal
    rw [inode] at equal
    exact (sound.distinct d d i j (sameUses i iUses) (sameUses j jUses) equal).2
  · intro e i j different iUses jUses equal
    rw [inode] at equal
    exact different (sound.distinct d e i j (sameUses i iUses) jUses equal).1.symm

/-- Taking a descriptor or an inode number keeps the invariant. -/
theorem FilesSound.descriptorTaken {s : State} (sound : FilesSound s) :
    FilesSound s.descriptorTaken := by
  have same : SameGeometry s s.descriptorTaken := ⟨rfl, rfl, rfl, rfl, rfl, rfl, rfl⟩
  exact FilesSound.kept same sound (fun _ _ marked => marked) rfl rfl (fun _ _ => rfl)

theorem FilesSound.inodeTaken {s : State} (sound : FilesSound s) : FilesSound s.inodeTaken := by
  have same : SameGeometry s s.inodeTaken := ⟨rfl, rfl, rfl, rfl, rfl, rfl, rfl⟩
  exact FilesSound.kept same sound (fun _ _ marked => marked) rfl rfl (fun _ _ => rfl)

/-- Storing an empty inode within the region keeps the invariant: the slots of
other inodes are not touched, and its own holds an empty inode again. -/
theorem FilesSound.stored {s : State} (sound : FilesSound s) (number : Int) (inode : Inode)
    (fits : CacheFits s.fsd) (within : InodeWithin s.fsd number) (empty : inode.size = 0) :
    FilesSound (s.stored number inode) ∧ InodeSound (s.stored number inode) number := by
  have same := stored_same s number inode
  have sameFsd := stored_fsd s number inode
  have bytes := stored_bytes s number inode
  have sameOft := stored_oft s number inode
  generalize s.stored number inode = next at same sameFsd bytes sameOft
  have own : InodeSound next number := by
    refine ⟨same.cacheFits fits, same.within within, ?_⟩
    rw [bytes, sameFsd, ← empty, ← congrArg Inode.size (ofBytes_bytes inode)]
    congr 1
    apply ofBytes_congr
    intro k inside
    rw [copy_inside _ _ _ _ _ inside, Nat.zero_add]
  refine ⟨⟨same.sound sound.geometry, ?_, ?_, ?_, ?_⟩, own⟩
  · intro d
    rw [sameOft, sameFsd]
    exact sound.entries d
  · intro d e i j dUses eUses equal
    rw [sameOft] at dUses eUses equal
    rw [sameFsd] at dUses eUses
    exact sound.distinct d e i j dUses eUses equal
  · intro d isOpen
    rw [sameOft] at isOpen
    exact same.cacheFits (sound.opened d isOpen)
  · intro entry member
    rw [sameFsd] at member
    obtain ⟨_, otherWithin, otherEmpty⟩ := sound.inodes entry member
    by_cases here : (entry.inodeNum : Int) = number
    · rw [here]
      exact own
    · refine ⟨same.cacheFits fits, same.within otherWithin, ?_⟩
      rw [← otherEmpty, same.inodeAddress, bytes]
      congr 1
      apply ofBytes_congr
      intro k inside
      have apart := inodeAddress_apart sound.geometry fits otherWithin.1 otherWithin.2.1 within.1
        within.2.1 here
      generalize s.fsd.inodeAddress entry.inodeNum = otherSlot at *
      generalize s.fsd.inodeAddress number = slot at *
      rw [copy_outside _ _ _ _ _ (by lia)]

/-- A directory entry for a sound inode keeps the invariant. -/
theorem FilesSound.withEntry {s : State} (sound : FilesSound s) (entry : Dirent)
    (inode : InodeSound s entry.inodeNum) : FilesSound (s.withEntry entry) where
  geometry := by
    have same : SameGeometry s (s.withEntry entry) := ⟨rfl, rfl, rfl, rfl, rfl, rfl, rfl⟩
    exact same.sound sound.geometry
  entries d := ⟨(sound.entries d).pointerLow, (sound.entries d).pointerHigh,
    (sound.entries d).size, (sound.entries d).region, (sound.entries d).marked⟩
  distinct := sound.distinct
  opened d isOpen := ⟨(sound.opened d isOpen).low, (sound.opened d isOpen).high⟩
  inodes other member := by
    have held : InodeSound s other.inodeNum := by
      rcases List.mem_append.mp member with old | new
      · exact sound.inodes other old
      · rw [List.mem_singleton.mp new]
        exact inode
    exact ⟨⟨held.fits.low, held.fits.high⟩, held.within, held.empty⟩

/-- Reading a sound inode finds it empty, and changes the cache and the record
only. -/
theorem FilesSound.inode_read {s read : State} (sound : FilesSound s) (number : Int)
    (inode : InodeSound s number) (found : Except Failure Inode)
    (done : fsGetInodeByNum s 0 number = some (found, read)) :
    FilesSound read ∧ ∃ stored, found = .ok stored ∧ stored.size = 0 := by
  obtain ⟨fits, within, empty⟩ := inode
  have exact := getInode_exact sound.geometry fits within.1 within.2.1
    (inodeBlock_within sound.geometry fits within).2.2
  rw [done, Option.some.injEq, Prod.mk.injEq] at exact
  obtain ⟨rfl, rfl⟩ := exact
  refine ⟨?_, _, rfl, empty⟩
  exact FilesSound.kept (sameGeometry_trans (record_same s _) (withCache_same _ _)) sound
    (fun _ _ marked => marked) rfl rfl (fun _ _ => rfl)

/-- `fs_open` keeps the invariant: the new entry is empty. -/
theorem FilesSound.open {s next : State} (sound : FilesSound s) (answers : Answers)
    (filename : CString) (flags : Int32) (value : Return)
    (done : fsOpen s answers filename flags = some (value, next)) : FilesSound next := by
  rcases open_cases s next answers filename flags value done with
    ⟨_, rfl, _⟩ | ⟨_, i, entry, found, read, present, taken, getDone, outcome⟩
  · exact sound
  · have inode := sound.descriptorTaken.inodes entry (lookup_member filename 0 i _ entry present)
    obtain ⟨readSound, stored, rfl, empty⟩ := sound.descriptorTaken.inode_read entry.inodeNum inode
      found getDone
    rcases outcome with ⟨_, rfl, _⟩ | ⟨opened, same, _, _, rfl⟩
    · exact readSound
    · cases same
      have sameFsd : read.fsd = s.descriptorTaken.fsd := by rw [getInode_frame _ _ _ _ _ getDone]
      refine readSound.emptied _ _ ?_ empty ?_
      · simp [openPosition, empty]
      · intro _
        rw [sameFsd]
        exact inode.fits

/-- A store of an inode that completes shows that the block size fits the cache. -/
theorem putInode_fits (s next : State) (number : Int) (inode : Inode) (value : Int)
    (blocksz : s.device.blocksize = s.fsd.blocksz) (positive : 0 < s.fsd.blocksz.toInt)
    (done : fsPutInodeByNum s 0 number inode = some (.ok value, next)) : CacheFits s.fsd := by
  obtain ⟨_, perBlock, _, _, cache, middle, readDone, _⟩ := (putInode_ok_iff ..).mp done
  have bound := toInt_range s.fsd.blocksz
  refine ⟨?_, ?_⟩
  · by_contra small
    apply perBlock
    have exact := unsigned_of_nonneg s.fsd.blocksz.toInt (by lia) (by omega)
    unfold Fsystem.inodesPerBlock sizeofInode
    lia
  · have good : 0 < s.device.blocksize.toInt := by
      rw [blocksz]
      exact positive
    rw [bread_eq _ _ _ _ _ _ good] at readDone
    split at readDone
    case isFalse => cases readDone
    case isTrue holds =>
      have room := holds.2 blockCacheSize rfl
      unfold blockCacheSize at room
      lia

/-- The inode number `fs_create` takes is not the last accepted one, unless that
lies in the inode region. -/
def CreateFits (s : State) (answers : Answers) (filename : CString) (mode : Int32) : Prop :=
  CreateRefused s answers filename mode ∨ (s.fsd.inodesUsed : Int) ≠ s.fsd.ninodes.toInt ∨
    s.fsd.ninodes.toInt % s.fsd.inodesPerBlock ≠ 0

instance (s : State) (answers : Answers) (filename : CString) (mode : Int32) :
    Decidable (CreateFits s answers filename mode) :=
  inferInstanceAs (Decidable ((_ ∨ _ ∨ _ ∨ _ ∨ _) ∨ _ ∨ _))

/-- An inode that `fs_create` stores under a number that fits lies in the inode
region. -/
theorem FilesSound.create_stored {s stored : State} (sound : FilesSound s) (answers : Answers)
    (filename : CString) (mode : Int32) (inode : Inode) (value : Int)
    (accepted : ¬ CreateRefused s answers filename mode)
    (createFits : CreateFits s answers filename mode) (empty : inode.size = 0)
    (putDone : fsPutInodeByNum s.inodeTaken 0 s.fsd.inodesUsed inode = some (.ok value, stored)) :
    CacheFits s.fsd ∧ InodeWithin s.fsd s.fsd.inodesUsed ∧ FilesSound stored ∧
      InodeSound stored s.fsd.inodesUsed := by
  have fits := putInode_fits _ _ _ _ _ sound.inodeTaken.geometry.blocksz
    sound.inodeTaken.geometry.positive putDone
  have within : InodeWithin s.inodeTaken.fsd s.fsd.inodesUsed := by
    refine ⟨Int.natCast_nonneg _, ((putInode_ok_iff ..).mp putDone).1, ?_⟩
    intro last
    rcases createFits with refused | different | notFull
    · exact absurd refused accepted
    · exact absurd last different
    · exact notFull
  have exact := putInode_exact sound.inodeTaken.geometry fits within.1 within.2.1
    (inodeBlock_within sound.inodeTaken.geometry fits within).2.2 inode
  rw [putDone, Option.some.injEq, Prod.mk.injEq] at exact
  obtain ⟨storedSound, inodeSound⟩ := sound.inodeTaken.stored s.fsd.inodesUsed inode fits within
    empty
  rw [← exact.2] at storedSound inodeSound
  exact ⟨⟨fits.low, fits.high⟩, within, storedSound, inodeSound⟩

/-- `fs_create` keeps the invariant when its inode number fits. -/
theorem FilesSound.create {s next : State} (sound : FilesSound s) (answers : Answers)
    (filename : CString) (mode : Int32) (value : Return)
    (createFits : CreateFits s answers filename mode)
    (done : fsCreate s answers filename mode = some (value, next)) : FilesSound next := by
  rcases create_cases _ _ _ _ _ _ done with
    ⟨_, rfl, _⟩ | ⟨accepted, chunk, put, stored, _, putDone, outcome⟩
  · exact sound
  rcases putInode_cases _ _ _ _ _ putDone with ⟨_, rfl, failure, rfl⟩ | ⟨notAbove, rfl, _⟩
  · rcases outcome with ⟨_, rfl, _⟩ | ⟨_, _, impossible, _⟩
    · exact sound.inodeTaken
    · cases impossible
  · obtain ⟨_, _, storedSound, inode⟩ := sound.create_stored answers filename mode _ _ accepted
      createFits rfl putDone
    rcases outcome with ⟨_, rfl, _⟩ | ⟨room, opened, _, _, openDone, _⟩
    · exact storedSound
    · exact (storedSound.withEntry (freshDirent room s.fsd.inodesUsed filename) inode).open _ _ _ _
        openDone

/-- The limit of the space check, where an `int` holds it. -/
theorem wrap_blocks (fsd : Fsystem) (fits : CacheFits fsd) :
    wrap (fsd.blocksz.toInt * inodeBlocks) = 12 * fsd.blocksz.toInt := by
  obtain ⟨low, high⟩ := fits
  unfold inodeBlocks
  rw [wrap_of_range _ (by push_cast; lia) (by push_cast; omega)]
  push_cast
  lia

/-- A count that does not carry the file pointer past the largest `int`. -/
def CountFits (s : State) (fd nbytes : Int32) : Prop :=
  ∀ d : Fin 16, fd.toInt = d.val → (s.oft d).state = .opened →
    (s.oft d).fileptr.toInt + nbytes.toInt < 2 ^ 31

instance (s : State) (fd nbytes : Int32) : Decidable (CountFits s fd nbytes) :=
  inferInstanceAs (Decidable (∀ _ : Fin 16, _ → _ → _))

section Transfer

variable {s : State} (sound : FilesSound s) {d : Fin 16} {nbytes : Int}

include sound in
/-- An open entry's pointer and size as numbers of bytes. -/
theorem FilesSound.bounds : 0 ≤ (s.oft d).fileptr.toInt ∧
    (s.oft d).fileptr.toInt ≤ (s.oft d).inode.size.toInt ∧
    (s.oft d).inode.size.toInt < 12 * s.fsd.blocksz.toInt ∧
    (s.oft d).inode.size.toInt < 2 ^ 31 :=
  ⟨(sound.entries d).pointerLow, (sound.entries d).pointerHigh, (sound.entries d).size,
    (toInt_range _).2⟩

include sound in
/-- Without an overflow a read ends inside the file. -/
theorem FilesSound.readEnd_range (positive : 0 < nbytes)
    (fits : (s.oft d).fileptr.toInt + nbytes < 2 ^ 31) :
    (s.oft d).fileptr.toInt ≤ readEnd (s.oft d) nbytes ∧
      readEnd (s.oft d) nbytes ≤ (s.oft d).inode.size.toInt ∧
      readEnd (s.oft d) nbytes =
        min ((s.oft d).fileptr.toInt + nbytes) (s.oft d).inode.size.toInt := by
  obtain ⟨low, high, _, _⟩ := sound.bounds (d := d)
  unfold readEnd
  rw [wrap_of_range _ (by omega) fits]
  split <;> lia

/-- The state in which the blocks of a write have been allocated. -/
def State.allocated (s : State) (marked : Fsystem) : State := { s with fsd := marked }

theorem allocated_same (s : State) (marked : Fsystem) (grows : MaskGrows s.fsd marked) :
    SameGeometry s (s.allocated marked) :=
  ⟨rfl, rfl, rfl, grows.nblocks, grows.blocksz, grows.ninodes, grows.maskSize⟩

include sound in
/-- Marking blocks keeps the invariant. -/
theorem FilesSound.allocated (marked : Fsystem) (grows : MaskGrows s.fsd marked) :
    FilesSound (s.allocated marked) :=
  FilesSound.kept (allocated_same s marked grows) sound grows.kept grows.rootDir rfl
    (fun _ _ => rfl)

variable {marked : Fsystem} {grown : Inode} {newSize : Int}

/-- The size of the entry a write leaves behind. -/
theorem writtenEntry_size (entry : FileTable) (nonneg : 0 ≤ newSize) (small : newSize < 2 ^ 31)
    (same : grown.size = entry.inode.size) :
    (writtenEntry entry grown newSize).inode.size.toInt = max entry.inode.size.toInt newSize := by
  unfold writtenEntry
  dsimp only
  rw [same]
  split
  · rw [toInt_ofInt, wrap_of_range _ (by omega) small]
    lia
  · lia

/-- Its pointer is the end of the range. -/
theorem writtenEntry_pointer (entry : FileTable) (inode : Inode) (nonneg : 0 ≤ newSize)
    (small : newSize < 2 ^ 31) : (writtenEntry entry inode newSize).fileptr.toInt = newSize := by
  unfold writtenEntry
  rw [toInt_ofInt, wrap_of_range _ (by omega) small]

/-- The entry a write leaves behind uses the blocks of before and those just
allocated. -/
theorem written_uses (s : State) (d : Fin 16) (small : newSize < 2 ^ 31) (nonneg : 0 ≤ newSize)
    (allocated : Allocated s.fsd marked (blocksFor (s.oft d).inode.size.toInt s.fsd.blocksz.toInt)
      (blocksFor newSize s.fsd.blocksz.toInt -
        blocksFor (s.oft d).inode.size.toInt s.fsd.blocksz.toInt).toNat (s.oft d).inode grown)
    (i : Fin 12) (uses : Uses s.fsd (writtenEntry (s.oft d) grown newSize) i) :
    (Uses s.fsd (s.oft d) i ∧ grown.blocks i = (s.oft d).inode.blocks i) ∨
    (blocksFor (s.oft d).inode.size.toInt s.fsd.blocksz.toInt ≤ i ∧
      (i : Int) < blocksFor (s.oft d).inode.size.toInt s.fsd.blocksz.toInt +
        (blocksFor newSize s.fsd.blocksz.toInt -
          blocksFor (s.oft d).inode.size.toInt s.fsd.blocksz.toInt).toNat) := by
  rcases lt_or_ge (i : Int) (blocksFor (s.oft d).inode.size.toInt s.fsd.blocksz.toInt) with
    old | new
  · exact Or.inl ⟨old, allocated.kept i (Or.inl old)⟩
  · right
    refine ⟨new, ?_⟩
    unfold Uses at uses
    rw [writtenEntry_size _ nonneg small allocated.size] at uses
    rcases max_choice (s.oft d).inode.size.toInt newSize with same | grew
    · rw [same] at uses
      omega
    · rw [grew] at uses
      lia

include sound in
/-- A write that got its blocks leaves a sound entry whose blocks are its own.

A block of before is the entry's own by the invariant. A block just allocated was
free, so it is no entry's, and the allocation handed it out once. -/
theorem FilesSound.written (nonneg : 0 ≤ newSize) (small : newSize < 2 ^ 31)
    (short : newSize < 12 * s.fsd.blocksz.toInt) (isOpen : (s.oft d).state = .opened)
    (grows : MaskGrows s.fsd marked)
    (allocated : Allocated s.fsd marked (blocksFor (s.oft d).inode.size.toInt s.fsd.blocksz.toInt)
      (blocksFor newSize s.fsd.blocksz.toInt -
        blocksFor (s.oft d).inode.size.toInt s.fsd.blocksz.toInt).toNat (s.oft d).inode grown) :
    FilesSound ((s.allocated marked).setOft d (writtenEntry (s.oft d) grown newSize)) := by
  have same := allocated_same s marked grows
  have old := sound.entries d
  have cases := written_uses s d small nonneg allocated
  have usesBack : ∀ i, Uses (s.allocated marked).fsd (writtenEntry (s.oft d) grown newSize) i →
      Uses s.fsd (writtenEntry (s.oft d) grown newSize) i := fun i => same.uses.mp
  have free : ∀ i e j, blocksFor (s.oft d).inode.size.toInt s.fsd.blocksz.toInt ≤ (i : Fin 12) →
      (i : Int) < blocksFor (s.oft d).inode.size.toInt s.fsd.blocksz.toInt +
        (blocksFor newSize s.fsd.blocksz.toInt -
          blocksFor (s.oft d).inode.size.toInt s.fsd.blocksz.toInt).toNat →
      Uses s.fsd (s.oft e) j → grown.blocks i ≠ (s.oft e).inode.blocks j := by
    intro i e j low high uses equal
    have isFree := allocated.free i low high
    have isMarked := (sound.entries e).marked j uses
    unfold Fsystem.Marked at isMarked
    rw [equal, isMarked] at isFree
    cases isFree
  have sizeExact := writtenEntry_size (s.oft d) nonneg small allocated.size
  have pointerExact := writtenEntry_pointer (s.oft d) grown nonneg small
  apply (sound.allocated marked grows).replaced d
  · refine ⟨?_, ?_, ?_, ?_, ?_⟩
    · rw [pointerExact]
      exact nonneg
    · rw [pointerExact, sizeExact]
      exact le_max_right _ _
    · rw [sizeExact, same.blocksz]
      exact max_lt old.size short
    · intro i uses
      apply same.dataRegion
      rcases cases i (usesBack i uses) with ⟨oldUses, kept⟩ | ⟨low, high⟩
      · exact kept ▸ old.region i oldUses
      · exact allocated.region i low high
    · intro i uses
      rcases cases i (usesBack i uses) with ⟨oldUses, kept⟩ | ⟨low, high⟩
      · have nonnegBlock := le_trans sound.geometry.regionFits.1 (old.region i oldUses).1
        exact kept ▸ grows.kept _ nonnegBlock (old.marked i oldUses)
      · exact allocated.marked i low high
  · intro _
    exact same.cacheFits (sound.opened d isOpen)
  · intro i j iUses jUses equal
    rcases cases i (usesBack i iUses) with ⟨iOld, iKept⟩ | ⟨iLow, iHigh⟩ <;>
      rcases cases j (usesBack j jUses) with ⟨jOld, jKept⟩ | ⟨jLow, jHigh⟩
    · exact (sound.distinct d d i j iOld jOld (iKept ▸ jKept ▸ equal)).2
    · exact absurd (equal.symm.trans iKept) (free j d i jLow jHigh iOld)
    · exact absurd (equal.trans jKept) (free i d j iLow iHigh jOld)
    · exact allocated.distinct i j iLow iHigh jLow jHigh equal
  · intro e i j different iUses jUses equal
    have jOld : Uses s.fsd (s.oft e) j := same.uses.mp jUses
    rcases cases i (usesBack i iUses) with ⟨iOld, iKept⟩ | ⟨iLow, iHigh⟩
    · exact different (sound.distinct d e i j iOld jOld (iKept ▸ equal)).1.symm
    · exact free i e j iLow iHigh jOld equal

include sound in
/-- The blocks a read or a write of before visits are used ones. -/
theorem FilesSound.visits (low high : Int) (nonneg : 0 ≤ low)
    (ordered : high ≤ (s.oft d).inode.size.toInt) :
    Visits s.fsd (s.oft d).inode (blocksFor low s.fsd.blocksz.toInt)
      (blocksFor high s.fsd.blocksz.toInt - blocksFor low s.fsd.blocksz.toInt).toNat := by
  have positive := sound.geometry.positive
  obtain ⟨_, _, short, _⟩ := sound.bounds (d := d)
  have lowNonneg := blocksFor_nonneg low _ positive nonneg
  have below := blocksFor_mono high _ _ positive ordered
  have twelve := blocksFor_le _ _ positive short
  intro k from_ upTo
  refine ⟨⟨by lia, by lia⟩, (sound.entries d).region ⟨k.toNat, by lia⟩ ?_⟩
  unfold Uses
  simp only
  lia

include sound in
/-- The blocks a write visits are used ones or just allocated. -/
theorem FilesSound.written_visits (low : Int) (nonneg : 0 ≤ low)
    (inside : low ≤ (s.oft d).inode.size.toInt) (short : newSize < 12 * s.fsd.blocksz.toInt)
    (grows : MaskGrows s.fsd marked)
    (allocated : Allocated s.fsd marked (blocksFor (s.oft d).inode.size.toInt s.fsd.blocksz.toInt)
      (blocksFor newSize s.fsd.blocksz.toInt -
        blocksFor (s.oft d).inode.size.toInt s.fsd.blocksz.toInt).toNat (s.oft d).inode grown) :
    Visits marked grown (blocksFor low s.fsd.blocksz.toInt)
      (blocksFor newSize s.fsd.blocksz.toInt - blocksFor low s.fsd.blocksz.toInt).toNat := by
  have positive := sound.geometry.positive
  have same := allocated_same s marked grows
  have lowNonneg := blocksFor_nonneg low _ positive nonneg
  have below := blocksFor_mono low _ _ positive inside
  have twelve := blocksFor_le _ _ positive short
  intro k from_ upTo
  refine ⟨⟨by lia, by lia⟩, ?_⟩
  apply same.dataRegion
  rcases lt_or_ge k (blocksFor (s.oft d).inode.size.toInt s.fsd.blocksz.toInt) with old | new
  · have uses : Uses s.fsd (s.oft d) ⟨k.toNat, by lia⟩ := by
      unfold Uses
      simp only
      lia
    have kept := allocated.kept ⟨k.toNat, by omega⟩ (Or.inl (by simp only; omega))
    exact kept ▸ (sound.entries d).region _ uses
  · exact allocated.region ⟨k.toNat, by omega⟩ (by simp only; lia) (by simp only; lia)

end Transfer

/-- A write loop over data blocks leaves the inode region alone. -/
theorem LoopDone.region {s next : State} {inode : Inode} {i : Int} {turns : Nat}
    (loop : LoopDone s next inode i turns) (geometry : Geometry s)
    (visits : Visits s.fsd inode i turns) (address : Nat)
    (below : (address : Int) < s.fsd.firstDataBlock * s.fsd.blocksz.toInt) :
    next.device.blocks.bytes address = s.device.blocks.bytes address := by
  apply loop.bytes
  intro k from_ upTo block found
  obtain ⟨inside, region⟩ := visits k from_ upTo
  have named : block = inode.blocks ⟨k.toNat, by lia⟩ := by
    unfold Inode.block at found
    rw [dif_pos inside] at found
    exact (Option.some.inj found).symm
  left
  rw [named]
  exact lt_of_lt_of_le below
    (Int.mul_le_mul_of_nonneg_right region.1 (le_of_lt geometry.positive))

/-- What a read that passed its checks moves, in terms of block counts. -/
theorem FilesSound.read_cases {s next : State} (sound : FilesSound s) (answers : Answers)
    (fd : Int32) (buf after : Memory) (nbytes : Int32) (value : Return)
    (fits : CountFits s fd nbytes)
    (done : fsRead s answers fd buf nbytes = some (value, after, next)) :
    (next = s ∧ after = buf ∧
      ((∃ failure, value = .error failure ∧ ReadRefused s fd) ∨ nbytes.toInt ≤ 0)) ∨
    (∃ (d : Fin 16) (middle : State) (newSize : Int),
      fd.toInt = d.val ∧ (s.oft d).state = .opened ∧ 0 < nbytes.toInt ∧
      newSize = min ((s.oft d).fileptr.toInt + nbytes.toInt) (s.oft d).inode.size.toInt ∧
      value = .ok (newSize - (s.oft d).fileptr.toInt) ∧
      readBlocks (s.oft d).inode (s.oft d).fileptr.toInt newSize
        (blocksFor (s.oft d).fileptr.toInt s.fsd.blocksz.toInt - 1)
        (blocksFor newSize s.fsd.blocksz.toInt - 1)
        (blocksFor newSize s.fsd.blocksz.toInt -
          blocksFor (s.oft d).fileptr.toInt s.fsd.blocksz.toInt).toNat
        (blocksFor (s.oft d).fileptr.toInt s.fsd.blocksz.toInt) 0 buf s = some (after, middle) ∧
      middle = { s with transfers := middle.transfers } ∧
      next = middle.setOft d { s.oft d with fileptr := Int32.ofInt newSize }) := by
  rcases FileSystem.read_cases _ _ _ _ _ _ _ _ done with
    same | ⟨d, middle, here, isOpen, positive, _, rfl, readDone, rfl⟩
  · exact Or.inl same
  · right
    obtain ⟨low, high, _, small⟩ := sound.bounds (d := d)
    obtain ⟨endLow, endHigh, endExact⟩ := sound.readEnd_range positive (fits d here isOpen)
    have bsPositive := sound.geometry.positive
    have counted : readCount (s.oft d) nbytes.toInt =
        readEnd (s.oft d) nbytes.toInt - (s.oft d).fileptr.toInt := by
      unfold readCount readEnd
      rw [wrap_of_range _ (by lia) (fits d here isOpen)]
      split
      · rw [wrap_of_range _ (by lia) (by omega)]
      · lia
    rw [blockBefore_exact _ _ bsPositive low (by lia),
      blockBefore_exact _ _ bsPositive (by lia) (by lia), sub_sub_sub_cancel_right,
      Int.sub_add_cancel] at readDone
    have frame := readBlocks_frame _ _ _ _ _ _ _ _ _ _ _ _ readDone
    have sameOft : middle.oft d = s.oft d := by rw [frame]
    exact ⟨d, middle, _, here, isOpen, positive, endExact, by rw [counted], readDone, frame,
      by rw [sameOft]⟩

/-- `fs_read` keeps the invariant when its count fits. -/
theorem FilesSound.read {s next : State} (sound : FilesSound s) (answers : Answers) (fd : Int32)
    (buf after : Memory) (nbytes : Int32) (value : Return) (fits : CountFits s fd nbytes)
    (done : fsRead s answers fd buf nbytes = some (value, after, next)) : FilesSound next := by
  rcases sound.read_cases answers fd buf after nbytes value fits done with
    ⟨rfl, _⟩ | ⟨d, middle, newSize, here, isOpen, positive, exact, _, _, frame, rfl⟩
  · exact sound
  · obtain ⟨low, high, _, small⟩ := sound.bounds (d := d)
    have middleSound : FilesSound middle := by
      rw [frame]
      have same : SameGeometry s { s with transfers := middle.transfers } :=
        ⟨rfl, rfl, rfl, rfl, rfl, rfl, rfl⟩
      exact FilesSound.kept same sound (fun _ _ marked => marked) rfl rfl (fun _ _ => rfl)
    have sameOft : middle.oft = s.oft := by rw [frame]
    have stored : (Int32.ofInt newSize).toInt = newSize := by
      rw [toInt_ofInt, wrap_of_range _ (by lia) (by lia)]
    refine middleSound.moved d _ (by rw [sameOft]) ?_ ?_ ?_
    · dsimp only
      lia
    · dsimp only
      rw [stored, sameOft]
      lia
    · intro _
      exact middleSound.opened d (by rw [sameOft]; exact isOpen)

/-- What a write that passed its checks allocates and where it writes, in terms
of block counts. -/
theorem FilesSound.write_cases {s next : State} (sound : FilesSound s) (answers : Answers)
    (fd : Int32) (buf : Memory) (nbytes : Int32) (value : Return) (fits : CountFits s fd nbytes)
    (done : fsWrite s answers fd buf nbytes = some (value, next)) :
    (next = s ∧ ((∃ failure, value = .error failure ∧ WriteRefused s fd nbytes) ∨
      value = .ok 0 ∧ nbytes.toInt ≤ 0)) ∨
    (∃ (d : Fin 16) (found : Option Inode) (marked : Fsystem) (newSize : Int),
      fd.toInt = d.val ∧ (s.oft d).state = .opened ∧ 0 < nbytes.toInt ∧
      newSize = (s.oft d).fileptr.toInt + nbytes.toInt ∧
      newSize < 12 * s.fsd.blocksz.toInt ∧ MaskGrows s.fsd marked ∧
      ((found = none ∧ value = .error .noBlockEmpty ∧ next = s.allocated marked) ∨
        (∃ inode middle, found = some inode ∧ value = .ok nbytes.toInt ∧
          Allocated s.fsd marked (blocksFor (s.oft d).inode.size.toInt s.fsd.blocksz.toInt)
            (blocksFor newSize s.fsd.blocksz.toInt -
              blocksFor (s.oft d).inode.size.toInt s.fsd.blocksz.toInt).toNat
            (s.oft d).inode inode ∧
          writeBlocks inode (s.oft d).fileptr.toInt newSize
            (blocksFor (s.oft d).fileptr.toInt s.fsd.blocksz.toInt - 1)
            (blocksFor newSize s.fsd.blocksz.toInt - 1) buf
            (blocksFor newSize s.fsd.blocksz.toInt -
              blocksFor (s.oft d).fileptr.toInt s.fsd.blocksz.toInt).toNat
            (blocksFor (s.oft d).fileptr.toInt s.fsd.blocksz.toInt) 0
            (s.allocated marked) = some middle ∧
          next = middle.setOft d (writtenEntry (s.oft d) inode newSize)))) := by
  rcases FileSystem.write_cases _ _ _ _ _ _ _ done with
    same | ⟨d, found, marked, here, isOpen, positive, _, space, allocDone, outcome⟩
  · exact Or.inl same
  · right
    obtain ⟨low, high, short, small⟩ := sound.bounds (d := d)
    have noOverflow := fits d here isOpen
    have cache := sound.opened d isOpen
    have bsPositive := sound.geometry.positive
    have newSize : writeEnd (s.oft d) nbytes.toInt = (s.oft d).fileptr.toInt + nbytes.toInt :=
      wrap_of_range _ (by omega) noOverflow
    rw [newSize, wrap_blocks s.fsd cache] at space
    rw [newSize, blockBefore_exact _ _ bsPositive (by lia) noOverflow,
      blockBefore_exact _ _ bsPositive (by lia) small, sub_sub_sub_cancel_right,
      Int.sub_add_cancel] at allocDone
    obtain ⟨grows, exact⟩ := allocBlocks_exact _ _ _ _ _ _ sound.geometry.regionFits allocDone
    refine ⟨d, found, marked, _, here, isOpen, positive, rfl, space, grows, ?_⟩
    rcases outcome with none | ⟨inode, middle, isSome, success, writeDone, rfl⟩
    · exact Or.inl none
    · right
      rw [newSize, blockBefore_exact _ _ bsPositive (by omega) noOverflow,
        blockBefore_exact _ _ bsPositive low (by lia), sub_sub_sub_cancel_right,
        Int.sub_add_cancel] at writeDone
      have sameOft : middle.oft d = s.oft d := by
        rw [writeBlocks_frame _ _ _ _ _ _ _ _ _ _ _ writeDone]
      refine ⟨inode, middle, isSome, success, exact inode isSome, writeDone, ?_⟩
      rw [newSize, sameOft]

/-- `fs_write` keeps the invariant when its count fits. -/
theorem FilesSound.write {s next : State} (sound : FilesSound s) (answers : Answers) (fd : Int32)
    (buf : Memory) (nbytes : Int32) (value : Return) (fits : CountFits s fd nbytes)
    (done : fsWrite s answers fd buf nbytes = some (value, next)) : FilesSound next := by
  rcases sound.write_cases answers fd buf nbytes value fits done with
    ⟨rfl, _⟩ | ⟨d, found, marked, newSize, here, isOpen, positive, exact, short, grows, outcome⟩
  · exact sound
  rcases outcome with ⟨_, _, rfl⟩ | ⟨inode, middle, _, _, allocated, writeDone, rfl⟩
  · exact sound.allocated marked grows
  · obtain ⟨low, high, _, _⟩ := sound.bounds (d := d)
    have noOverflow := fits d here isOpen
    have allocatedSound := sound.allocated marked grows
    have visits := sound.written_visits _ low high short grows allocated
    have loop := writeBlocks_loop allocatedSound.geometry visits low (by lia) (le_refl 0) writeDone
    have frame := writeBlocks_frame _ _ _ _ _ _ _ _ _ _ _ writeDone
    have writtenSound := sound.written (by omega) (by omega) short isOpen grows allocated
    have region := loop.region allocatedSound.geometry visits
    have same : SameGeometry ((s.allocated marked).setOft d (writtenEntry (s.oft d) inode newSize))
        (middle.setOft d (writtenEntry (s.oft d) inode newSize)) := by
      rw [frame]
      exact ⟨rfl, rfl, rfl, rfl, rfl, rfl, rfl⟩
    have sameFsd : middle.fsd = marked := by
      rw [frame]
      rfl
    have sameOft : middle.oft = s.oft := by
      rw [frame]
      rfl
    refine FilesSound.kept same writtenSound ?_ ?_ ?_ ?_
    · intro block _ isMarked
      change middle.fsd.Marked block
      rw [sameFsd]
      exact isMarked
    · change middle.fsd.rootDir = marked.rootDir
      rw [sameFsd]
    · change Function.update middle.oft d _ = Function.update s.oft d _
      rw [sameOft]
    · exact region

/-- `fs_close` and `fs_seek` keep the invariant. -/
theorem FilesSound.close {s next : State} (sound : FilesSound s) (fd : Int32) (value : Return)
    (done : fsClose s fd = some (value, next)) : FilesSound next := by
  rcases close_cases _ _ _ _ done with ⟨rfl, _⟩ | ⟨d, _, isOpen, _, rfl⟩
  · exact sound
  · exact sound.moved d _ rfl (sound.entries d).pointerLow (sound.entries d).pointerHigh
      (fun impossible => by cases impossible)

theorem FilesSound.seek {s next : State} (sound : FilesSound s) (answers : Answers)
    (fd offset : Int32) (value : Return)
    (done : fsSeek s answers fd offset = some (value, next)) : FilesSound next := by
  rcases seek_cases _ _ _ _ _ _ done with ⟨rfl, _⟩ | ⟨d, _, isOpen, _, low, high, rfl⟩
  · exact sound
  · have stored : (Int32.ofInt (wrap ((s.oft d).fileptr.toInt + offset.toInt))).toInt =
        wrap ((s.oft d).fileptr.toInt + offset.toInt) := by
      have range := wrap_range ((s.oft d).fileptr.toInt + offset.toInt)
      rw [toInt_ofInt, wrap_of_range _ range.1 range.2]
    refine sound.moved d _ rfl ?_ ?_ (fun _ => sound.opened d isOpen)
    · dsimp only
      rw [stored]
      exact low
    · dsimp only
      rw [stored]
      exact high

/-- The condition on a call: on files, with an inode number that fits and a count
that fits. -/
def StepFits (s : State) : Call → Prop
  | .mkdev .. => False
  | .mkfs .. => False
  | .create answers filename mode => CreateFits s answers filename mode
  | .read _ fd _ nbytes => CountFits s fd nbytes
  | .write _ fd _ nbytes => CountFits s fd nbytes
  | _ => True

instance (s : State) : DecidablePred (StepFits s)
  | .mkdev .. | .mkfs .. => isFalse id
  | .create answers filename mode => inferInstanceAs (Decidable (CreateFits s answers filename mode))
  | .read _ fd _ nbytes | .write _ fd _ nbytes => inferInstanceAs (Decidable (CountFits s fd nbytes))
  | .open .. | .close .. | .seek .. => isTrue trivial

theorem StepFits.onFiles {s : State} {call : Call} (fits : StepFits s call) : call.OnFiles := by
  cases call <;> trivial

/-- Every call that meets the condition keeps the invariant. -/
theorem FilesSound.step {s next : State} {call : Call} {reply : Reply} (sound : FilesSound s)
    (fits : StepFits s call) (done : exec s call = some (reply, next)) : FilesSound next := by
  cases call with
  | mkdev => exact False.elim fits
  | mkfs => exact False.elim fits
  | create answers filename mode => exact sound.create _ _ _ _ fits (exec_create done)
  | «open» answers filename flags => exact sound.open _ _ _ _ (exec_open done)
  | close fd => exact sound.close _ _ (exec_close done)
  | seek answers fd offset => exact sound.seek _ _ _ _ (exec_seek done)
  | read answers fd buf nbytes =>
    obtain ⟨after, completed, _⟩ := exec_read done
    exact sound.read _ _ _ _ _ _ fits completed
  | write answers fd buf nbytes => exact sound.write _ _ _ _ _ fits (exec_write done)

/-- Every run whose calls meet the condition keeps the invariant. -/
theorem FilesSound.run {first last : State} {events : List (Event State Call Reply)}
    (sound : FilesSound first) (run : Run exec first events last) (fits : Meets StepFits events) :
    FilesSound last :=
  invariant_last FilesSound StepFits
    (fun _ _ _ _ sound fits completed => sound.step fits completed) first last events run sound fits

/-- The invariant holds on a device formatted once with a sound geometry. -/
theorem formatted_filesSound (size count inodes : Int32) (s : State)
    (formatted : FormattedBy size count inodes s) (geometry : Geometry s) : FilesSound s := by
  have chosen := formatted_chosen size count inodes s formatted
  refine ⟨geometry, ?_, ?_, ?_, ?_⟩
  · intro d
    rw [chosen.oft]
    exact entrySound_empty s.fsd zeroTable geometry.positive rfl rfl
  · intro d e i j uses
    rw [chosen.oft] at uses
    exact absurd uses (empty_unused s.fsd zeroTable geometry.positive rfl i)
  · intro d isOpen
    rw [chosen.oft] at isOpen
    cases isOpen
  · intro entry member
    rw [chosen.rootDir] at member
    cases member

end Xinu.FileSystem
