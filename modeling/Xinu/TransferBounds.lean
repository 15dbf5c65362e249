import Xinu.FileInvariants
import Xinu.Directory

/-!
# Bounds of the block-store transfers

`bs_bread` and `bs_bwrite` check the offset and nothing else, so every caller has
to stay inside its block. Formatting does not: the superblock image has 604 bytes,
and it stays inside block 0 only on devices with larger blocks. The block cache
has 512 bytes, and every read or store of an inode moves a whole block through it,
so on those devices the first file that is created runs over the cache.

Between 64 and 512 bytes to a block every later call is in bounds. A call on a
sound state whose arguments fit completes: it divides by no zero, leaves neither
the cache nor the device, and each of its transfers names a block of the device
and stays inside it.
-/

namespace Xinu.FileSystem

open CIntegers BlockStore Runs

/-- A step adds transfers to the record, all of them in bounds. -/
def IssuesInBounds (s next : State) : Prop :=
  ∃ issued, next.transfers = s.transfers ++ issued ∧ ∀ transfer ∈ issued, transfer.InBounds s.fsd

theorem issues_refl (s next : State) (same : next.transfers = s.transfers) :
    IssuesInBounds s next := ⟨[], by simp [same], by simp⟩

theorem issues_trans {first second third : State} (same : SameGeometry first second)
    (left : IssuesInBounds first second) (right : IssuesInBounds second third) :
    IssuesInBounds first third := by
  obtain ⟨front, recorded, frontIn⟩ := left
  obtain ⟨back, recordedLater, backIn⟩ := right
  refine ⟨front ++ back, by rw [recordedLater, recorded, List.append_assoc], ?_⟩
  intro transfer member
  rcases List.mem_append.mp member with early | late
  · exact frontIn transfer early
  · have inner := backIn transfer late
    unfold Transfer.InBounds at inner ⊢
    rwa [same.nblocks, same.blocksz] at inner

/-- The transfer of the block of an inode within the region is in bounds. -/
theorem inodeTransfer_inBounds (s : State) (geometry : Geometry s) (fits : CacheFits s.fsd)
    (number : Int) (within : InodeWithin s.fsd number) (write : Bool) :
    (inodeTransfer s.fsd write number).InBounds s.fsd := by
  obtain ⟨low, _, high⟩ := inodeBlock_within geometry fits within
  exact ⟨le_trans (by decide) low, high, le_refl 0, by rw [inodeTransfer]; simp⟩

/-- The reads of `fs_open` are in bounds. -/
theorem FilesSound.open_issues {s next : State} (sound : FilesSound s) (answers : Answers)
    (filename : CString) (flags : Int32) (value : Return)
    (done : fsOpen s answers filename flags = some (value, next)) : IssuesInBounds s next := by
  rcases open_cases s next answers filename flags value done with
    ⟨_, rfl, _⟩ | ⟨_, i, entry, found, read, present, taken, getDone, outcome⟩
  · exact issues_refl next next rfl
  · have inode := sound.inodes entry (lookup_member filename 0 i _ entry present)
    have record : next.transfers = read.transfers := by
      rcases outcome with ⟨_, rfl, _⟩ | ⟨_, _, _, _, rfl⟩ <;> rfl
    rcases getInode_cases _ _ _ _ getDone with ⟨_, rfl, _⟩ | ⟨_, _, recorded⟩
    · exact issues_refl s next record
    · refine ⟨[inodeTransfer s.fsd false entry.inodeNum], by rw [record, recorded]; rfl, ?_⟩
      intro transfer member
      rw [List.mem_singleton.mp member]
      exact inodeTransfer_inBounds s sound.geometry inode.fits _ inode.within false

/-- The transfers of `fs_create` are in bounds when its inode number fits. -/
theorem FilesSound.create_issues {s next : State} (sound : FilesSound s) (answers : Answers)
    (filename : CString) (mode : Int32) (value : Return)
    (createFits : CreateFits s answers filename mode)
    (done : fsCreate s answers filename mode = some (value, next)) : IssuesInBounds s next := by
  rcases create_cases _ _ _ _ _ _ done with
    ⟨_, rfl, _⟩ | ⟨accepted, chunk, put, stored, _, putDone, outcome⟩
  · exact issues_refl next next rfl
  rcases putInode_cases _ _ _ _ _ putDone with ⟨_, rfl, failure, rfl⟩ | ⟨notAbove, rfl, putTransfers⟩
  · rcases outcome with ⟨_, rfl, _⟩ | ⟨_, _, impossible, _⟩
    · exact issues_refl s _ rfl
    · cases impossible
  · obtain ⟨fits, within, storedSound, inode⟩ := sound.create_stored answers filename mode _ _
      accepted createFits rfl putDone
    have inBounds := inodeTransfer_inBounds s sound.geometry fits _ within
    have storedIssues : IssuesInBounds s stored := by
      refine ⟨[inodeTransfer s.fsd false s.fsd.inodesUsed, inodeTransfer s.fsd true
        s.fsd.inodesUsed], by rw [putTransfers, List.append_assoc]; rfl, ?_⟩
      intro transfer member
      rcases List.mem_cons.mp member with rfl | last
      · exact inBounds false
      · rw [List.mem_singleton.mp last]
        exact inBounds true
    rcases outcome with ⟨_, rfl, _⟩ | ⟨room, opened, _, _, openDone, _⟩
    · exact storedIssues
    · have storedSame : SameGeometry s stored := by
        rw [putInode_frame _ _ _ _ _ _ putDone]
        exact ⟨rfl, rfl, rfl, rfl, rfl, rfl, rfl⟩
      exact issues_trans storedSame storedIssues
        ((storedSound.withEntry (freshDirent room s.fsd.inodesUsed filename) inode).open_issues
          _ _ _ _ openDone)

/-- The reads of `fs_read` are in bounds when its count fits. -/
theorem FilesSound.read_issues {s next : State} (sound : FilesSound s) (answers : Answers)
    (fd : Int32) (buf after : Memory) (nbytes : Int32) (value : Return)
    (fits : CountFits s fd nbytes)
    (done : fsRead s answers fd buf nbytes = some (value, after, next)) : IssuesInBounds s next := by
  rcases sound.read_cases answers fd buf after nbytes value fits done with
    ⟨rfl, _⟩ | ⟨d, middle, newSize, here, isOpen, positive, exact, _, readDone, _, rfl⟩
  · exact issues_refl next next rfl
  · obtain ⟨low, high, _, small⟩ := sound.bounds (d := d)
    have loop := readBlocks_loop sound.geometry (sound.visits _ _ low (by lia)) low (by lia)
      (le_refl 0) readDone
    exact loop.transfers

/-- The writes of `fs_write` are in bounds when its count fits. -/
theorem FilesSound.write_issues {s next : State} (sound : FilesSound s) (answers : Answers)
    (fd : Int32) (buf : Memory) (nbytes : Int32) (value : Return) (fits : CountFits s fd nbytes)
    (done : fsWrite s answers fd buf nbytes = some (value, next)) : IssuesInBounds s next := by
  rcases sound.write_cases answers fd buf nbytes value fits done with
    ⟨rfl, _⟩ | ⟨d, found, marked, newSize, here, isOpen, positive, exact, short, grows, outcome⟩
  · exact issues_refl next next rfl
  rcases outcome with ⟨_, _, rfl⟩ | ⟨inode, middle, _, _, allocated, writeDone, rfl⟩
  · exact issues_refl s _ rfl
  · obtain ⟨low, high, _, _⟩ := sound.bounds (d := d)
    have loop := writeBlocks_loop (sound.allocated marked grows).geometry
      (sound.written_visits _ low high short grows allocated) low (by lia) (le_refl 0) writeDone
    exact issues_trans (allocated_same s marked grows) (issues_refl s _ rfl) loop.transfers

/-- Every call that meets the condition issues transfers in bounds. -/
theorem FilesSound.step_issues {s next : State} {call : Call} {reply : Reply}
    (sound : FilesSound s) (fits : StepFits s call) (done : exec s call = some (reply, next)) :
    IssuesInBounds s next := by
  cases call with
  | mkdev => exact False.elim fits
  | mkfs => exact False.elim fits
  | create answers filename mode => exact sound.create_issues _ _ _ _ fits (exec_create done)
  | «open» answers filename flags => exact sound.open_issues _ _ _ _ (exec_open done)
  | close fd =>
    rcases close_cases _ _ _ _ (exec_close done) with ⟨rfl, _⟩ | ⟨_, _, _, _, rfl⟩ <;>
      exact issues_refl _ _ rfl
  | seek answers fd offset =>
    rcases seek_cases _ _ _ _ _ _ (exec_seek done) with ⟨rfl, _⟩ | ⟨_, _, _, _, _, _, rfl⟩ <;>
      exact issues_refl _ _ rfl
  | read answers fd buf nbytes =>
    obtain ⟨after, completed, _⟩ := exec_read done
    exact sound.read_issues _ _ _ _ _ _ fits completed
  | write answers fd buf nbytes => exact sound.write_issues _ _ _ _ _ fits (exec_write done)

/-- A descriptor that is not negative is refused or selects an entry. -/
theorem descriptor_cases (fd : Int32) (nonneg : 0 ≤ fd.toInt) :
    (numFd : Int) ≤ fd.toInt ∨ (fd.toInt < numFd ∧ ∃ d, oftIndex fd = some d ∧ fd.toInt = d.val) := by
  unfold numFd
  rcases le_or_gt (16 : Int) fd.toInt with outside | inside
  · exact Or.inl outside
  · have below : fd.toInt.toNat < 16 := by omega
    have named : fd.toInt = ((⟨fd.toInt.toNat, below⟩ : Fin 16) : Nat) := by
      simp only
      lia
    exact Or.inr ⟨inside, ⟨fd.toInt.toNat, below⟩, (oftIndex_iff fd _).mpr named, named⟩

/-- A granted request of nonzero size. -/
theorem getmem_granted (answers : Answers) (k : Nat) (granted : (answers k).isSome) :
    ∃ chunk, getmem answers k sizeofInode = some chunk := by
  obtain ⟨chunk, isSome⟩ := Option.isSome_iff_exists.mp granted
  refine ⟨chunk, ?_⟩
  unfold getmem
  rw [if_neg (by decide), isSome]

section Total

variable {s : State} (sound : FilesSound s) (answers : Answers)

/-- `fs_close` always returns on a descriptor that is not negative. -/
theorem close_total (fd : Int32) (nonneg : 0 ≤ fd.toInt) :
    ∃ value next, fsClose s fd = some (value, next) := by
  unfold fsClose
  rcases descriptor_cases fd nonneg with outside | ⟨inside, d, index, _⟩
  · rw [if_pos outside]
    exact ⟨_, _, rfl⟩
  · rw [if_neg (not_le.mpr inside), index]
    simp only [Option.bind_eq_bind, Option.bind_some]
    split <;> exact ⟨_, _, rfl⟩

/-- `fs_seek` returns when it gets memory for its copy of the inode. -/
theorem seek_total (fd offset : Int32) (nonneg : 0 ≤ fd.toInt) (granted : (answers 0).isSome) :
    ∃ value next, fsSeek s answers fd offset = some (value, next) := by
  unfold fsSeek
  obtain ⟨chunk, memory⟩ := getmem_granted answers 0 granted
  rcases descriptor_cases fd nonneg with outside | ⟨inside, d, index, _⟩
  · rw [if_pos outside]
    exact ⟨_, _, rfl⟩
  · rw [if_neg (not_le.mpr inside), index]
    simp only [Option.bind_eq_bind, Option.bind_some, memory]
    split
    · exact ⟨_, _, rfl⟩
    · split <;> exact ⟨_, _, rfl⟩

include sound in
/-- `fs_read` returns when its count fits. -/
theorem FilesSound.read_total (fd : Int32) (buf : Memory) (nbytes : Int32)
    (nonneg : 0 ≤ fd.toInt) (granted : (answers 0).isSome) (fits : CountFits s fd nbytes) :
    ∃ value after next, fsRead s answers fd buf nbytes = some (value, after, next) := by
  unfold fsRead
  obtain ⟨chunk, memory⟩ := getmem_granted answers 0 granted
  have bsPositive := sound.geometry.positive
  rcases descriptor_cases fd nonneg with outside | ⟨inside, d, index, here⟩
  · rw [if_pos outside]
    exact ⟨_, _, _, rfl⟩
  rw [if_neg (not_le.mpr inside), index]
  by_cases empty : nbytes.toInt ≤ 0
  · rw [if_pos empty]
    exact ⟨_, _, _, rfl⟩
  rw [if_neg empty]
  simp only [Option.bind_eq_bind, Option.bind_some, memory]
  by_cases shut : (s.oft d).state ≠ .opened
  · rw [if_pos shut]
    exact ⟨_, _, _, rfl⟩
  rw [if_neg shut, if_neg (ne_of_gt bsPositive)]
  obtain ⟨low, high, _, small⟩ := sound.bounds (d := d)
  obtain ⟨endLow, endHigh, _⟩ := sound.readEnd_range (not_le.mp empty)
    (fits d here (not_not.mp shut))
  obtain ⟨after, next, done, _⟩ := readBlocks_done (s.oft d).inode
    (s.oft d).fileptr.toInt (readEnd (s.oft d) nbytes.toInt)
    (blocksFor (s.oft d).fileptr.toInt s.fsd.blocksz.toInt - 1)
    (blocksFor (readEnd (s.oft d) nbytes.toInt) s.fsd.blocksz.toInt - 1) _ _ 0 buf s
    sound.geometry (sound.visits _ _ low endHigh) low (by lia) (le_refl 0)
  have ended : (if (s.oft d).inode.size.toInt < wrap ((s.oft d).fileptr.toInt + nbytes.toInt) then
      (s.oft d).inode.size.toInt else wrap ((s.oft d).fileptr.toInt + nbytes.toInt)) =
      readEnd (s.oft d) nbytes.toInt := rfl
  rw [ended, blockBefore_exact _ _ bsPositive low (by lia),
    blockBefore_exact _ _ bsPositive (by lia) (by lia), sub_sub_sub_cancel_right,
    Int.sub_add_cancel, done]
  exact ⟨_, _, _, rfl⟩

include sound in
/-- `fs_write` returns when its count fits. -/
theorem FilesSound.write_total (fd : Int32) (buf : Memory) (nbytes : Int32)
    (nonneg : 0 ≤ fd.toInt) (granted : (answers 0).isSome) (fits : CountFits s fd nbytes) :
    ∃ value next, fsWrite s answers fd buf nbytes = some (value, next) := by
  unfold fsWrite
  obtain ⟨chunk, memory⟩ := getmem_granted answers 0 granted
  have bsPositive := sound.geometry.positive
  rcases descriptor_cases fd nonneg with outside | ⟨inside, d, index, here⟩
  · rw [if_pos outside]
    exact ⟨_, _, rfl⟩
  rw [if_neg (not_le.mpr inside), index]
  by_cases empty : nbytes.toInt ≤ 0
  · rw [if_pos empty]
    exact ⟨_, _, rfl⟩
  rw [if_neg empty]
  simp only [Option.bind_eq_bind, Option.bind_some, memory]
  by_cases shut : (s.oft d).state ≠ .opened
  · rw [if_pos shut]
    exact ⟨_, _, rfl⟩
  rw [if_neg shut]
  by_cases full : wrap (s.fsd.blocksz.toInt * inodeBlocks) ≤
      wrap ((s.oft d).fileptr.toInt + nbytes.toInt)
  · rw [if_pos full]
    exact ⟨_, _, rfl⟩
  rw [if_neg full, if_neg (ne_of_gt bsPositive)]
  have isOpen := not_not.mp shut
  have cache := sound.opened d isOpen
  have noOverflow := fits d here isOpen
  obtain ⟨low, high, sizeShort, small⟩ := sound.bounds (d := d)
  have space := not_le.mp full
  rw [wrap_blocks s.fsd cache, wrap_of_range _ (by lia) noOverflow] at space
  rw [wrap_of_range _ (by omega) noOverflow, blockBefore_exact _ _ bsPositive low (by lia),
    blockBefore_exact _ _ bsPositive (by lia) noOverflow,
    blockBefore_exact _ _ bsPositive (by lia) small, sub_sub_sub_cancel_right,
    sub_sub_sub_cancel_right, Int.sub_add_cancel, Int.sub_add_cancel]
  have perBlock := cache.perBlock.1
  have first := blocksFor_nonneg _ _ bsPositive (le_trans low high)
  have last := blocksFor_le _ _ bsPositive space
  obtain ⟨found, marked, allocDone⟩ := allocBlocks_total
    (blocksFor ((s.oft d).fileptr.toInt + nbytes.toInt) s.fsd.blocksz.toInt -
      blocksFor (s.oft d).inode.size.toInt s.fsd.blocksz.toInt).toNat
    (blocksFor (s.oft d).inode.size.toInt s.fsd.blocksz.toInt) (s.oft d).inode s.fsd
    sound.geometry.regionFits sound.geometry.mask (by lia) first (by
      have sizeLast := blocksFor_le _ _ bsPositive sizeShort
      lia)
  obtain ⟨grows, exact⟩ := allocBlocks_exact _ _ _ _ _ _ sound.geometry.regionFits allocDone
  rw [allocDone, Option.bind_some]
  cases found with
  | none => exact ⟨_, _, rfl⟩
  | some inode =>
    obtain ⟨next, done, _⟩ := writeBlocks_done inode (s.oft d).fileptr.toInt
      ((s.oft d).fileptr.toInt + nbytes.toInt)
      (blocksFor (s.oft d).fileptr.toInt s.fsd.blocksz.toInt - 1)
      (blocksFor ((s.oft d).fileptr.toInt + nbytes.toInt) s.fsd.blocksz.toInt - 1) buf _ _ 0
      (s.allocated marked) (sound.allocated marked grows).geometry
      (sound.written_visits _ low high space grows (exact inode rfl)) low (by omega) (le_refl 0)
    dsimp only
    change ∃ value after, ((writeBlocks inode _ _ _ _ buf _ _ 0 (s.allocated marked)).bind _) = _
    rw [done, Option.bind_some]
    exact ⟨_, _, rfl⟩

include sound in
/-- `fs_open` returns when it gets memory for its copy of the inode. -/
theorem FilesSound.open_total (filename : CString) (flags : Int32)
    (granted : (answers 0).isSome) :
    ∃ value next, fsOpen s answers filename flags = some (value, next) := by
  obtain ⟨chunk, memory⟩ := getmem_granted answers 0 granted
  unfold fsOpen
  split
  · exact ⟨_, _, rfl⟩
  split
  · exact ⟨_, _, rfl⟩
  split
  case h_1 => exact ⟨_, _, rfl⟩
  case h_2 i entry present =>
    split
    case isFalse => exact ⟨_, _, rfl⟩
    case isTrue taken =>
      obtain ⟨fits, within, _⟩ := sound.descriptorTaken.inodes entry
        (lookup_member filename 0 i _ entry present)
      have found := getInode_exact sound.descriptorTaken.geometry fits within.1 within.2.1
        (inodeBlock_within sound.descriptorTaken.geometry fits within).2.2
      change ∃ value next, ((fsGetInodeByNum s.descriptorTaken 0 entry.inodeNum).bind _) = _
      rw [found, Option.bind_some]
      simp only [Option.bind_eq_bind, memory, Option.bind_some]
      split <;> exact ⟨_, _, rfl⟩

include sound in
/-- `fs_create` returns when its inode number fits and `fs_open` gets memory. -/
theorem FilesSound.create_total (filename : CString) (mode : Int32) (fits : CacheFits s.fsd)
    (createFits : CreateFits s answers filename mode) (granted : (answers 2).isSome) :
    ∃ value next, fsCreate s answers filename mode = some (value, next) := by
  unfold fsCreate
  split
  · exact ⟨_, _, rfl⟩
  split
  · exact ⟨_, _, rfl⟩
  split
  · exact ⟨_, _, rfl⟩
  split
  · exact ⟨_, _, rfl⟩
  split
  case h_1 => exact ⟨_, _, rfl⟩
  case h_2 short goodMode fresh room _ chunk memory =>
    have accepted : ¬ CreateRefused s answers filename mode := by
      rintro (long | badMode | present | full | exhausted)
      · exact short long
      · exact goodMode badMode
      · exact fresh present
      · exact room full
      · rw [memory] at exhausted
        cases exhausted
    change ∃ value next, ((fsPutInodeByNum s.inodeTaken 0 s.fsd.inodesUsed _).bind _) = _
    rcases lt_or_ge s.fsd.ninodes.toInt (s.fsd.inodesUsed : Int) with above | notAbove
    · have put : fsPutInodeByNum s.inodeTaken 0 s.fsd.inodesUsed (freshInode chunk s.fsd.inodesUsed)
          = some (.error (.inodeOutOfRange "fs_put_inode_by_num" s.fsd.inodesUsed), s.inodeTaken) := by
        unfold fsPutInodeByNum
        rw [if_neg (not_not.mpr rfl)]
        exact if_pos above
      rw [put]
      exact ⟨_, _, rfl⟩
    · have takenFits : CacheFits s.inodeTaken.fsd := ⟨fits.low, fits.high⟩
      have within : InodeWithin s.inodeTaken.fsd s.fsd.inodesUsed := by
        refine ⟨Int.natCast_nonneg _, notAbove, ?_⟩
        intro last
        rcases createFits with refused | different | notFull
        · exact absurd refused accepted
        · exact absurd last different
        · exact notFull
      have put := putInode_exact sound.inodeTaken.geometry takenFits within.1 within.2.1
        (inodeBlock_within sound.inodeTaken.geometry takenFits within).2.2
        (freshInode chunk s.fsd.inodesUsed)
      obtain ⟨storedSound, inode⟩ := sound.inodeTaken.stored s.fsd.inodesUsed
        (freshInode chunk s.fsd.inodesUsed) takenFits within rfl
      rw [put, Option.bind_some]
      dsimp only
      split
      · exact ⟨_, _, rfl⟩
      case h_2 roomChunk _ =>
        obtain ⟨value, next, done⟩ := (storedSound.withEntry
          (freshDirent roomChunk s.fsd.inodesUsed filename) inode).open_total
          (fun k => answers (k + 2)) filename oRdwr granted
        change ∃ value next, ((fsOpen ((s.inodeTaken.stored s.fsd.inodesUsed
          (freshInode chunk s.fsd.inodesUsed)).withEntry
          (freshDirent roomChunk s.fsd.inodesUsed filename)) _ _ _).bind _) = _
        rw [done, Option.bind_some]
        cases value <;> exact ⟨_, _, rfl⟩

end Total

/-- The condition under which a call completes: its descriptor is not negative, the
requests it does not check are granted, and its inode number and count fit. -/
def BoundedStep (s : State) : Call → Prop
  | .mkdev .. => False
  | .mkfs .. => False
  | .create answers filename mode => CreateFits s answers filename mode ∧ (answers 2).isSome
  | .open answers _ _ => (answers 0).isSome
  | .close fd => 0 ≤ fd.toInt
  | .seek answers fd _ => 0 ≤ fd.toInt ∧ (answers 0).isSome
  | .read answers fd _ nbytes => 0 ≤ fd.toInt ∧ (answers 0).isSome ∧ CountFits s fd nbytes
  | .write answers fd _ nbytes => 0 ≤ fd.toInt ∧ (answers 0).isSome ∧ CountFits s fd nbytes

instance (s : State) : DecidablePred (BoundedStep s)
  | .mkdev .. | .mkfs .. => isFalse id
  | .create answers filename mode =>
    inferInstanceAs (Decidable (CreateFits s answers filename mode ∧ (answers 2).isSome))
  | .open answers _ _ => inferInstanceAs (Decidable ((answers 0).isSome = true))
  | .close fd => inferInstanceAs (Decidable (0 ≤ fd.toInt))
  | .seek answers fd _ => inferInstanceAs (Decidable (0 ≤ fd.toInt ∧ (answers 0).isSome))
  | .read answers fd _ nbytes | .write answers fd _ nbytes =>
    inferInstanceAs (Decidable (0 ≤ fd.toInt ∧ (answers 0).isSome ∧ CountFits s fd nbytes))

theorem BoundedStep.fits {s : State} {call : Call} (bounded : BoundedStep s call) :
    StepFits s call := by
  cases call with
  | mkdev => exact bounded
  | mkfs => exact bounded
  | create => exact bounded.1
  | «open» => trivial
  | close => trivial
  | seek => trivial
  | read => exact bounded.2.2
  | write => exact bounded.2.2

/-- Every call that meets the condition completes. -/
theorem FilesSound.step_total {s : State} {call : Call} (sound : FilesSound s)
    (fits : CacheFits s.fsd) (bounded : BoundedStep s call) : exec s call ≠ none := by
  cases call with
  | mkdev => exact False.elim bounded
  | mkfs => exact False.elim bounded
  | create answers filename mode =>
    obtain ⟨_, _, done⟩ := sound.create_total answers filename mode fits bounded.1 bounded.2
    simp [exec, done]
  | «open» answers filename flags =>
    obtain ⟨_, _, done⟩ := sound.open_total answers filename flags bounded
    simp [exec, done]
  | close fd =>
    obtain ⟨_, _, done⟩ := close_total (s := s) fd bounded
    simp [exec, done]
  | seek answers fd offset =>
    obtain ⟨_, _, done⟩ := seek_total (s := s) answers fd offset bounded.1 bounded.2
    simp [exec, done]
  | read answers fd buf nbytes =>
    obtain ⟨_, _, _, done⟩ := sound.read_total answers fd buf nbytes bounded.1 bounded.2.1
      bounded.2.2
    simp [exec, done]
  | write answers fd buf nbytes =>
    obtain ⟨_, _, done⟩ := sound.write_total answers fd buf nbytes bounded.1 bounded.2.1
      bounded.2.2
    simp [exec, done]

/-- Over a run that meets the condition all transfers are in bounds. -/
theorem FilesSound.run_issues {first last : State} {events : List (Event State Call Reply)}
    (sound : FilesSound first) (run : Run exec first events last) (fits : Meets StepFits events) :
    IssuesInBounds first last := by
  have kept := invariant_last
    (fun s => FilesSound s ∧ SameGeometry first s ∧ IssuesInBounds first s) StepFits
    (fun _ _ _ _ ⟨sound, same, issues⟩ fits completed => ⟨sound.step fits completed,
      sameGeometry_trans same (exec_same fits.onFiles completed),
      issues_trans same issues (sound.step_issues fits completed)⟩)
    first last events run ⟨sound, sameGeometry_refl first, issues_refl first first rfl⟩ fits
  exact kept.2.2

/-- A creation that completes on a device on which no inode is used yet was refused
by its own checks, or the blocks fit the cache. -/
theorem create_fits_cache (s next : State) (answers : Answers) (filename : CString) (mode : Int32)
    (value : Return) (blocksz : s.device.blocksize = s.fsd.blocksz)
    (positive : 0 < s.fsd.blocksz.toInt) (inodes : 0 < s.fsd.ninodes.toInt)
    (unused : s.fsd.inodesUsed = 0)
    (done : fsCreate s answers filename mode = some (value, next)) :
    (CreateRefused s answers filename mode ∧ next = s) ∨ CacheFits s.fsd := by
  rcases create_cases _ _ _ _ _ _ done with
    ⟨refused, same, _⟩ | ⟨_, chunk, put, stored, _, putDone, _⟩
  · exact Or.inl ⟨refused, same⟩
  · right
    rcases putInode_cases _ _ _ _ _ putDone with ⟨above, _⟩ | ⟨_, rfl, _⟩
    · rw [unused] at above
      exact absurd above (not_lt.mpr (le_of_lt inodes))
    · have fits := putInode_fits s.inodeTaken _ _ _ _ blocksz positive putDone
      exact ⟨fits.low, fits.high⟩

/-- On a device whose blocks do not fit the cache, a creation that passes its own
checks has no outcome: it divides by zero or runs over the cache.

No creation completes, so the number of inodes used stays zero, and zero is a
number that the store accepts. -/
theorem create_overruns_cache (first last : State) (events : List (Event State Call Reply))
    (blocksz : first.device.blocksize = first.fsd.blocksz)
    (positive : 0 < first.fsd.blocksz.toInt) (inodes : 0 < first.fsd.ninodes.toInt)
    (unused : first.fsd.inodesUsed = 0) (misfit : ¬ CacheFits first.fsd)
    (run : Run exec first events last) (onFiles : ∀ event ∈ events, event.call.OnFiles)
    (answers : Answers) (filename : CString) (mode : Int32)
    (accepted : ¬ CreateRefused last answers filename mode) :
    exec last (.create answers filename mode) = none := by
  have stuck : ∀ s next answers filename mode value,
      SameGeometry first s ∧ s.fsd.inodesUsed = 0 →
      fsCreate s answers filename mode = some (value, next) →
      CreateRefused s answers filename mode ∧ next = s := by
    rintro s next answers filename mode value ⟨same, unused⟩ done
    rcases create_fits_cache s next answers filename mode value
      (by rw [same.blocksize, same.blocksz, blocksz]) (by rw [same.blocksz]; exact positive)
      (by rw [same.ninodes]; exact inodes) unused done with refused | fits
    · exact refused
    · have low := fits.low
      have high := fits.high
      rw [same.blocksz] at low high
      exact absurd ⟨low, high⟩ misfit
  have kept := invariant_last (fun s => SameGeometry first s ∧ s.fsd.inodesUsed = 0)
    (fun _ (call : Call) => call.OnFiles)
    (fun before call reply after held onFiles completed => by
      refine ⟨sameGeometry_trans held.1 (exec_same onFiles completed), ?_⟩
      by_cases creation : ∃ answers filename mode, call = .create answers filename mode
      · obtain ⟨answers, filename, mode, rfl⟩ := creation
        rw [(stuck before after answers filename mode reply.value held (exec_create completed)).2]
        exact held.2
      · push Not at creation
        rw [(directory_frame before after call reply completed
          (fun _ _ _ isMkfs => by rw [isMkfs] at onFiles; exact onFiles) creation).2]
        exact held.2)
    first last events run ⟨sameGeometry_refl first, unused⟩ onFiles
  cases outcome : fsCreate last answers filename mode with
  | none => simp [exec, outcome]
  | some result =>
    exact absurd (stuck last result.2 answers filename mode result.1 kept outcome).1 accepted

/-- For every formatted device: the two transfers of `fs_mkfs` are in bounds
exactly when a block holds the superblock image and the free mask and there are
two blocks. On blocks that fit the cache, in every run whose calls meet the
condition all later transfers are in bounds, and every further such call
completes. On positive block sizes that do not fit the cache, every creation past
its own checks divides by zero or runs over the cache. -/
theorem transfer_bounds (size count inodes : Int32) (first : State)
    (formatted : FormattedBy size count inodes first) :
    ((∀ transfer ∈ first.transfers, transfer.InBounds first.fsd) ↔
      604 ≤ first.fsd.blocksz.toInt ∧
        first.fsd.freemaskbytes.toInt ≤ first.fsd.blocksz.toInt ∧ 2 ≤ first.fsd.nblocks.toInt) ∧
    (64 ≤ first.fsd.blocksz.toInt → first.fsd.blocksz.toInt ≤ 512 →
      2 + (first.fsd.numInodeBlocks : Int) ≤ first.fsd.nblocks.toInt →
      first.fsd.nblocks.toInt * first.fsd.blocksz.toInt < 2 ^ 31 →
      ∀ events last, Run exec first events last → Meets BoundedStep events →
        (∀ transfer ∈ newTransfers first last, transfer.InBounds first.fsd) ∧
        ∀ call, BoundedStep last call → exec last call ≠ none) ∧
    (0 < first.fsd.blocksz.toInt →
      first.fsd.blocksz.toInt < 64 ∨ 512 < first.fsd.blocksz.toInt →
      ∀ events last, Run exec first events last → (∀ event ∈ events, event.call.OnFiles) →
        ∀ answers filename mode, ¬ CreateRefused last answers filename mode →
          exec last (.create answers filename mode) = none) := by
  have chosen := formatted_chosen size count inodes first formatted
  refine ⟨?_, ?_, ?_⟩
  · rw [chosen.transfers]
    unfold Transfer.InBounds sbBlk bmBlk sizeofFsystem
    simp only [List.mem_cons, List.not_mem_nil, or_false, forall_eq_or_imp, forall_eq]
    omega
  · intro low high region product events last run bounded
    have geometry := formatted_geometry size count inodes first formatted (by omega) region product
    have sound := formatted_filesSound size count inodes first formatted geometry
    have fits : Meets StepFits events := fun event member => (bounded event member).fits
    have same : SameGeometry first last := invariant_last (SameGeometry first) StepFits
      (fun _ _ _ _ kept fits completed => sameGeometry_trans kept (exec_same fits.onFiles completed))
      first last events run (sameGeometry_refl first) fits
    refine ⟨?_, fun call bounded => (sound.run run fits).step_total
      (same.cacheFits ⟨low, high⟩) bounded⟩
    obtain ⟨issued, recorded, inBounds⟩ := sound.run_issues run fits
    rw [newTransfers, recorded, List.drop_left]
    exact inBounds
  · intro positive misfit events last run onFiles answers filename mode accepted
    refine create_overruns_cache first last events ?_ positive ?_ chosen.inodesUsed ?_ run onFiles
      answers filename mode accepted
    · rw [chosen.blocksize, chosen.blocksz]
    · rw [chosen.ninodes]
      split
      · decide
      · omega
    · rintro ⟨low, high⟩
      omega

/-- The law applies to a run that creates a file and writes to it on the sample
device. -/
theorem transfer_bounds_after_write : ∃ first events last, FormattedBy 512 16 16 first ∧
    Run exec first events last ∧ Meets BoundedStep events ∧ events.length = 2 ∧
    (∀ transfer ∈ newTransfers first last, transfer.InBounds first.fsd) ∧
    ∀ call, BoundedStep last call → exec last call ≠ none := by
  obtain ⟨first, events, last, formatted, run, checked⟩ := formatted_trace_exists 512 16 16
    [.create granting fileA oCreat, .write granting 0 (fun _ => 7) 1200]
    (fun events _ => events.length == 2 && events.all fun event =>
      decide (BoundedStep event.before event.call)) (by decide +kernel)
  rw [Bool.and_eq_true] at checked
  have bounded : Meets BoundedStep events := fun event member =>
    of_decide_eq_true (List.all_eq_true.mp checked.2 event member)
  obtain ⟨size, _, region, product⟩ := formatted16_sizes first formatted
  exact ⟨first, events, last, formatted, run, bounded, by simpa using checked.1,
    (transfer_bounds 512 16 16 first formatted).2.1 (by rw [size]; decide) (by rw [size]; decide)
      region product events last run bounded⟩

/-- With 512-byte blocks `fs_mkfs` writes the 604 bytes of the superblock over the
end of block 0. -/
theorem superblock_overruns_block :
    ¬ ∀ (size count inodes : Int32) (first last : State) (events : List (Event State Call Reply)),
      FormattedBy size count inodes first → Run exec first events last →
      (∀ event ∈ events, event.call.OnFiles) →
      ∀ transfer ∈ last.transfers, transfer.InBounds last.fsd := by
  intro inBounds
  obtain ⟨first, events, last, formatted, run, checked⟩ := formatted_trace_exists 512 16 16 []
    (fun events last => events.isEmpty &&
      last.transfers.any fun transfer => decide (¬ transfer.InBounds last.fsd)) (by decide +kernel)
  rw [Bool.and_eq_true] at checked
  obtain ⟨transfer, member, outside⟩ := List.any_eq_true.mp checked.2
  have none : events = [] := by simpa using checked.1
  exact of_decide_eq_true outside
    (inBounds 512 16 16 first last events formatted run (by simp [none]) transfer member)

end Xinu.FileSystem
