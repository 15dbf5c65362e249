import Xinu.CallOutcomes

/-!
# The descriptor table over whole runs

`fs_open` hands out the number `next_open_fd` and advances it; `fs_close` marks
the entry closed and does not make the number available again. A file can
therefore be opened exactly while fewer than sixteen descriptors have ever been
taken, however many of them are open. The number handed out is never in use.

The calls on a descriptor check it against `NUM_FD` and the state of its entry.
They refuse every nonnegative number that is not open, and leave the system as
it was. A negative number passes the check and selects memory in front of the
table, where the source defines no outcome.
-/

namespace Xinu.FileSystem

open CIntegers BlockStore Runs

/-- What reading an inode needs: an accepted number, a nonzero quotient, and a
block and an offset that exist. Nothing here depends on contents. -/
def Readable (s : State) (number : Int) : Prop :=
  number ≤ s.fsd.ninodes.toInt ∧ s.fsd.inodesPerBlock ≠ 0 ∧ CacheHolds (s.fsd.inodeOff number) ∧
    (0 < s.device.blocksize.toInt →
      s.device.blocks.Holds (s.addressOf (s.fsd.inodeBlock number) 0) s.fsd.blocksz.toInt.toNat ∧
        s.fsd.blocksz.toInt.toNat ≤ blockCacheSize)

/-- The read of the inode's block completes exactly under the last condition. -/
theorem inodeBlock_read (s : State) (number : Int) :
    (∃ result, s.bread (s.fsd.inodeBlock number) 0 s.blockCache (some blockCacheSize)
      s.fsd.blocksz.toInt = some result) ↔
    (0 < s.device.blocksize.toInt →
      s.device.blocks.Holds (s.addressOf (s.fsd.inodeBlock number) 0) s.fsd.blocksz.toInt.toNat ∧
        s.fsd.blocksz.toInt.toNat ≤ blockCacheSize) := by
  rcases lt_or_ge 0 s.device.blocksize.toInt with good | bad
  · rw [bread_eq _ _ _ _ _ _ good]
    constructor
    · rintro ⟨result, completed⟩ _
      split at completed
      case isTrue holds => exact ⟨holds.1, holds.2 _ rfl⟩
      case isFalse => cases completed
    · intro holds
      obtain ⟨memory, cache⟩ := holds good
      rw [if_pos ⟨memory, by simpa using cache⟩]
      exact ⟨_, rfl⟩
  · rw [bread_bad _ _ _ _ _ _ bad]
    exact ⟨fun _ positive => absurd positive (by omega), fun _ => ⟨_, rfl⟩⟩

/-- Reading an inode succeeds exactly for the readable numbers. -/
theorem getInode_readable (s : State) (number : Int) :
    (∃ inode next, fsGetInodeByNum s 0 number = some (.ok inode, next)) ↔ Readable s number := by
  constructor
  · rintro ⟨inode, next, done⟩
    obtain ⟨accepted, perBlock, holds, cache, middle, readDone, _⟩ := (getInode_ok_iff ..).mp done
    exact ⟨accepted, perBlock, holds, (inodeBlock_read s number).mp ⟨_, readDone⟩⟩
  · rintro ⟨accepted, perBlock, holds, block⟩
    obtain ⟨⟨cache, middle⟩, readDone⟩ := (inodeBlock_read s number).mpr block
    exact ⟨_, _, (getInode_ok_iff ..).mpr
      ⟨accepted, perBlock, holds, cache, middle, readDone, rfl, rfl⟩⟩

/-- A number under which an inode has been stored can be read. -/
theorem putInode_readable (s next : State) (number : Int) (inode : Inode) (value : Int)
    (done : fsPutInodeByNum s 0 number inode = some (.ok value, next)) : Readable s number := by
  obtain ⟨accepted, perBlock, holds, _, cache, middle, readDone, _⟩ := (putInode_ok_iff ..).mp done
  exact ⟨accepted, perBlock, holds, (inodeBlock_read s number).mp ⟨_, readDone⟩⟩

/-- Readability is a matter of geometry. -/
theorem SameGeometry.readable {before after : State} (same : SameGeometry before after)
    (number : Int) (readable : Readable before number) : Readable after number := by
  obtain ⟨accepted, perBlock, holds, block⟩ := readable
  refine ⟨by rw [same.ninodes]; exact accepted, by rw [same.inodesPerBlock]; exact perBlock,
    by rw [same.inodeOff]; exact holds, ?_⟩
  unfold State.addressOf Region.Holds at *
  rw [same.blocksize, same.inodeBlock, same.blocksz, same.memory]
  exact block

/-- Entries name readable inodes, and no descriptor from the next one on is in
use. -/
structure TableSound (s : State) : Prop where
  readable : ∀ entry ∈ s.fsd.rootDir, Readable s entry.inodeNum
  unused : ∀ d : Fin 16, s.nextOpenFd ≤ d.val → (s.oft d).state = .closed

/-- A call that keeps the geometry and the directory and opens nothing keeps the
table sound. -/
theorem table_kept (s next : State) (sound : TableSound s) (same : SameGeometry s next)
    (entries : next.fsd.rootDir = s.fsd.rootDir) (counter : next.nextOpenFd = s.nextOpenFd)
    (states : ∀ d, (s.oft d).state = .closed → (next.oft d).state = .closed) :
    TableSound next where
  readable entry member := same.readable _ (sound.readable entry (entries ▸ member))
  unused d beyond := states d (sound.unused d (counter ▸ beyond))

/-- Opening uses the next descriptor and moves past it. -/
theorem open_table (s next : State) (answers : Answers) (filename : CString) (flags : Int32)
    (value : Return) (sound : TableSound s)
    (done : fsOpen s answers filename flags = some (value, next)) : TableSound next := by
  obtain ⟨sameFsd, sameDevice⟩ := open_frame done
  have same : SameGeometry s next := by constructor <;> simp only [sameFsd, sameDevice]
  refine ⟨fun entry member => same.readable _ (sound.readable entry (sameFsd ▸ member)), ?_⟩
  rcases open_cases _ _ _ _ _ _ done with
    ⟨_, rfl, _⟩ | ⟨_, i, entry, found, read, _, taken, getDone, outcome⟩
  · exact sound.unused
  · have frame := getInode_frame _ _ _ _ _ getDone
    intro d beyond
    rcases outcome with ⟨_, rfl, _⟩ | ⟨inode, _, _, _, rfl⟩
    · rw [frame] at beyond ⊢
      exact sound.unused d (Nat.le_of_succ_le beyond)
    · rw [frame] at beyond ⊢
      have later : s.nextOpenFd + 1 ≤ d.val := beyond
      have different : d ≠ ⟨s.nextOpenFd, taken⟩ := by
        rintro rfl
        simp at later
      simp only [State.setOft, Function.update_of_ne different]
      exact sound.unused d (Nat.le_of_succ_le later)

/-- Every call on files keeps the table sound. -/
theorem exec_table (s next : State) (call : Call) (reply : Reply) (sound : TableSound s)
    (onFiles : call.OnFiles) (done : exec s call = some (reply, next)) : TableSound next := by
  have same : SameGeometry s next := exec_same onFiles done
  cases call with
  | mkdev => exact False.elim onFiles
  | mkfs => exact False.elim onFiles
  | create answers filename mode =>
    rcases create_cases _ _ _ _ _ _ (exec_create done) with
      ⟨_, rfl, _⟩ | ⟨_, chunk, put, stored, _, putDone, outcome⟩
    · exact sound
    · have frame := putInode_frame _ _ _ _ _ _ putDone
      have storedSame : SameGeometry s stored := by
        rw [frame]
        exact ⟨rfl, rfl, rfl, rfl, rfl, rfl, rfl⟩
      have storedSound : TableSound stored :=
        table_kept s stored sound storedSame (by rw [frame]; rfl) (by rw [frame]; rfl)
          (by rw [frame]; exact fun _ closed => closed)
      rcases outcome with ⟨_, rfl, _⟩ | ⟨room, opened, putOk, _, openDone, _⟩
      · exact storedSound
      · have putReadable : Readable s.inodeTaken s.fsd.inodesUsed :=
          putInode_readable _ _ _ _ _ (putOk ▸ putDone)
        have storedReadable : Readable stored s.fsd.inodesUsed := by
          apply SameGeometry.readable _ _ putReadable
          rw [frame]
          exact ⟨rfl, rfl, rfl, rfl, rfl, rfl, rfl⟩
        have entrySound : TableSound
            (stored.withEntry (freshDirent room s.fsd.inodesUsed filename)) := by
          refine ⟨?_, storedSound.unused⟩
          intro entry member
          rcases List.mem_append.mp member with old | new
          · exact storedSound.readable entry old
          · rw [List.mem_singleton.mp new]
            exact storedReadable
        exact open_table _ _ _ _ _ _ entrySound openDone
  | «open» answers filename flags => exact open_table _ _ _ _ _ _ sound (exec_open done)
  | close fd =>
    rcases close_cases _ _ _ _ (exec_close done) with ⟨rfl, _⟩ | ⟨d, _, _, _, rfl⟩
    · exact sound
    · refine table_kept s _ sound same rfl rfl ?_
      intro other closed
      by_cases here : other = d
      · subst here
        simp [State.setOft]
      · simpa [State.setOft, Function.update_of_ne here] using closed
  | seek answers fd offset =>
    rcases seek_cases _ _ _ _ _ _ (exec_seek done) with ⟨rfl, _⟩ | ⟨d, _, isOpen, _, _, _, rfl⟩
    · exact sound
    · refine table_kept s _ sound same rfl rfl ?_
      intro other closed
      by_cases here : other = d
      · subst here
        simp [isOpen] at closed
      · simpa [State.setOft, Function.update_of_ne here] using closed
  | read answers fd buf nbytes =>
    obtain ⟨after, completed, _⟩ := exec_read done
    rcases read_cases _ _ _ _ _ _ _ _ completed with
      ⟨rfl, _⟩ | ⟨d, middle, _, isOpen, _, _, _, readDone, rfl⟩
    · exact sound
    · have frame := readBlocks_frame _ _ _ _ _ _ _ _ _ _ _ _ readDone
      refine table_kept s _ sound same (by rw [frame]; rfl) (by rw [frame]; rfl) ?_
      intro other closed
      by_cases here : other = d
      · subst here
        simp [isOpen] at closed
      · rw [frame]
        simpa [State.setOft, Function.update_of_ne here] using closed
  | write answers fd buf nbytes =>
    rcases write_cases _ _ _ _ _ _ _ (exec_write done) with
      ⟨rfl, _⟩ | ⟨d, found, marked, _, isOpen, _, _, _, allocDone, outcome⟩
    · exact sound
    · have maskFrame := allocBlocks_frame _ _ _ _ _ _ allocDone
      have entries : marked.rootDir = s.fsd.rootDir := by rw [maskFrame]
      rcases outcome with ⟨_, _, rfl⟩ | ⟨inode, middle, _, _, writeDone, rfl⟩
      · exact table_kept s _ sound same entries rfl (fun _ closed => closed)
      · have frame := writeBlocks_frame _ _ _ _ _ _ _ _ _ _ _ writeDone
        refine table_kept s _ sound same (by rw [frame]; exact entries) (by rw [frame]; rfl) ?_
        intro other closed
        by_cases here : other = d
        · subst here
          simp [isOpen] at closed
        · rw [frame]
          simpa [State.setOft, Function.update_of_ne here] using closed

/-- A descriptor that is currently open. -/
def IsOpen (s : State) (fd : Int32) : Prop :=
  ∃ d : Fin 16, fd.toInt = d.val ∧ (s.oft d).state = .opened

/-- The number of descriptors currently open. -/
def openCount (s : State) : Nat :=
  (Finset.univ.filter fun d : Fin 16 => (s.oft d).state = .opened).card

/-- An existing file that is not empty, or is to be opened for writing. -/
def CanOpen (s : State) (filename : CString) (flags : Int32) : Prop :=
  filename.chars.length + 1 ≤ filenameLen ∧
    (flags = oRdonly ∨ flags = oWronly ∨ flags = oRdwr) ∧
    ∃ i entry, lookup filename 0 s.fsd.rootDir = some (i, entry) ∧
      (flags = oRdonly → ∃ inode, storedInode s entry.inodeNum = some inode ∧ inode.size ≠ 0)

/-- `fs_open` succeeds with a descriptor of the table that was not open. -/
def OpensFresh (s : State) (answers : Answers) (filename : CString) (flags : Int32) : Prop :=
  ∃ (fd : Int32) (next : State), fsOpen s answers filename flags = some (.ok fd.toInt, next) ∧
    0 ≤ fd.toInt ∧ fd.toInt < 16 ∧ ¬ IsOpen s fd

/-- Every call on the descriptor returns `SYSERR` and changes nothing; the two
transfers are asked for at least one byte. -/
def RefusedEverywhere (s : State) (fd : Int32) : Prop :=
  (∃ failure, fsClose s fd = some (.error failure, s)) ∧
    (∀ answers offset, ∃ failure, fsSeek s answers fd offset = some (.error failure, s)) ∧
    (∀ answers buf nbytes, 0 < nbytes.toInt →
      ∃ failure, fsRead s answers fd buf nbytes = some (.error failure, buf, s)) ∧
    (∀ answers buf nbytes, 0 < nbytes.toInt →
      ∃ failure, fsWrite s answers fd buf nbytes = some (.error failure, s))

/-- Taking a descriptor does not change what a block read finds. -/
theorem bread_descriptorTaken (s : State) (block offset : Int) (buf : Memory)
    (extent : Option Nat) (len : Int) :
    s.descriptorTaken.bread block offset buf extent len =
      (s.bread block offset buf extent len).map fun result =>
        (result.1, result.2.descriptorTaken) := by
  unfold State.bread
  cases transferred : bsBread s.device 0 block offset buf extent len with
  | none =>
    have taken : bsBread s.descriptorTaken.device 0 block offset buf extent len = none := transferred
    rw [taken]
    rfl
  | some result =>
    have taken : bsBread s.descriptorTaken.device 0 block offset buf extent len = some result :=
      transferred
    rw [taken]
    rfl

/-- An inode that can be read can be read after a descriptor has been taken. -/
theorem getInode_descriptorTaken (s read : State) (number : Int) (inode : Inode)
    (done : fsGetInodeByNum s 0 number = some (.ok inode, read)) :
    fsGetInodeByNum s.descriptorTaken 0 number = some (.ok inode, read.descriptorTaken) := by
  obtain ⟨accepted, perBlock, holds, cache, middle, readDone, rfl, rfl⟩ :=
    (getInode_ok_iff ..).mp done
  refine (getInode_ok_iff ..).mpr
    ⟨accepted, perBlock, holds, cache, middle.descriptorTaken, ?_, rfl, rfl⟩
  have taken := bread_descriptorTaken s (s.fsd.inodeBlock number) 0 s.blockCache
    (some blockCacheSize) s.fsd.blocksz.toInt
  rw [readDone] at taken
  exact taken

/-- An existing file opens exactly when a descriptor was never taken and there is
memory for the copy of its inode. -/
theorem opensFresh_iff (s : State) (answers : Answers) (filename : CString) (flags : Int32)
    (sound : TableSound s) (file : CanOpen s filename flags) :
    OpensFresh s answers filename flags ↔ s.nextOpenFd < 16 ∧ (answers 0).isSome := by
  obtain ⟨short, goodFlag, i, entry, present, nonempty⟩ := file
  have request : getmem answers 0 sizeofInode = answers 0 := by
    unfold getmem
    rw [if_neg (by decide)]
  have inDirectory : entry ∈ s.fsd.rootDir := lookup_member filename 0 i _ entry present
  obtain ⟨inode, read, getDone⟩ := (getInode_readable s entry.inodeNum).mpr
    (sound.readable entry inDirectory)
  have usable : ¬ (inode.size = 0 ∧ flags = oRdonly) := by
    rintro ⟨empty, readOnly⟩
    obtain ⟨other, stored, nonzero⟩ := nonempty readOnly
    simp [storedInode, getDone, Except.toOption] at stored
    exact nonzero (stored ▸ empty)
  have takenRead : fsGetInodeByNum s.descriptorTaken 0 entry.inodeNum =
      some (.ok inode, read.descriptorTaken) :=
    getInode_descriptorTaken s read _ inode getDone
  constructor
  · rintro ⟨fd, next, done, _, _, _⟩
    rcases open_cases _ _ _ _ _ _ done with ⟨_, _, failure, impossible⟩ | ⟨_, _, _, _, _, _, taken, _⟩
    · cases impossible
    · refine ⟨taken, ?_⟩
      unfold fsOpen at done
      rw [if_neg (by omega), if_neg (by tauto), present] at done
      dsimp only at done
      rw [dif_pos taken] at done
      change ((fsGetInodeByNum s.descriptorTaken 0 entry.inodeNum).bind _) = _ at done
      rw [takenRead, Option.bind_some] at done
      simp only [Option.bind_eq_bind, request, Option.bind_eq_some_iff] at done
      obtain ⟨chunk, granted, _⟩ := done
      rw [granted]
      rfl
  · rintro ⟨taken, granted⟩
    obtain ⟨chunk, granted⟩ := Option.isSome_iff_exists.mp granted
    have number : (Int32.ofInt s.nextOpenFd).toInt = s.nextOpenFd := by
      rw [toInt_ofInt, wrap_of_range _ (by lia) (by omega)]
    refine ⟨Int32.ofInt s.nextOpenFd, read.descriptorTaken.setOft ⟨s.nextOpenFd, taken⟩
      ⟨.opened, openPosition inode flags, some i, inode⟩, ?_, by lia, by omega, ?_⟩
    · unfold fsOpen
      rw [if_neg (by omega), if_neg (by tauto), present]
      dsimp only
      rw [dif_pos taken]
      change ((fsGetInodeByNum s.descriptorTaken 0 entry.inodeNum).bind _) = _
      rw [takenRead, Option.bind_some]
      simp only [Option.bind_eq_bind, request, granted, Option.bind_some]
      rw [if_neg usable, number]
      rfl
    · rintro ⟨d, same, opened⟩
      have closed := sound.unused d (by omega)
      rw [closed] at opened
      cases opened

/-- A descriptor that is not open is refused by every call exactly when it is not
negative. -/
theorem refused_iff (s : State) (fd : Int32) (notOpen : ¬ IsOpen s fd) :
    RefusedEverywhere s fd ↔ 0 ≤ fd.toInt := by
  constructor
  · rintro ⟨⟨failure, closed⟩, _⟩
    by_contra negative
    unfold fsClose numFd at closed
    rw [if_neg (by omega), oftIndex_negative fd (by omega)] at closed
    cases closed
  · intro nonneg
    rcases le_or_gt (numFd : Int) fd.toInt with outside | inside
    · refine ⟨⟨_, by unfold fsClose; rw [if_pos outside]⟩,
        fun answers offset => ⟨_, by unfold fsSeek; rw [if_pos outside]⟩,
        fun answers buf nbytes _ => ⟨_, by unfold fsRead; rw [if_pos outside]⟩,
        fun answers buf nbytes _ => ⟨_, by unfold fsWrite; rw [if_pos outside]⟩⟩
    · have below : fd.toInt.toNat < 16 := by
        unfold numFd at inside
        omega
      have index : oftIndex fd = some ⟨fd.toInt.toNat, below⟩ :=
        (oftIndex_iff fd _).mpr (by simp only; lia)
      have shut : (s.oft ⟨fd.toInt.toNat, below⟩).state ≠ .opened := fun opened =>
        notOpen ⟨_, by simp only; omega, opened⟩
      refine ⟨⟨.fileNotOpened, ?_⟩, fun answers offset => ⟨.fileNotOpen, ?_⟩,
        fun answers buf nbytes positive => ⟨.fileNotOpened, ?_⟩,
        fun answers buf nbytes positive => ⟨.fileNotOpened, ?_⟩⟩
      · unfold fsClose
        rw [if_neg (by omega), index]
        simp only [Option.bind_eq_bind, Option.bind_some]
        rw [if_pos shut]
      · unfold fsSeek
        rw [if_neg (by omega), index]
        simp only [Option.bind_eq_bind, Option.bind_some]
        rw [if_pos shut]
      · unfold fsRead
        rw [if_neg (by omega), if_neg (by omega), index]
        simp only [Option.bind_eq_bind, Option.bind_some]
        rw [if_pos shut]
      · unfold fsWrite
        rw [if_neg (by omega), if_neg (by omega), index]
        simp only [Option.bind_eq_bind, Option.bind_some]
        rw [if_pos shut]

/-- The table of a device formatted once is sound. -/
theorem formatted_table (size count inodes : Int32) (s : State)
    (formatted : FormattedBy size count inodes s) : TableSound s := by
  have chosen := formatted_chosen size count inodes s formatted
  refine ⟨?_, ?_⟩
  · intro entry member
    rw [chosen.rootDir] at member
    cases member
  · intro d _
    rw [chosen.oft]
    rfl

/-- After every run of calls on files, an existing file opens exactly while a
descriptor is left that was never taken, and a descriptor that is not open is
refused by every call exactly when it is not negative. -/
theorem descriptor_table_iff (size count inodes : Int32) (first last : State)
    (events : List (Event State Call Reply)) (formatted : FormattedBy size count inodes first)
    (run : Run exec first events last) (onFiles : ∀ event ∈ events, event.call.OnFiles) :
    (∀ answers filename flags, CanOpen last filename flags → openCount last < 16 →
      (OpensFresh last answers filename flags ↔ last.nextOpenFd < 16 ∧ (answers 0).isSome)) ∧
    (∀ fd, ¬ IsOpen last fd → (RefusedEverywhere last fd ↔ 0 ≤ fd.toInt)) := by
  have sound : TableSound last := invariant_last TableSound
    (fun _ (call : Call) => call.OnFiles)
    (fun before call reply after sound onFiles completed =>
      exec_table before after call reply sound onFiles completed)
    first last events run (formatted_table size count inodes first formatted) onFiles
  refine ⟨?_, fun fd notOpen => refused_iff last fd notOpen⟩
  intro answers filename flags file _
  exact opensFresh_iff last answers filename flags sound file

/-- The law applies after a file has been created and closed. -/
theorem descriptor_table_after_close : ∃ first events last,
    FormattedBy 512 16 16 first ∧ Run exec first events last ∧
    (∀ event ∈ events, event.call.OnFiles) ∧ events.length = 2 ∧
    (∀ answers filename flags, CanOpen last filename flags → openCount last < 16 →
      (OpensFresh last answers filename flags ↔ last.nextOpenFd < 16 ∧ (answers 0).isSome)) ∧
    (∀ fd, ¬ IsOpen last fd → (RefusedEverywhere last fd ↔ 0 ≤ fd.toInt)) := by
  obtain ⟨first, events, last, formatted, run, checked⟩ := formatted_trace_exists 512 16 16
    [.create granting fileA oCreat, .close 0]
    (fun events _ => events.length == 2 && events.all fun event =>
      decide event.call.OnFiles)
    (by decide +kernel)
  rw [Bool.and_eq_true] at checked
  have onFiles : ∀ event ∈ events, event.call.OnFiles := fun event member =>
    of_decide_eq_true (List.all_eq_true.mp checked.2 event member)
  exact ⟨first, events, last, formatted, run, onFiles, by simpa using checked.1,
    descriptor_table_iff 512 16 16 first last events formatted run onFiles⟩

/-- The calls that open and close descriptors. -/
def Call.OnDescriptors : Call → Prop
  | .create .. => True
  | .open .. => True
  | .close .. => True
  | _ => False

instance : DecidablePred Call.OnDescriptors
  | .create .. | .open .. | .close .. => isTrue trivial
  | .mkdev .. | .mkfs .. | .seek .. | .read .. | .write .. => isFalse id

/-- Open the file `a` for reading and writing, and close the descriptor. -/
def reopened (fd : Nat) : List Call := [.open granting fileA oRdwr, .close (Int32.ofNat fd)]

/-- After sixteen descriptors have been taken and closed, no descriptor is open
and the existing file cannot be opened. -/
theorem closed_descriptors_exhausted :
    ¬ ∀ (size count inodes : Int32) (first last : State) (events : List (Event State Call Reply)),
      FormattedBy size count inodes first → Run exec first events last →
      (∀ event ∈ events, event.call.OnDescriptors) →
      (∀ answers filename flags, (answers 0).isSome → CanOpen last filename flags →
        openCount last < 16 → OpensFresh last answers filename flags) ∧
      (∀ fd, ¬ IsOpen last fd → RefusedEverywhere last fd) := by
  intro holds
  obtain ⟨first, events, last, formatted, run, checked⟩ := formatted_trace_exists 512 16 16
    ([.create granting fileA oCreat, .close 0] ++ (List.range' 1 15).flatMap reopened)
    (fun events last => (events.all fun event => decide event.call.OnDescriptors) &&
      (lookup fileA 0 last.fsd.rootDir).isSome && decide (openCount last < 16) &&
      decide (16 ≤ last.nextOpenFd))
    (by decide +kernel)
  simp only [Bool.and_eq_true, decide_eq_true_eq] at checked
  obtain ⟨⟨⟨calls, present⟩, room⟩, exhausted⟩ := checked
  have onDescriptors : ∀ event ∈ events, event.call.OnDescriptors := fun event member =>
    of_decide_eq_true (List.all_eq_true.mp calls event member)
  obtain ⟨⟨i, entry⟩, found⟩ := Option.isSome_iff_exists.mp present
  have file : CanOpen last fileA oRdwr :=
    ⟨by decide, by decide, i, entry, found, fun impossible => absurd impossible (by decide)⟩
  obtain ⟨fd, next, done, _⟩ := (holds 512 16 16 first last events formatted run onDescriptors).1
    granting fileA oRdwr rfl file room
  rcases open_cases _ _ _ _ _ _ done with ⟨_, _, failure, impossible⟩ | ⟨accepted, _⟩
  · cases impossible
  · exact accepted (Or.inr (Or.inr (Or.inr exhausted)))

end Xinu.FileSystem
