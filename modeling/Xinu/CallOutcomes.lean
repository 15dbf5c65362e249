import Xinu.FileGeometry

/-!
# What each call can do

One inversion law for every call: the exits before any update, the exits after
partial updates, and the completed outcome, each with the exact next state. All
later results about runs go through these laws and do not unfold the calls.
-/

namespace Xinu.FileSystem

open CIntegers BlockStore Runs

/-- A descriptor indexes the table at its own number. -/
theorem oftIndex_iff (fd : Int32) (d : Fin 16) : oftIndex fd = some d ↔ fd.toInt = d.val := by
  unfold oftIndex
  constructor
  · intro found
    split at found
    · cases found
      simp only
      lia
    · cases found
  · intro same
    have inside : 0 ≤ fd.toInt ∧ fd.toInt < 16 := by omega
    rw [dif_pos inside]
    exact congrArg some (Fin.ext (by simp only; lia))

/-- A negative descriptor has no entry. -/
theorem oftIndex_negative (fd : Int32) (negative : fd.toInt < 0) : oftIndex fd = none := by
  unfold oftIndex
  rw [dif_neg (by omega)]

/-- Reading an accepted inode is a block read followed by an extraction. -/
theorem getInode_eq (s : State) (number : Int) (accepted : number ≤ s.fsd.ninodes.toInt)
    (perBlock : s.fsd.inodesPerBlock ≠ 0) :
    fsGetInodeByNum s 0 number =
      (s.bread (s.fsd.inodeBlock number) 0 s.blockCache (some blockCacheSize)
        s.fsd.blocksz.toInt).bind fun result =>
          if CacheHolds (result.2.fsd.inodeOff number) then
            some (.ok (Inode.ofBytes result.1 (result.2.fsd.inodeOff number).toNat),
              { result.2 with blockCache := result.1 })
          else none := by
  have inside : ¬ s.fsd.ninodes.toInt < number := not_lt.mpr accepted
  unfold fsGetInodeByNum
  rw [if_neg (not_not.mpr rfl), if_neg inside, if_neg perBlock]
  rfl

/-- An inode is read exactly when its number is accepted, the quotient is not
zero, its block can be read and its bytes lie in the cache. -/
theorem getInode_ok_iff (s next : State) (number : Int) (inode : Inode) :
    fsGetInodeByNum s 0 number = some (.ok inode, next) ↔
      number ≤ s.fsd.ninodes.toInt ∧ s.fsd.inodesPerBlock ≠ 0 ∧
      CacheHolds (s.fsd.inodeOff number) ∧ ∃ cache middle,
        s.bread (s.fsd.inodeBlock number) 0 s.blockCache (some blockCacheSize)
          s.fsd.blocksz.toInt = some (cache, middle) ∧
        inode = Inode.ofBytes cache (s.fsd.inodeOff number).toNat ∧
        next = { middle with blockCache := cache } := by
  by_cases refused : s.fsd.ninodes.toInt < number
  · constructor
    · intro done
      unfold fsGetInodeByNum at done
      rw [if_neg (not_not.mpr rfl), if_pos refused] at done
      cases done
    · rintro ⟨accepted, _⟩
      omega
  by_cases zero : s.fsd.inodesPerBlock = 0
  · constructor
    · intro done
      unfold fsGetInodeByNum at done
      rw [if_neg (not_not.mpr rfl), if_neg refused, if_pos zero] at done
      cases done
    · rintro ⟨_, nonzero, _⟩
      exact absurd zero nonzero
  rw [getInode_eq s number (by omega) zero]
  constructor
  · intro done
    obtain ⟨⟨cache, middle⟩, readDone, rest⟩ := Option.bind_eq_some_iff.mp done
    have sameFsd : middle.fsd = s.fsd := by rw [bread_frame _ _ _ _ _ _ _ _ readDone]
    dsimp only at rest
    rw [sameFsd] at rest
    split at rest
    case isFalse => cases rest
    case isTrue holds =>
      cases rest
      exact ⟨by omega, zero, holds, cache, middle, readDone, rfl, by rw [sameFsd]⟩
  · rintro ⟨_, _, holds, cache, middle, readDone, rfl, rfl⟩
    have sameFsd : middle.fsd = s.fsd := by rw [bread_frame _ _ _ _ _ _ _ _ readDone]
    rw [readDone, Option.bind_some]
    dsimp only
    rw [sameFsd, if_pos holds]

/-- The inode stored on the device under a number, when it can be read. -/
def storedInode (s : State) (number : Int) : Option Inode :=
  (fsGetInodeByNum s 0 number).bind fun result => result.1.toOption

/-- The transfer of the block of an inode. -/
def inodeTransfer (fsd : Fsystem) (write : Bool) (number : Int) : Transfer :=
  ⟨write, fsd.inodeBlock number, 0, fsd.blocksz.toInt⟩

@[simp] theorem inodeTransfer_block (fsd : Fsystem) (write : Bool) (number : Int) :
    (inodeTransfer fsd write number).block = fsd.inodeBlock number := rfl

/-- A read of an inode is refused without a trace, above the inode count, or
issues one transfer. -/
theorem getInode_cases (s next : State) (number : Int) (found : Except Failure Inode)
    (done : fsGetInodeByNum s 0 number = some (found, next)) :
    (s.fsd.ninodes.toInt < number ∧ next = s ∧ ∃ failure, found = .error failure) ∨
    (number ≤ s.fsd.ninodes.toInt ∧ (∃ inode, found = .ok inode) ∧
      next.transfers = s.transfers ++ [inodeTransfer s.fsd false number]) := by
  cases found with
  | ok inode =>
    obtain ⟨accepted, _, _, cache, middle, readDone, _, rfl⟩ := (getInode_ok_iff ..).mp done
    refine Or.inr ⟨accepted, ⟨inode, rfl⟩, ?_⟩
    dsimp only
    rw [bread_frame _ _ _ _ _ _ _ _ readDone]
    rfl
  | error failure =>
    unfold fsGetInodeByNum at done
    rw [if_neg (not_not.mpr rfl)] at done
    split at done
    case isTrue refused =>
      cases done
      exact Or.inl ⟨refused, rfl, _, rfl⟩
    case isFalse accepted =>
      split at done
      · cases done
      · simp only [Option.bind_eq_bind, Option.bind_eq_some_iff] at done
        obtain ⟨_, _, rest⟩ := done
        split at rest <;> cases rest

/-- The cached block with an inode replaced. -/
def cacheWith (cache : Memory) (offset : Int) (inode : Inode) : Memory :=
  copy cache offset.toNat inode.bytes sizeofInode

/-- Storing an accepted inode is a block read, a replacement and a block write. -/
theorem putInode_eq (s : State) (number : Int) (inode : Inode)
    (accepted : number ≤ s.fsd.ninodes.toInt) (perBlock : s.fsd.inodesPerBlock ≠ 0) :
    fsPutInodeByNum s 0 number inode =
      (s.bread (s.fsd.inodeBlock number) 0 s.blockCache (some blockCacheSize)
        s.fsd.blocksz.toInt).bind fun (cache, read) =>
          if CacheHolds (read.fsd.inodeOff number) then
            ((read.withCache (cacheWith cache (read.fsd.inodeOff number) inode)).bwrite
              (read.fsd.inodeBlock number) 0 (cacheWith cache (read.fsd.inodeOff number) inode)
              (some blockCacheSize) read.fsd.blocksz.toInt).bind fun s => some (.ok OK, s)
          else none := by
  have inside : ¬ s.fsd.ninodes.toInt < number := not_lt.mpr accepted
  unfold fsPutInodeByNum
  rw [if_neg (not_not.mpr rfl), if_neg inside, if_neg perBlock]
  simp only [cacheWith, State.withCache, Option.bind_eq_bind]

/-- An inode is stored exactly when its number is accepted, the quotient is not
zero, its bytes lie in the cache and its block can be read and written. -/
theorem putInode_ok_iff (s next : State) (number : Int) (inode : Inode) (value : Int) :
    fsPutInodeByNum s 0 number inode = some (.ok value, next) ↔
      number ≤ s.fsd.ninodes.toInt ∧ s.fsd.inodesPerBlock ≠ 0 ∧
      CacheHolds (s.fsd.inodeOff number) ∧ value = OK ∧ ∃ cache middle,
        s.bread (s.fsd.inodeBlock number) 0 s.blockCache (some blockCacheSize)
          s.fsd.blocksz.toInt = some (cache, middle) ∧
        (middle.withCache (cacheWith cache (s.fsd.inodeOff number) inode)).bwrite
          (s.fsd.inodeBlock number) 0 (cacheWith cache (s.fsd.inodeOff number) inode)
          (some blockCacheSize) s.fsd.blocksz.toInt = some next := by
  by_cases refused : s.fsd.ninodes.toInt < number
  · constructor
    · intro done
      unfold fsPutInodeByNum at done
      rw [if_neg (not_not.mpr rfl), if_pos refused] at done
      cases done
    · rintro ⟨accepted, _⟩
      omega
  by_cases zero : s.fsd.inodesPerBlock = 0
  · constructor
    · intro done
      unfold fsPutInodeByNum at done
      rw [if_neg (not_not.mpr rfl), if_neg refused, if_pos zero] at done
      cases done
    · rintro ⟨_, nonzero, _⟩
      exact absurd zero nonzero
  rw [putInode_eq s number inode (by omega) zero]
  constructor
  · intro done
    obtain ⟨⟨cache, middle⟩, readDone, rest⟩ := Option.bind_eq_some_iff.mp done
    have sameFsd : middle.fsd = s.fsd := by rw [bread_frame _ _ _ _ _ _ _ _ readDone]
    dsimp only at rest
    rw [sameFsd] at rest
    split at rest
    case isFalse => cases rest
    case isTrue holds =>
      obtain ⟨written, writeDone, final⟩ := Option.bind_eq_some_iff.mp rest
      cases final
      exact ⟨by omega, zero, holds, rfl, cache, middle, readDone, writeDone⟩
  · rintro ⟨_, _, holds, rfl, cache, middle, readDone, writeDone⟩
    have sameFsd : middle.fsd = s.fsd := by rw [bread_frame _ _ _ _ _ _ _ _ readDone]
    rw [readDone, Option.bind_some]
    dsimp only
    rw [sameFsd, if_pos holds, writeDone, Option.bind_some]

/-- A store of an inode is refused without a trace, above the inode count, or
issues a read and a write of one block. -/
theorem putInode_cases (s next : State) (number : Int) (inode : Inode) (value : Return)
    (done : fsPutInodeByNum s 0 number inode = some (value, next)) :
    (s.fsd.ninodes.toInt < number ∧ next = s ∧ ∃ failure, value = .error failure) ∨
    (number ≤ s.fsd.ninodes.toInt ∧ value = .ok OK ∧
      next.transfers = s.transfers ++ [inodeTransfer s.fsd false number] ++
        [inodeTransfer s.fsd true number]) := by
  cases value with
  | ok answer =>
    obtain ⟨accepted, _, _, rfl, cache, middle, readDone, writeDone⟩ :=
      (putInode_ok_iff ..).mp done
    refine Or.inr ⟨accepted, rfl, ?_⟩
    rw [bwrite_frame _ _ _ _ _ _ _ writeDone, bread_frame _ _ _ _ _ _ _ _ readDone]
    rfl
  | error failure =>
    unfold fsPutInodeByNum at done
    rw [if_neg (not_not.mpr rfl)] at done
    split at done
    case isTrue refused =>
      cases done
      exact Or.inl ⟨refused, rfl, _, rfl⟩
    case isFalse accepted =>
      split at done
      · cases done
      · simp only [Option.bind_eq_bind, Option.bind_eq_some_iff] at done
        obtain ⟨_, _, rest⟩ := done
        split at rest
        · simp only [Option.bind_eq_some_iff] at rest
          obtain ⟨_, _, final⟩ := rest
          cases final
        · cases rest

/-- Reading an inode changes the cache and the record only. -/
theorem getInode_frame (s next : State) (dev number : Int) (found : Except Failure Inode)
    (done : fsGetInodeByNum s dev number = some (found, next)) :
    next = { s with blockCache := next.blockCache, transfers := next.transfers } := by
  unfold fsGetInodeByNum at done
  split at done
  · cases done
    rfl
  split at done
  · cases done
    rfl
  split at done
  · cases done
  · simp only [Option.bind_eq_bind, Option.bind_eq_some_iff] at done
    obtain ⟨⟨cache, middle⟩, readDone, rest⟩ := done
    have frame := bread_frame _ _ _ _ _ _ _ _ readDone
    split at rest
    · cases rest
      rw [frame]
    · cases rest

/-- Storing an inode changes bytes of the device, the cache and the record; a
refused number changes nothing. -/
theorem putInode_frame (s next : State) (dev number : Int) (inode : Inode) (value : Return)
    (done : fsPutInodeByNum s dev number inode = some (value, next)) :
    next = { s with
      device := { s.device with blocks := { s.device.blocks with
        bytes := next.device.blocks.bytes } }
      blockCache := next.blockCache
      transfers := next.transfers } := by
  unfold fsPutInodeByNum at done
  split at done
  · cases done
    rfl
  split at done
  · cases done
    rfl
  split at done
  · cases done
  · simp only [Option.bind_eq_bind, Option.bind_eq_some_iff] at done
    obtain ⟨⟨cache, middle⟩, readDone, rest⟩ := done
    have readFrame := bread_frame _ _ _ _ _ _ _ _ readDone
    split at rest
    · simp only [Option.bind_eq_some_iff] at rest
      obtain ⟨written, writeDone, final⟩ := rest
      cases final
      have writeFrame := bwrite_frame _ _ _ _ _ _ _ writeDone
      rw [writeFrame, readFrame]
    · cases rest

/-- The search answers an entry of the directory. -/
theorem lookup_member (filename : CString) (start i : Nat) (entries : List Dirent) (entry : Dirent)
    (found : lookup filename start entries = some (i, entry)) : entry ∈ entries := by
  induction entries generalizing start with
  | nil => simp [lookup] at found
  | cons head rest inductionHypothesis =>
    simp only [lookup] at found
    split at found
    · cases found
      exact List.mem_cons_self
    · exact List.mem_cons_of_mem _ (inductionHypothesis _ found)

/-- The checks of `fs_open` that come before any update refuse the call. -/
def OpenRefused (s : State) (filename : CString) (flags : Int32) : Prop :=
  filenameLen < filename.chars.length + 1 ∨
    (flags ≠ oRdonly ∧ flags ≠ oWronly ∧ flags ≠ oRdwr) ∨
    lookup filename 0 s.fsd.rootDir = none ∨ 16 ≤ s.nextOpenFd

/-- The state in which `fs_open` reads the inode: its descriptor is taken. -/
def State.descriptorTaken (s : State) : State := { s with nextOpenFd := s.nextOpenFd + 1 }

/-- The position a new descriptor starts at. -/
def openPosition (inode : Inode) (flags : Int32) : Int32 :=
  if inode.size ≠ 0 ∧ flags = oWronly then inode.size else 0

/-- The outcomes of `fs_open`: refused without an update; refused with the
descriptor taken, because the inode number is out of range or the file is empty
and opened for reading only; or the next descriptor opened on the stored inode. -/
theorem open_cases (s next : State) (answers : Answers) (filename : CString) (flags : Int32)
    (value : Return) (done : fsOpen s answers filename flags = some (value, next)) :
    (OpenRefused s filename flags ∧ next = s ∧ ∃ failure, value = .error failure) ∨
    (¬ OpenRefused s filename flags ∧ ∃ i entry found read,
      lookup filename 0 s.fsd.rootDir = some (i, entry) ∧ ∃ taken : s.nextOpenFd < 16,
      fsGetInodeByNum s.descriptorTaken 0 entry.inodeNum = some (found, read) ∧
      (((∃ failure, value = .error failure) ∧ next = read ∧
          ∀ inode, found = .ok inode → inode.size = 0 ∧ flags = oRdonly) ∨
        (∃ inode, found = .ok inode ∧ ¬ (inode.size = 0 ∧ flags = oRdonly) ∧
          value = .ok (s.nextOpenFd : Int) ∧
          next = read.setOft ⟨s.nextOpenFd, taken⟩
            ⟨.opened, openPosition inode flags, some i, inode⟩))) := by
  unfold fsOpen at done
  split at done
  case isTrue long =>
    cases done
    exact Or.inl ⟨Or.inl long, rfl, _, rfl⟩
  case isFalse short =>
    split at done
    case isTrue badFlag =>
      cases done
      exact Or.inl ⟨Or.inr (Or.inl badFlag), rfl, _, rfl⟩
    case isFalse goodFlag =>
      split at done
      case h_1 missing =>
        cases done
        exact Or.inl ⟨Or.inr (Or.inr (Or.inl missing)), rfl, _, rfl⟩
      case h_2 i entry present =>
        split at done
        case isFalse full =>
          cases done
          exact Or.inl ⟨Or.inr (Or.inr (Or.inr (by omega))), rfl, _, rfl⟩
        case isTrue taken =>
          have accepted : ¬ OpenRefused s filename flags := by
            rintro (long | badFlag | missing | full)
            · exact short long
            · exact goodFlag badFlag
            · simp [present] at missing
            · omega
          right
          refine ⟨accepted, i, entry, ?_⟩
          simp only [Option.bind_eq_bind, Option.bind_eq_some_iff] at done
          obtain ⟨⟨found, read⟩, getDone, rest⟩ := done
          refine ⟨found, read, present, taken, getDone, ?_⟩
          cases found with
          | error failure =>
            cases rest
            exact Or.inl ⟨⟨_, rfl⟩, rfl, fun inode impossible => by cases impossible⟩
          | ok inode =>
            simp only [Option.bind_eq_some_iff] at rest
            obtain ⟨_, _, rest⟩ := rest
            split at rest
            case isTrue empty =>
              cases rest
              refine Or.inl ⟨⟨_, rfl⟩, rfl, ?_⟩
              intro other same
              cases same
              exact empty
            case isFalse usable =>
              cases rest
              exact Or.inr ⟨inode, rfl, usable, rfl, rfl⟩

/-- The checks of `fs_create` that come before any update refuse the call. -/
def CreateRefused (s : State) (answers : Answers) (filename : CString) (mode : Int32) : Prop :=
  filenameLen < filename.chars.length + 1 ∨ mode ≠ oCreat ∨
    (lookup filename 0 s.fsd.rootDir).isSome ∨ directorySize ≤ s.fsd.rootDir.length ∨
    getmem answers 0 sizeofInode = none

/-- The state in which `fs_create` stores the inode: its number is taken. -/
def State.inodeTaken (s : State) : State :=
  { s with fsd := { s.fsd with inodesUsed := s.fsd.inodesUsed + 1 } }

/-- The state with a new last directory entry. -/
def State.withEntry (s : State) (entry : Dirent) : State :=
  { s with fsd := { s.fsd with rootDir := s.fsd.rootDir ++ [entry] } }

/-- The outcomes of `fs_create`: refused without an update; refused with the
inode number taken, because the number is out of range or there is no memory for
the entry; or the entry added and the file opened, the open failing or not. -/
theorem create_cases (s next : State) (answers : Answers) (filename : CString) (mode : Int32)
    (value : Return) (done : fsCreate s answers filename mode = some (value, next)) :
    (CreateRefused s answers filename mode ∧ next = s ∧ ∃ failure, value = .error failure) ∨
    (¬ CreateRefused s answers filename mode ∧ ∃ chunk put stored,
      getmem answers 0 sizeofInode = some chunk ∧
      fsPutInodeByNum s.inodeTaken 0 s.fsd.inodesUsed (freshInode chunk s.fsd.inodesUsed) =
        some (put, stored) ∧
      (((∃ failure, value = .error failure) ∧ next = stored ∧
          ((∃ failure, put = .error failure) ∨ getmem answers 1 sizeofDirent = none)) ∨
        (∃ room opened, put = .ok OK ∧ getmem answers 1 sizeofDirent = some room ∧
          fsOpen (stored.withEntry (freshDirent room s.fsd.inodesUsed filename))
            (fun k => answers (k + 2)) filename oRdwr = some (opened, next) ∧
          ((∃ failure cause, opened = .error cause ∧ value = .error failure) ∨
            (∃ fd, opened = .ok fd ∧ value = .ok fd))))) := by
  unfold fsCreate at done
  split at done
  case isTrue long =>
    cases done
    exact Or.inl ⟨Or.inl long, rfl, _, rfl⟩
  case isFalse short =>
    split at done
    case isTrue badMode =>
      cases done
      exact Or.inl ⟨Or.inr (Or.inl badMode), rfl, _, rfl⟩
    case isFalse goodMode =>
      split at done
      case isTrue exists_ =>
        cases done
        exact Or.inl ⟨Or.inr (Or.inr (Or.inl exists_)), rfl, _, rfl⟩
      case isFalse fresh =>
        split at done
        case isTrue full =>
          cases done
          exact Or.inl ⟨Or.inr (Or.inr (Or.inr (Or.inl full))), rfl, _, rfl⟩
        case isFalse room =>
          split at done
          case h_1 exhausted =>
            cases done
            exact Or.inl ⟨Or.inr (Or.inr (Or.inr (Or.inr exhausted))), rfl, _, rfl⟩
          case h_2 chunk granted =>
            have accepted : ¬ CreateRefused s answers filename mode := by
              rintro (long | badMode | exists_ | full | exhausted)
              · exact short long
              · exact goodMode badMode
              · exact fresh exists_
              · exact room full
              · simp [granted] at exhausted
            right
            refine ⟨accepted, chunk, ?_⟩
            simp only [Option.bind_eq_bind, Option.bind_eq_some_iff] at done
            obtain ⟨⟨put, stored⟩, putDone, rest⟩ := done
            refine ⟨put, stored, granted, putDone, ?_⟩
            cases put with
            | error failure =>
              cases rest
              exact Or.inl ⟨⟨_, rfl⟩, rfl, Or.inl ⟨_, rfl⟩⟩
            | ok answer =>
              have answered : answer = OK := ((putInode_ok_iff ..).mp putDone).2.2.2.1
              subst answered
              dsimp only at rest
              split at rest
              case h_1 exhausted =>
                cases rest
                exact Or.inl ⟨⟨_, rfl⟩, rfl, Or.inr exhausted⟩
              case h_2 roomChunk roomGranted =>
                simp only [Option.bind_eq_some_iff] at rest
                obtain ⟨⟨opened, last⟩, openDone, rest⟩ := rest
                right
                cases opened with
                | error failure =>
                  cases rest
                  exact ⟨roomChunk, .error failure, rfl, roomGranted, openDone,
                    Or.inl ⟨_, _, rfl, rfl⟩⟩
                | ok fd =>
                  cases rest
                  exact ⟨roomChunk, .ok fd, rfl, roomGranted, openDone, Or.inr ⟨fd, rfl, rfl⟩⟩

/-- The outcomes of `fs_close`. -/
theorem close_cases (s next : State) (fd : Int32) (value : Return)
    (done : fsClose s fd = some (value, next)) :
    (next = s ∧ ∃ failure, value = .error failure) ∨
    (∃ d : Fin 16, fd.toInt = d.val ∧ (s.oft d).state = .opened ∧ value = .ok OK ∧
      next = s.setOft d { s.oft d with state := .closed }) := by
  unfold fsClose at done
  split at done
  · cases done
    exact Or.inl ⟨rfl, _, rfl⟩
  · simp only [Option.bind_eq_bind, Option.bind_eq_some_iff] at done
    obtain ⟨d, index, rest⟩ := done
    split at rest
    case isTrue shut =>
      cases rest
      exact Or.inl ⟨rfl, _, rfl⟩
    case isFalse opened =>
      cases rest
      exact Or.inr ⟨d, (oftIndex_iff fd d).mp index, not_not.mp opened, rfl, rfl⟩

/-- The checks of `fs_seek` refuse the call. -/
def SeekRefused (s : State) (fd offset : Int32) : Prop :=
  (numFd : Int) ≤ fd.toInt ∨ ∃ d : Fin 16, fd.toInt = d.val ∧
    ((s.oft d).state ≠ .opened ∨ wrap ((s.oft d).fileptr.toInt + offset.toInt) < 0 ∨
      (s.oft d).inode.size.toInt < wrap ((s.oft d).fileptr.toInt + offset.toInt))

/-- The outcomes of `fs_seek`. -/
theorem seek_cases (s next : State) (answers : Answers) (fd offset : Int32) (value : Return)
    (done : fsSeek s answers fd offset = some (value, next)) :
    (next = s ∧ (∃ failure, value = .error failure) ∧ SeekRefused s fd offset) ∨
    (∃ d : Fin 16, fd.toInt = d.val ∧ (s.oft d).state = .opened ∧ value = .ok OK ∧
      0 ≤ wrap ((s.oft d).fileptr.toInt + offset.toInt) ∧
      wrap ((s.oft d).fileptr.toInt + offset.toInt) ≤ (s.oft d).inode.size.toInt ∧
      next = s.setOft d { s.oft d with
        fileptr := Int32.ofInt (wrap ((s.oft d).fileptr.toInt + offset.toInt)) }) := by
  unfold fsSeek at done
  split at done
  case isTrue outside =>
    cases done
    exact Or.inl ⟨rfl, ⟨_, rfl⟩, Or.inl outside⟩
  case isFalse =>
    simp only [Option.bind_eq_bind, Option.bind_eq_some_iff] at done
    obtain ⟨d, index, rest⟩ := done
    split at rest
    case isTrue shut =>
      cases rest
      exact Or.inl ⟨rfl, ⟨_, rfl⟩, Or.inr ⟨d, (oftIndex_iff fd d).mp index, Or.inl shut⟩⟩
    case isFalse opened =>
      simp only [Option.bind_eq_some_iff] at rest
      obtain ⟨_, _, rest⟩ := rest
      split at rest
      case isTrue outside =>
        cases rest
        exact Or.inl ⟨rfl, ⟨_, rfl⟩, Or.inr ⟨d, (oftIndex_iff fd d).mp index, Or.inr outside⟩⟩
      case isFalse inside =>
        cases rest
        exact Or.inr ⟨d, (oftIndex_iff fd d).mp index, not_not.mp opened, rfl, by omega, by omega,
          rfl⟩

/-- The end of the range that `fs_read` moves to. -/
def readEnd (entry : FileTable) (nbytes : Int) : Int :=
  if entry.inode.size.toInt < wrap (entry.fileptr.toInt + nbytes) then entry.inode.size.toInt
  else wrap (entry.fileptr.toInt + nbytes)

/-- The count that `fs_read` returns. -/
def readCount (entry : FileTable) (nbytes : Int) : Int :=
  if entry.inode.size.toInt < wrap (entry.fileptr.toInt + nbytes) then
    wrap (entry.inode.size.toInt - entry.fileptr.toInt)
  else nbytes

/-- The checks of `fs_read` refuse the call. -/
def ReadRefused (s : State) (fd : Int32) : Prop :=
  (numFd : Int) ≤ fd.toInt ∨ ∃ d : Fin 16, fd.toInt = d.val ∧ (s.oft d).state ≠ .opened

/-- The outcomes of `fs_read`: nothing is changed, or the blocks of the range are
read and the position moves to its end. -/
theorem read_cases (s next : State) (answers : Answers) (fd : Int32) (buf after : Memory)
    (nbytes : Int32) (value : Return)
    (done : fsRead s answers fd buf nbytes = some (value, after, next)) :
    (next = s ∧ after = buf ∧
      ((∃ failure, value = .error failure ∧ ReadRefused s fd) ∨ nbytes.toInt ≤ 0)) ∨
    (∃ (d : Fin 16) (middle : State), fd.toInt = d.val ∧ (s.oft d).state = .opened ∧
      0 < nbytes.toInt ∧
      s.fsd.blocksz.toInt ≠ 0 ∧ value = .ok (readCount (s.oft d) nbytes.toInt) ∧
      readBlocks (s.oft d).inode (s.oft d).fileptr.toInt (readEnd (s.oft d) nbytes.toInt)
        (blockBefore (s.oft d).fileptr.toInt s.fsd.blocksz.toInt)
        (blockBefore (readEnd (s.oft d) nbytes.toInt) s.fsd.blocksz.toInt)
        (blockBefore (readEnd (s.oft d) nbytes.toInt) s.fsd.blocksz.toInt -
          blockBefore (s.oft d).fileptr.toInt s.fsd.blocksz.toInt).toNat
        (blockBefore (s.oft d).fileptr.toInt s.fsd.blocksz.toInt + 1) 0 buf s =
          some (after, middle) ∧
      next = middle.setOft d { middle.oft d with
        fileptr := Int32.ofInt (readEnd (s.oft d) nbytes.toInt) }) := by
  unfold fsRead at done
  split at done
  case isTrue outside =>
    cases done
    exact Or.inl ⟨rfl, rfl, Or.inl ⟨_, rfl, Or.inl outside⟩⟩
  split at done
  case isTrue empty =>
    cases done
    exact Or.inl ⟨rfl, rfl, Or.inr empty⟩
  case isFalse positive =>
    simp only [Option.bind_eq_bind, Option.bind_eq_some_iff] at done
    obtain ⟨d, index, rest⟩ := done
    split at rest
    case isTrue shut =>
      cases rest
      exact Or.inl ⟨rfl, rfl, Or.inl ⟨_, rfl, Or.inr ⟨d, (oftIndex_iff fd d).mp index, shut⟩⟩⟩
    case isFalse opened =>
      simp only [Option.bind_eq_some_iff] at rest
      obtain ⟨_, _, rest⟩ := rest
      split at rest
      case isTrue zero => cases rest
      case isFalse nonzero =>
        simp only [Option.bind_eq_some_iff] at rest
        obtain ⟨⟨read, middle⟩, readDone, final⟩ := rest
        cases final
        exact Or.inr ⟨d, middle, (oftIndex_iff fd d).mp index, not_not.mp opened, by omega,
          nonzero, rfl, readDone, rfl⟩

/-- The position `fs_write` moves to, before its space check. -/
def writeEnd (entry : FileTable) (nbytes : Int) : Int := wrap (entry.fileptr.toInt + nbytes)

/-- The entry after a completed write. -/
def writtenEntry (entry : FileTable) (inode : Inode) (newSize : Int) : FileTable :=
  { entry with
    fileptr := Int32.ofInt newSize
    inode := { inode with
      size := if inode.size.toInt < newSize then Int32.ofInt newSize else inode.size } }

/-- The checks of `fs_write` that come before the allocation refuse the call. -/
def WriteRefused (s : State) (fd nbytes : Int32) : Prop :=
  (numFd : Int) ≤ fd.toInt ∨ ∃ d : Fin 16, fd.toInt = d.val ∧
    ((s.oft d).state ≠ .opened ∨
      wrap (s.fsd.blocksz.toInt * inodeBlocks) ≤ writeEnd (s.oft d) nbytes.toInt)

/-- The outcomes of `fs_write`: nothing is changed; blocks ran out after some
were marked; or all blocks were allocated, the range written and the entry
updated. -/
theorem write_cases (s next : State) (answers : Answers) (fd : Int32) (buf : Memory)
    (nbytes : Int32) (value : Return)
    (done : fsWrite s answers fd buf nbytes = some (value, next)) :
    (next = s ∧ ((∃ failure, value = .error failure ∧ WriteRefused s fd nbytes) ∨
      value = .ok 0 ∧ nbytes.toInt ≤ 0)) ∨
    (∃ (d : Fin 16) (found : Option Inode) (marked : Fsystem),
      fd.toInt = d.val ∧ (s.oft d).state = .opened ∧
      0 < nbytes.toInt ∧ s.fsd.blocksz.toInt ≠ 0 ∧
      writeEnd (s.oft d) nbytes.toInt < wrap (s.fsd.blocksz.toInt * inodeBlocks) ∧
      allocBlocks
        (blockBefore (writeEnd (s.oft d) nbytes.toInt) s.fsd.blocksz.toInt -
          blockBefore (s.oft d).inode.size.toInt s.fsd.blocksz.toInt).toNat
        (blockBefore (s.oft d).inode.size.toInt s.fsd.blocksz.toInt + 1) (s.oft d).inode s.fsd =
          some (found, marked) ∧
      ((found = none ∧ value = .error .noBlockEmpty ∧ next = { s with fsd := marked }) ∨
        (∃ inode middle, found = some inode ∧ value = .ok nbytes.toInt ∧
          writeBlocks inode (s.oft d).fileptr.toInt
            (writeEnd (s.oft d) nbytes.toInt)
            (blockBefore (s.oft d).fileptr.toInt s.fsd.blocksz.toInt)
            (blockBefore (writeEnd (s.oft d) nbytes.toInt) s.fsd.blocksz.toInt) buf
            (blockBefore (writeEnd (s.oft d) nbytes.toInt) s.fsd.blocksz.toInt -
              blockBefore (s.oft d).fileptr.toInt s.fsd.blocksz.toInt).toNat
            (blockBefore (s.oft d).fileptr.toInt s.fsd.blocksz.toInt + 1) 0
            { s with fsd := marked } = some middle ∧
          next = middle.setOft d (writtenEntry (middle.oft d) inode
            (writeEnd (s.oft d) nbytes.toInt))))) := by
  unfold fsWrite at done
  split at done
  case isTrue outside =>
    cases done
    exact Or.inl ⟨rfl, Or.inl ⟨_, rfl, Or.inl outside⟩⟩
  split at done
  case isTrue empty =>
    cases done
    exact Or.inl ⟨rfl, Or.inr ⟨rfl, empty⟩⟩
  case isFalse positive =>
    simp only [Option.bind_eq_bind, Option.bind_eq_some_iff] at done
    obtain ⟨d, index, rest⟩ := done
    have here : fd.toInt = d.val := (oftIndex_iff fd d).mp index
    split at rest
    case isTrue shut =>
      cases rest
      exact Or.inl ⟨rfl, Or.inl ⟨_, rfl, Or.inr ⟨d, here, Or.inl shut⟩⟩⟩
    case isFalse opened =>
      simp only [Option.bind_eq_some_iff] at rest
      obtain ⟨_, _, rest⟩ := rest
      split at rest
      case isTrue full =>
        cases rest
        exact Or.inl ⟨rfl, Or.inl ⟨_, rfl, Or.inr ⟨d, here, Or.inr full⟩⟩⟩
      case isFalse space =>
        split at rest
        case isTrue zero => cases rest
        case isFalse nonzero =>
          simp only [Option.bind_eq_some_iff] at rest
          obtain ⟨⟨found, marked⟩, allocDone, rest⟩ := rest
          refine Or.inr ⟨d, found, marked, here, not_not.mp opened, by omega, nonzero,
            not_le.mp space, allocDone, ?_⟩
          cases found with
          | none =>
            cases rest
            exact Or.inl ⟨rfl, rfl, rfl⟩
          | some inode =>
            simp only [Option.bind_eq_some_iff] at rest
            obtain ⟨middle, writeDone, final⟩ := rest
            cases final
            exact Or.inr ⟨inode, middle, rfl, rfl, writeDone, rfl⟩

/-- The read loop changes the record only. -/
theorem readBlocks_frame (inode : Inode) (fileptr newSize start last : Int) (turns : Nat)
    (i pos : Int) (buf after : Memory) (s next : State)
    (done : readBlocks inode fileptr newSize start last turns i pos buf s = some (after, next)) :
    next = { s with transfers := next.transfers } := by
  induction turns generalizing i pos buf s with
  | zero =>
    simp only [readBlocks, Option.some.injEq, Prod.mk.injEq] at done
    rw [← done.2]
  | succ turns inductionHypothesis =>
    simp only [readBlocks, Option.bind_eq_bind, Option.bind_eq_some_iff] at done
    obtain ⟨block, _, rest⟩ := done
    split at rest
    · cases rest
    · simp only [Option.bind_eq_some_iff] at rest
      obtain ⟨⟨chunk, middle⟩, readDone, tail⟩ := rest
      have frame := bread_frame _ _ _ _ _ _ _ _ readDone
      rw [inductionHypothesis _ _ _ _ tail, frame]

/-- The write loop changes bytes of the device and the record. -/
theorem writeBlocks_frame (inode : Inode) (fileptr newSize start last : Int) (buf : Memory)
    (turns : Nat) (i pos : Int) (s next : State)
    (done : writeBlocks inode fileptr newSize start last buf turns i pos s = some next) :
    next = { s with
      device := { s.device with blocks := { s.device.blocks with
        bytes := next.device.blocks.bytes } }
      transfers := next.transfers } := by
  induction turns generalizing i pos s with
  | zero =>
    simp only [writeBlocks, Option.some.injEq] at done
    rw [← done]
  | succ turns inductionHypothesis =>
    simp only [writeBlocks, Option.bind_eq_bind, Option.bind_eq_some_iff] at done
    obtain ⟨block, _, rest⟩ := done
    split at rest
    · cases rest
    · simp only [Option.bind_eq_some_iff] at rest
      obtain ⟨middle, writeDone, tail⟩ := rest
      have frame := bwrite_frame _ _ _ _ _ _ _ writeDone
      rw [inductionHypothesis _ _ _ tail, frame]

/-- The calls on files, as opposed to making and formatting a device. -/
def Call.OnFiles : Call → Prop
  | .mkdev .. => False
  | .mkfs .. => False
  | _ => True

instance : DecidablePred Call.OnFiles
  | .mkdev .. | .mkfs .. => isFalse id
  | .create .. | .open .. | .close .. | .seek .. | .read .. | .write .. => isTrue trivial

section Executed

variable {s next : State} {reply : Reply} {answers : Answers}

theorem exec_mkfs {dev numInodes : Int32}
    (done : exec s (.mkfs answers dev numInodes) = some (reply, next)) :
    fsMkfs s answers dev numInodes = some (reply.value, next) := by
  simp only [exec, Option.map_eq_some_iff, Prod.exists, Prod.mk.injEq] at done
  obtain ⟨value, after, completed, rfl, rfl⟩ := done
  exact completed

theorem exec_create {filename : CString} {mode : Int32}
    (done : exec s (.create answers filename mode) = some (reply, next)) :
    fsCreate s answers filename mode = some (reply.value, next) := by
  simp only [exec, Option.map_eq_some_iff, Prod.exists, Prod.mk.injEq] at done
  obtain ⟨value, after, completed, rfl, rfl⟩ := done
  exact completed

theorem exec_open {filename : CString} {flags : Int32}
    (done : exec s (.open answers filename flags) = some (reply, next)) :
    fsOpen s answers filename flags = some (reply.value, next) := by
  simp only [exec, Option.map_eq_some_iff, Prod.exists, Prod.mk.injEq] at done
  obtain ⟨value, after, completed, rfl, rfl⟩ := done
  exact completed

theorem exec_close {fd : Int32} (done : exec s (.close fd) = some (reply, next)) :
    fsClose s fd = some (reply.value, next) := by
  simp only [exec, Option.map_eq_some_iff, Prod.exists, Prod.mk.injEq] at done
  obtain ⟨value, after, completed, rfl, rfl⟩ := done
  exact completed

theorem exec_seek {fd offset : Int32}
    (done : exec s (.seek answers fd offset) = some (reply, next)) :
    fsSeek s answers fd offset = some (reply.value, next) := by
  simp only [exec, Option.map_eq_some_iff, Prod.exists, Prod.mk.injEq] at done
  obtain ⟨value, after, completed, rfl, rfl⟩ := done
  exact completed

theorem exec_read {fd nbytes : Int32} {buf : Memory}
    (done : exec s (.read answers fd buf nbytes) = some (reply, next)) :
    ∃ after, fsRead s answers fd buf nbytes = some (reply.value, after, next) ∧
      reply.buf = some after := by
  simp only [exec, Option.map_eq_some_iff, Prod.exists, Prod.mk.injEq] at done
  obtain ⟨value, after, final, completed, rfl, rfl⟩ := done
  exact ⟨after, completed, rfl⟩

theorem exec_write {fd nbytes : Int32} {buf : Memory}
    (done : exec s (.write answers fd buf nbytes) = some (reply, next)) :
    fsWrite s answers fd buf nbytes = some (reply.value, next) := by
  simp only [exec, Option.map_eq_some_iff, Prod.exists, Prod.mk.injEq] at done
  obtain ⟨value, after, completed, rfl, rfl⟩ := done
  exact completed

/-- `fs_open` leaves the superblock and the device alone. -/
theorem open_frame {filename : CString} {flags : Int32} {value : Return}
    (done : fsOpen s answers filename flags = some (value, next)) :
    next.fsd = s.fsd ∧ next.device = s.device := by
  rcases open_cases s next answers filename flags _ done with
    ⟨_, rfl, _⟩ | ⟨_, i, entry, found, read, _, taken, getDone, outcome⟩
  · exact ⟨rfl, rfl⟩
  · have frame := getInode_frame _ _ _ _ _ getDone
    rcases outcome with ⟨_, rfl, _⟩ | ⟨_, _, _, _, rfl⟩
    · rw [frame]
      exact ⟨rfl, rfl⟩
    · rw [frame]
      exact ⟨rfl, rfl⟩

/-- `fs_open` issues reads only. -/
theorem open_transfers {filename : CString} {flags : Int32} {value : Return}
    (done : fsOpen s answers filename flags = some (value, next)) :
    ∃ reads, next.transfers = s.transfers ++ reads ∧ ∀ transfer ∈ reads, transfer.write = false := by
  rcases open_cases s next answers filename flags _ done with
    ⟨_, rfl, _⟩ | ⟨_, i, entry, found, read, _, taken, getDone, outcome⟩
  · exact ⟨[], by simp, by simp⟩
  · have record : next.transfers = read.transfers := by
      rcases outcome with ⟨_, rfl, _⟩ | ⟨_, _, _, _, rfl⟩ <;> rfl
    rcases getInode_cases _ _ _ _ getDone with ⟨_, rfl, _⟩ | ⟨_, _, recorded⟩
    · exact ⟨[], by rw [record]; simp [State.descriptorTaken], by simp⟩
    · exact ⟨[inodeTransfer s.fsd false entry.inodeNum], by rw [record, recorded]; rfl,
        by simp [inodeTransfer]⟩

/-- No call on files changes the geometry. -/
theorem exec_same {call : Call} (onFiles : call.OnFiles)
    (done : exec s call = some (reply, next)) : SameGeometry s next := by
  cases call with
  | mkdev => exact False.elim onFiles
  | mkfs => exact False.elim onFiles
  | create answers filename mode =>
    rcases create_cases _ _ _ _ _ _ (exec_create done) with
      ⟨_, rfl, _⟩ | ⟨_, chunk, put, stored, _, putDone, outcome⟩
    · exact sameGeometry_refl _
    · have frame := putInode_frame _ _ _ _ _ _ putDone
      rcases outcome with ⟨_, rfl, _⟩ | ⟨room, opened, _, _, openDone, _⟩
      · rw [frame]
        exact ⟨rfl, rfl, rfl, rfl, rfl, rfl, rfl⟩
      · obtain ⟨sameFsd, sameDevice⟩ := open_frame openDone
        constructor <;> simp only [sameFsd, sameDevice, State.withEntry] <;> rw [frame] <;> rfl
  | «open» answers filename flags =>
    obtain ⟨sameFsd, sameDevice⟩ := open_frame (exec_open done)
    constructor <;> simp only [sameFsd, sameDevice]
  | close fd =>
    rcases close_cases _ _ _ _ (exec_close done) with ⟨rfl, _⟩ | ⟨d, _, _, _, rfl⟩ <;>
      exact ⟨rfl, rfl, rfl, rfl, rfl, rfl, rfl⟩
  | seek answers fd offset =>
    rcases seek_cases _ _ _ _ _ _ (exec_seek done) with ⟨rfl, _⟩ | ⟨d, _, _, _, _, _, rfl⟩ <;>
      exact ⟨rfl, rfl, rfl, rfl, rfl, rfl, rfl⟩
  | read answers fd buf nbytes =>
    obtain ⟨after, completed, _⟩ := exec_read done
    rcases read_cases _ _ _ _ _ _ _ _ completed with
      ⟨rfl, _⟩ | ⟨d, middle, _, _, _, _, _, readDone, rfl⟩
    · exact sameGeometry_refl _
    · rw [readBlocks_frame _ _ _ _ _ _ _ _ _ _ _ _ readDone]
      exact ⟨rfl, rfl, rfl, rfl, rfl, rfl, rfl⟩
  | write answers fd buf nbytes =>
    rcases write_cases _ _ _ _ _ _ _ (exec_write done) with
      ⟨rfl, _⟩ | ⟨d, found, marked, _, _, _, _, _, allocDone, outcome⟩
    · exact sameGeometry_refl _
    · have frame := allocBlocks_frame _ _ _ _ _ _ allocDone
      rcases outcome with ⟨_, _, rfl⟩ | ⟨inode, middle, _, _, writeDone, rfl⟩
      · rw [frame]
        exact ⟨rfl, rfl, rfl, rfl, rfl, rfl, rfl⟩
      · rw [writeBlocks_frame _ _ _ _ _ _ _ _ _ _ _ writeDone, frame]
        exact ⟨rfl, rfl, rfl, rfl, rfl, rfl, rfl⟩

end Executed

end Xinu.FileSystem
