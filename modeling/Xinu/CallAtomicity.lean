import Xinu.CallOutcomes

/-!
# Which failing calls leave the system as it was

A call that returns `SYSERR` from one of its first checks changes nothing. Three
calls have later exits. `fs_open` takes its descriptor before it reads the
inode; `fs_create` takes the inode number, and on its last exit the directory
entry, before it can still fail; `fs_write` marks blocks one by one and keeps the
marks when the device fills up. Those exits, and only those, leave a change
behind.

The condition is one on the state before the call. For a write it asks whether
any data block is free at all: a search that fails at once has marked nothing.
-/

namespace Xinu.FileSystem

open CIntegers BlockStore Runs

/-- What a failing call is to leave alone: the directory, the inode counter, the
free mask, the open-file table, the next descriptor and the bytes on the device. -/
structure Untouched (before after : State) : Prop where
  rootDir : after.fsd.rootDir = before.fsd.rootDir
  inodesUsed : after.fsd.inodesUsed = before.fsd.inodesUsed
  freemask : after.fsd.freemask = before.fsd.freemask
  oft : after.oft = before.oft
  nextOpenFd : after.nextOpenFd = before.nextOpenFd
  data : after.device.blocks.bytes = before.device.blocks.bytes

theorem untouched_refl (s : State) : Untouched s s := ⟨rfl, rfl, rfl, rfl, rfl, rfl⟩

/-- The state before a failing call decides that it fails without a trace. -/
def FailsCleanly (s : State) : Call → Prop
  | .open _ filename flags => OpenRefused s filename flags
  | .create answers filename mode => CreateRefused s answers filename mode
  | .write _ fd _ nbytes =>
    WriteRefused s fd nbytes ∨ freeBlock s.fsd = some s.fsd.nblocks.toInt
  | _ => True

/-- The answer of a mask read depends on the mask alone. -/
theorem getmaskbit_congr (left right : Fsystem) (block : Int)
    (same : left.freemask = right.freemask) : fsGetmaskbit left block = fsGetmaskbit right block := by
  cases left
  cases right
  cases same
  rfl

/-- With a nonnegative inode count the first data block is nonnegative or so far
below zero that the mask has no byte for it. -/
theorem firstDataBlock_range (fsd : Fsystem) (inodes : 0 ≤ fsd.ninodes.toInt) :
    0 ≤ fsd.firstDataBlock ∨ fsd.firstDataBlock ≤ -8 := by
  have bound := toInt_range fsd.ninodes
  have exactCount := unsigned_of_nonneg fsd.ninodes.toInt inodes (by omega)
  have quotient : unsigned fsd.ninodes.toInt / fsd.inodesPerBlock ≤ unsigned fsd.ninodes.toInt :=
    Nat.div_le_self _ _
  have blocks : fsd.numInodeBlocks ≤ unsigned fsd.ninodes.toInt + 1 := by
    unfold Fsystem.numInodeBlocks
    split <;> lia
  have range := wrap_range (firstInodeBlock + fsd.numInodeBlocks)
  have multiple := wrap_dvd (firstInodeBlock + fsd.numInodeBlocks)
  unfold Fsystem.firstDataBlock
  unfold firstInodeBlock at *
  omega

/-- No block before the table has a byte of the mask. -/
theorem maskHolds_low (fsd : Fsystem) (block : Int) (low : block ≤ -8) : ¬ fsd.maskHolds block := by
  intro holds
  have negative : maskByte block = -((-block) / 8) := by
    unfold maskByte
    rw [← Int.tdiv_eq_ediv_of_nonneg (by omega), Int.neg_tdiv, neg_neg]
  unfold Fsystem.maskHolds Region.Holds at holds
  omega

/-- When the search starts behind the last block it never reports a full device,
so the allocation loop cannot run out. -/
theorem alloc_beyond (turns : Nat) (i : Int) (inode : Inode) (fsd after : Fsystem)
    (beyond : fsd.nblocks.toInt < fsd.firstDataBlock) :
    allocBlocks turns i inode fsd ≠ some (none, after) := by
  induction turns generalizing i inode fsd with
  | zero => simp [allocBlocks]
  | succ turns inductionHypothesis =>
    intro done
    simp only [allocBlocks, Option.bind_eq_bind, Option.bind_eq_some_iff] at done
    obtain ⟨j, searched, rest⟩ := done
    have here : j = fsd.firstDataBlock := by
      unfold freeBlock at searched
      split at searched
      · cases searched
      · rw [show (fsd.nblocks.toInt - fsd.firstDataBlock).toNat = 0 by lia] at searched
        simpa [findFree] using searched.symm
    rw [if_neg (by lia)] at rest
    simp only [Option.bind_eq_some_iff] at rest
    obtain ⟨marked, setDone, next, _, tail⟩ := rest
    have frame := setmaskbit_frame fsd marked j setDone
    have stillBeyond : marked.nblocks.toInt < marked.firstDataBlock := by
      rw [frame]
      exact beyond
    exact inductionHypothesis _ _ _ stillBeyond tail

/-- A first block that was found and marked lies in the mask, was free, and the
data region has the expected shape; otherwise the loop could not have failed. -/
theorem failed_alloc_region (turns : Nat) (i : Int) (inode : Inode) (fsd after : Fsystem)
    (inodes : 0 ≤ fsd.ninodes.toInt) (j : Int) (searched : freeBlock fsd = some j)
    (marked : Fsystem) (setDone : fsSetmaskbit fsd j = some marked)
    (done : allocBlocks turns i inode fsd = some (none, after)) : RegionFits fsd := by
  have perBlock : fsd.inodesPerBlock ≠ 0 := by
    intro zero
    simp [freeBlock, zero] at searched
  have holds : fsd.maskHolds j := by
    by_contra missing
    simp [fsSetmaskbit, missing] at setDone
  have notBeyond : fsd.firstDataBlock ≤ fsd.nblocks.toInt := by
    by_contra beyond
    exact alloc_beyond turns i inode fsd after (by omega) done
  rcases firstDataBlock_range fsd inodes with nonneg | low
  · exact ⟨nonneg, notBeyond⟩
  · exfalso
    simp only [freeBlock, perBlock, if_false] at searched
    by_cases empty : (fsd.nblocks.toInt - fsd.firstDataBlock).toNat = 0
    · rw [empty] at searched
      simp only [findFree, Option.some.injEq] at searched
      exact maskHolds_low fsd j (by omega) holds
    · obtain ⟨left, same⟩ := Nat.exists_eq_succ_of_ne_zero empty
      have missing := maskHolds_low fsd _ low
      rw [same] at searched
      simp [findFree, fsGetmaskbit, missing] at searched

/-- An allocation that runs out leaves the mask as it was exactly when its first
search already found no free block. -/
theorem failed_alloc_mask (turns : Nat) (i : Int) (inode : Inode) (fsd after : Fsystem)
    (inodes : 0 ≤ fsd.ninodes.toInt)
    (done : allocBlocks turns i inode fsd = some (none, after)) :
    after.freemask = fsd.freemask ↔ freeBlock fsd = some fsd.nblocks.toInt := by
  cases turns with
  | zero => simp [allocBlocks] at done
  | succ turns =>
    have whole := done
    simp only [allocBlocks, Option.bind_eq_bind, Option.bind_eq_some_iff] at done
    obtain ⟨j, searched, rest⟩ := done
    split at rest
    case isTrue full =>
      cases rest
      simp [searched, full]
    case isFalse notFull =>
      simp only [Option.bind_eq_some_iff] at rest
      obtain ⟨marked, setDone, next, _, tail⟩ := rest
      have fits : RegionFits fsd :=
        failed_alloc_region _ i inode fsd after inodes j searched marked setDone whole
      obtain ⟨_, inside, free⟩ : j ≠ fsd.nblocks.toInt ∧ DataRegion fsd j ∧
          fsGetmaskbit fsd j = some 0 := by
        rcases freeBlock_exact fsd fits j searched with ⟨full, _⟩ | answer
        · exact absurd full notFull
        · exact answer
      have nonneg : 0 ≤ j := le_trans fits.1 inside.1
      have grows := setmaskbit_grows fsd marked j nonneg setDone
      have fitsNext : RegionFits marked := by
        unfold RegionFits
        rw [grows.firstDataBlock, grows.nblocks]
        exact fits
      have tailGrows := (allocBlocks_exact turns (i + 1) next marked after none fitsNext tail).1
      have kept : after.Marked j := by
        apply tailGrows.kept j nonneg
        unfold Fsystem.Marked
        rw [setmaskbit_bit fsd marked j j nonneg nonneg setDone, if_pos rfl]
      constructor
      · intro same
        unfold Fsystem.Marked at kept
        rw [getmaskbit_congr after fsd j same, free] at kept
        exact absurd kept (by decide)
      · intro full
        rw [searched] at full
        exact absurd (Option.some.inj full) notFull

/-- A failing `fs_open` is clean exactly when one of its first checks refused. -/
theorem failed_open_clean (s next : State) (answers : Answers) (filename : CString)
    (flags : Int32) (failure : Failure)
    (done : fsOpen s answers filename flags = some (.error failure, next)) :
    Untouched s next ↔ OpenRefused s filename flags := by
  rcases open_cases s next answers filename flags _ done with
    ⟨refused, rfl, _⟩ | ⟨accepted, i, entry, found, read, _, taken, getDone, outcome⟩
  · exact ⟨fun _ => refused, fun _ => untouched_refl _⟩
  · have frame := getInode_frame _ _ _ _ _ getDone
    rcases outcome with ⟨_, rfl, _⟩ | ⟨_, _, _, impossible, _⟩
    · constructor
      · intro untouched
        have counter := untouched.nextOpenFd
        rw [frame] at counter
        simp [State.descriptorTaken] at counter
      · intro refused
        exact absurd refused accepted
    · cases impossible

/-- A failing `fs_create` is clean exactly when it failed before taking an inode
number. -/
theorem failed_create_clean (s next : State) (answers : Answers) (filename : CString)
    (mode : Int32) (failure : Failure)
    (done : fsCreate s answers filename mode = some (.error failure, next)) :
    Untouched s next ↔ CreateRefused s answers filename mode := by
  rcases create_cases s next answers filename mode _ done with
    ⟨refused, rfl, _⟩ | ⟨accepted, chunk, put, stored, _, putDone, outcome⟩
  · exact ⟨fun _ => refused, fun _ => untouched_refl _⟩
  · have frame := putInode_frame _ _ _ _ _ _ putDone
    have counted : next.fsd.inodesUsed = s.fsd.inodesUsed + 1 := by
      rcases outcome with ⟨_, rfl, _⟩ | ⟨room, opened, _, _, openDone, _⟩
      · rw [frame]
        rfl
      · rw [(open_frame openDone).1]
        simp only [State.withEntry]
        rw [frame]
        rfl
    constructor
    · intro untouched
      have counter := untouched.inodesUsed
      lia
    · intro refused
      exact absurd refused accepted

/-- A failing `fs_write` is clean exactly when a check before the allocation
refused it or no data block was free. -/
theorem failed_write_clean (s next : State) (answers : Answers) (fd : Int32) (buf : Memory)
    (nbytes : Int32) (failure : Failure) (inodes : 0 ≤ s.fsd.ninodes.toInt)
    (done : fsWrite s answers fd buf nbytes = some (.error failure, next)) :
    Untouched s next ↔
      WriteRefused s fd nbytes ∨ freeBlock s.fsd = some s.fsd.nblocks.toInt := by
  rcases write_cases s next answers fd buf nbytes _ done with
    ⟨rfl, ⟨_, _, refused⟩ | ⟨impossible, _⟩⟩ |
    ⟨d, found, marked, here, opened, _, _, space, allocDone, outcome⟩
  · exact ⟨fun _ => Or.inl refused, fun _ => untouched_refl _⟩
  · cases impossible
  · rcases outcome with ⟨rfl, _, rfl⟩ | ⟨_, _, _, impossible, _⟩
    · have mask := failed_alloc_mask _ _ _ _ _ inodes allocDone
      have notRefused : ¬ WriteRefused s fd nbytes := by
        rintro (outside | ⟨other, index, shut | full⟩)
        · unfold numFd at outside
          have bound := d.isLt
          omega
        · have same : other = d := Fin.ext (by lia)
          exact shut (same ▸ opened)
        · have same : other = d := Fin.ext (by omega)
          subst same
          exact absurd space (not_lt.mpr full)
      constructor
      · intro untouched
        exact Or.inr (mask.mp untouched.freemask)
      · rintro (refused | full)
        · exact absurd refused notRefused
        · have frame := allocBlocks_frame _ _ _ _ _ _ allocDone
          exact ⟨by rw [frame], by rw [frame], mask.mpr full, rfl, rfl, rfl⟩
    · cases impossible

/-- The inode count is never negative: it starts at zero and `fs_mkfs` replaces
every count below one. -/
theorem ninodes_nonneg (s next : State) (call : Call) (reply : Reply)
    (inodes : 0 ≤ s.fsd.ninodes.toInt) (done : exec s call = some (reply, next)) :
    0 ≤ next.fsd.ninodes.toInt := by
  cases call with
  | mkdev answers dev blocksize numblocks =>
    simp only [exec, Option.some.injEq, Prod.mk.injEq] at done
    rw [← done.2]
    exact inodes
  | mkfs answers dev numInodes =>
    have completed := exec_mkfs done
    have sized : 0 ≤ (s.fsd.sized s.device numInodes).ninodes.toInt := by
      simp only [Fsystem.sized]
      split
      · decide
      · omega
    cases value : reply.value with
    | ok answer =>
      rw [value] at completed
      obtain ⟨chunk, marked, twice, bytes, _, _, first, second, rfl⟩ :=
        mkfs_exact _ _ _ _ _ _ completed
      rw [marked_twice_frame _ _ _ _ first second]
      exact sized
    | error failure =>
      rw [value] at completed
      unfold fsMkfs at completed
      split at completed
      · cases completed
        exact inodes
      dsimp only at completed
      split at completed
      · cases completed
        exact sized
      · simp only [Option.bind_eq_bind, Option.bind_eq_some_iff] at completed
        obtain ⟨_, _, _, _, _, _, _, _, impossible⟩ := completed
        cases impossible
  | _ =>
    have same : SameGeometry s next := exec_same (by trivial) done
    rw [same.ninodes]
    exact inodes

/-- A failing call on files is clean exactly when its condition holds. -/
theorem failed_call_clean (s next : State) (call : Call) (reply : Reply) (failure : Failure)
    (inodes : 0 ≤ s.fsd.ninodes.toInt) (onFiles : call.OnFiles)
    (done : exec s call = some (reply, next)) (failed : reply.value = .error failure) :
    Untouched s next ↔ FailsCleanly s call := by
  cases call with
  | mkdev => exact False.elim onFiles
  | mkfs => exact False.elim onFiles
  | create answers filename mode =>
    exact failed_create_clean s next answers filename mode failure (failed ▸ exec_create done)
  | «open» answers filename flags =>
    exact failed_open_clean s next answers filename flags failure (failed ▸ exec_open done)
  | close fd =>
    rcases close_cases _ _ _ _ (exec_close done) with ⟨rfl, _⟩ | ⟨_, _, _, impossible, _⟩
    · exact ⟨fun _ => trivial, fun _ => untouched_refl _⟩
    · cases failed.symm.trans impossible
  | seek answers fd offset =>
    rcases seek_cases _ _ _ _ _ _ (exec_seek done) with ⟨rfl, _⟩ | ⟨_, _, _, impossible, _⟩
    · exact ⟨fun _ => trivial, fun _ => untouched_refl _⟩
    · cases failed.symm.trans impossible
  | read answers fd buf nbytes =>
    obtain ⟨after, completed, _⟩ := exec_read done
    rcases read_cases _ _ _ _ _ _ _ _ completed with ⟨rfl, _⟩ | ⟨_, _, _, _, _, _, impossible, _⟩
    · exact ⟨fun _ => trivial, fun _ => untouched_refl _⟩
    · cases failed.symm.trans impossible
  | write answers fd buf nbytes =>
    exact failed_write_clean s next answers fd buf nbytes failure inodes (failed ▸ exec_write done)

/-- Every failing call on files in a run leaves the system untouched. -/
def FailuresUntouched (events : List (Event State Call Reply)) : Prop :=
  ∀ event ∈ events, event.call.OnFiles → (∃ failure, event.reply.value = .error failure) →
    Untouched event.before event.after

/-- Every failing call on files in a run fails at an exit without a trace. -/
def FailuresClean (events : List (Event State Call Reply)) : Prop :=
  ∀ event ∈ events, event.call.OnFiles → (∃ failure, event.reply.value = .error failure) →
    FailsCleanly event.before event.call

/-- In every run from the start of the system, all failing calls on files leave
the system untouched exactly when each of them meets the condition for its kind.

The step law decides each failing call by the state before it; the only fact
needed about reachable states is that the inode count is not negative. -/
theorem failed_calls_atomic_iff (events : List (Event State Call Reply)) (last : State)
    (run : Run exec boot events last) : FailuresUntouched events ↔ FailuresClean events := by
  have steps := invariant_events (fun s => 0 ≤ s.fsd.ninodes.toInt) (fun _ _ => True)
    (fun before call reply after inodes _ completed =>
      ninodes_nonneg before after call reply inodes completed)
    boot last events run (by decide) (fun _ _ => trivial)
  constructor
  · intro atomic event member onFiles failed
    obtain ⟨inodes, _, completed⟩ := steps event member
    obtain ⟨failure, isFailure⟩ := failed
    exact (failed_call_clean _ _ _ _ failure inodes onFiles completed isFailure).mp
      (atomic event member onFiles ⟨failure, isFailure⟩)
  · intro clean event member onFiles failed
    obtain ⟨inodes, _, completed⟩ := steps event member
    obtain ⟨failure, isFailure⟩ := failed
    exact (failed_call_clean _ _ _ _ failure inodes onFiles completed isFailure).mpr
      (clean event member onFiles ⟨failure, isFailure⟩)

/-- The law applies to a run that ends with a read-only open of an empty file. -/
theorem failed_calls_atomic_empty_file : ∃ events last, Run exec boot events last ∧
    events.length = 4 ∧ (FailuresUntouched events ↔ FailuresClean events) := by
  obtain ⟨events, last, run, checked⟩ := trace_exists exec boot
    (device16 16 ++ [.create granting fileA oCreat, .open granting fileA oRdonly])
    (fun events _ => events.length == 4) (by decide +kernel)
  exact ⟨events, last, run, by simpa using checked, failed_calls_atomic_iff events last run⟩

/-- Opening the empty file for reading only returns `SYSERR` and keeps the
descriptor it took, so not every failing call leaves the system untouched. -/
theorem failed_open_keeps_descriptor :
    ¬ ∀ events last, Run exec boot events last → FailuresUntouched events := by
  intro atomic
  obtain ⟨events, last, run, checked⟩ := trace_exists exec boot
    (device16 16 ++ [.create granting fileA oCreat, .open granting fileA oRdonly])
    (fun events _ => events.any fun event =>
      (match event.call, event.reply.value with
        | .open .., .error _ => true
        | _, _ => false) && event.after.nextOpenFd != event.before.nextOpenFd) (by decide +kernel)
  obtain ⟨event, member, failing⟩ := List.any_eq_true.mp checked
  rw [Bool.and_eq_true] at failing
  obtain ⟨kind, moved⟩ := failing
  have counter : event.after.nextOpenFd ≠ event.before.nextOpenFd := by simpa using moved
  apply counter
  split at kind
  case h_1 answers filename flags failure isOpen isFailure =>
    exact (atomic events last run event member (by rw [isOpen]; trivial)
      ⟨failure, isFailure⟩).nextOpenFd
  case h_2 => cases kind

end Xinu.FileSystem
