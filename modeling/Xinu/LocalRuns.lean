import Xinu.LocalCreation

/-!
# Histories of the local file system

What holds over whole histories that start on a new disk. Every call returns what it returns on byte
sequences with cursors, as long as the files fit on the disk. At the end of every history each block is
either free or belongs to one file. The directory reaches the disk when the last file is closed, unless the
only change to it is a new entry: adding one marks nothing as changed.
-/

namespace Xinu.LocalFiles

open CIntegers WordMemory WriteBack Runs

section Blocks

/-- The current copy of an index block: that of an open file, or the one on the disk. -/
def System.iblock (s : System) (n : UInt32) : Lfiblk :=
  ((List.range nlfl).find? fun m => (s.lfltab m).lfused = true ∧ (s.lfltab m).lfinum = n).elim
    (lfibget s.disk n) fun m => (s.lfltab m).lfiblock

/-- The current copy of a data block. -/
def System.dblock (s : System) (d : UInt32) : Memory :=
  ((List.range nlfl).find? fun m => (s.lfltab m).lfused = true ∧ (s.lfltab m).lfdnum = d).elim
    (s.disk d.toNat) fun m => (s.lfltab m).lfdblock

variable {g : Geometry} {s : System} {ib : UInt32 → Lfiblk} {db : UInt32 → Memory} {l : Layout}
  {iext dext : Nat → Nat} {n d : UInt32}

/-- The blocks that the layout is about are the current copies. -/
theorem Holds.iblock_eq (holds : Holds g s ib db l iext dext) (isIndex : g.IsIndex n) : s.iblock n = ib n := by
  unfold System.iblock
  cases search : (List.range nlfl).find? fun m => (s.lfltab m).lfused = true ∧ (s.lfltab m).lfinum = n with
  | none =>
    refine holds.icoh.uncached n isIndex fun m c held same => ?_
    obtain ⟨used, _, key⟩ := islot_key held
    have notFound := List.find?_eq_none.mp search m (List.mem_range.mpr (holds.file m used).1)
    exact notFound (decide_eq_true ⟨used, key.symm.trans same⟩)
  | some m =>
    have found := List.find?_some search
    obtain ⟨used, isNumber⟩ := of_decide_eq_true found
    subst isNumber
    exact (holds.icoh.cached m _ (islot_some used (Geometry.index_ne_null isIndex))).2.1

theorem Holds.dblock_eq (holds : Holds g s ib db l iext dext) (isData : g.IsData d) : s.dblock d = db d := by
  unfold System.dblock
  cases search : (List.range nlfl).find? fun m => (s.lfltab m).lfused = true ∧ (s.lfltab m).lfdnum = d with
  | none =>
    refine holds.dcoh.uncached d isData fun m c held same => ?_
    obtain ⟨used, _, key⟩ := dslot_key held
    have notFound := List.find?_eq_none.mp search m (List.mem_range.mpr (holds.file m used).1)
    exact notFound (decide_eq_true ⟨used, key.symm.trans same⟩)
  | some m =>
    have found := List.find?_some search
    obtain ⟨used, isNumber⟩ := of_decide_eq_true found
    subst isNumber
    exact (holds.dcoh.cached m _ (dslot_some used (Geometry.data_ne_null isData))).2.1

theorem Holds.current (holds : Holds g s ib db l iext dext) :
    Sound g s.iblock s.dblock s.lfDir l iext dext := by
  have sound := holds.sound
  refine ⟨sound.files, sound.ipath.congr fun n member => ?_, sound.dpath.congr fun d member => ?_, sound.first,
    fun e q n here => ?_, sound.long, sound.wide, sound.inside, sound.beyond, sound.iparts, sound.dparts⟩
  · rw [holds.iblock_eq (sound.ifree_index member)]
  · rw [holds.dblock_eq (sound.dfree_data member)]
  · rw [holds.iblock_eq (sound.chain_index (List.mem_of_getElem? here))]
    exact sound.nodes e q n here

end Blocks

section Directories

variable {g : Geometry} {s after : System} {files : Files} {minor : Nat}

/-- No file is open. -/
def Idle (s : System) : Prop := ∀ m, (s.lfltab m).lfused = false

/-- When the last open file is closed, the directory is marked as changed, or no entry was added to it since
it was last written. -/
def ClosesWritten (s : System) (call : Call) : Prop :=
  ∀ minor, call = .close minor → (s.lfltab minor).lfused = true →
    (∀ m, m ≠ minor → (s.lfltab m).lfused = false) → s.lfDirdirty = true ∨ s.fresh = false

/-- A call on an open file leaves it open unless it closes it. -/
theorem Files.stays_open {handle : Handle} (isOpen : files.handles minor = some handle) (call : Call)
    (onDevice : call.minor = some minor) (notClose : call ≠ .close minor) :
    ∃ later, (files.call call).2.handles minor = some later := by
  have acted : ∀ act, ∃ later, (files.act minor act).2.handles minor = some later := fun act => by
    rw [Files.act_some isOpen]
    exact ⟨_, Files.put_handles _ _ _⟩
  cases call with
  | «open» name mode => cases onDevice
  | close device =>
    cases onDevice
    exact absurd rfl notClose
  | getc device =>
    cases onDevice
    exact acted _
  | putc device ch =>
    cases onDevice
    exact acted _
  | seek device offset =>
    cases onDevice
    exact acted _
  | read device count =>
    cases onDevice
    unfold Files.call
    dsimp only
    split
    · exact ⟨handle, isOpen⟩
    · split
      · exact ⟨handle, isOpen⟩
      · exact acted _
  | write device buff count =>
    cases onDevice
    unfold Files.call
    dsimp only
    split
    · exact ⟨handle, isOpen⟩
    · split
      · exact ⟨handle, isOpen⟩
      · exact acted _
  | control device func stack =>
    cases onDevice
    exact acted _

theorem Represents.open_used (represents : Represents g s files) {handle : Handle}
    (isOpen : files.handles minor = some handle) : (s.lfltab minor).lfused = true := by
  obtain ⟨_, _, _, means⟩ := represents.means
  have used := (means.opened isOpen).1
  rwa [loaded_lfltab] at used

theorem Represents.closed_of_unused (represents : Represents g s files) (free : (s.lfltab minor).lfused = false) :
    files.handles minor = none := by
  cases isOpen : files.handles minor with
  | none => rfl
  | some handle =>
    rw [represents.open_used isOpen] at free
    cases free

/-- Where no file is open after a call, the directory is on the disk. -/
theorem Represents.exec_written (represents : Represents g s files) (safe : DirSafe s.loaded)
    (written : Idle s → s.loaded.disk lfAreaDir = s.loaded.lfDir) {call : Call} (met : ClosesWritten s call)
    {reply : Reply} (done : LocalFiles.exec s call = .ok (reply, after)) (idle : Idle after) :
    after.loaded.disk lfAreaDir = after.loaded.lfDir := by
  cases onDevice : call.minor with
  | none =>
    cases call with
    | «open» name mode =>
      obtain ⟨last, opened, _, _, _, outcome⟩ := represents.lfsopen name mode
      have isLast : after = last := by
        have unfolded : LocalFiles.exec s (.open name mode) =
            .ok (((LocalFiles.lfsopen s name mode).1, []), (LocalFiles.lfsopen s name mode).2) := rfl
        rw [unfolded, opened] at done
        cases done
        rfl
      subst isLast
      rcases outcome with same | ⟨m, used⟩
      · have wasIdle : Idle s := fun m => by
          have free := idle m
          rw [← loaded_lfltab, same, loaded_lfltab] at free
          exact free
        rw [same]
        exact written wasIdle
      · rw [idle m] at used
        cases used
    | _ => cases onDevice
  | some minor =>
    cases isOpen : files.handles minor with
    | none =>
      obtain ⟨ib, db, l, means⟩ := represents.means
      have free := means.closed isOpen
      rw [loaded_lfltab] at free
      rw [(exec_closed free isOpen call onDevice).1] at done
      cases done
      exact written idle
    | some handle =>
      by_cases closes : call = .close minor
      · subst closes
        have present := represents.present_of_open isOpen
        obtain ⟨ib, db, l, means⟩ := represents.means
        rw [loaded_present present] at means safe
        obtain ⟨last, closed, next, _, reaches⟩ := means.exec_close isOpen
        rw [closed] at done
        cases done
        have others : ∀ m, m ≠ minor → (s.lfltab m).lfused = false := fun m away => by
          have free := (represents_present next).closed_of_unused (idle m)
          have acted : (files.call (.close minor)).2.handles m = files.handles m := by
            unfold Files.call
            dsimp only
            rw [isOpen]
            exact Function.update_of_ne away _ _
          exact means.closed (acted.symm.trans free)
        rw [loaded_present next.rests.present]
        exact reaches safe (met minor rfl (means.opened isOpen).1 others)
      · rcases represents.exec call with ⟨panics, _⟩ | ⟨last, returned, next, _⟩
        · rw [panics] at done
          cases done
        · rw [returned] at done
          cases done
          obtain ⟨later, still⟩ := Files.stays_open isOpen call onDevice closes
          have used := next.open_used still
          rw [idle minor] at used
          cases used

/-- A step is a call on a pseudo-device that exists and that returns. -/
theorem exec_of_step {call : Call} {reply : Reply} (completed : step s call = some (reply, after)) :
    LocalFiles.exec s call = .ok (reply, after) := by
  unfold step at completed
  split at completed
  · cases done : LocalFiles.exec s call with
    | error failure =>
      rw [done] at completed
      cases completed
    | ok result =>
      rw [done] at completed
      cases completed
      rfl
  · cases completed

/-- A system that follows files, with a directory that is safe. -/
def Sane (g : Geometry) (s : System) : Prop := (∃ files, Represents g s files) ∧ DirSafe s.loaded

theorem Sane.step (sane : Sane g s) {call : Call} {reply : Reply} (completed : step s call = some (reply, after)) :
    Sane g after := by
  obtain ⟨⟨files, represents⟩, safe⟩ := sane
  rcases represents.exec call with ⟨panics, _⟩ | ⟨last, returned, next, keeps⟩
  · rw [exec_of_step completed] at panics
    cases panics
  · rw [exec_of_step completed] at returned
    cases returned
    exact ⟨⟨_, next⟩, keeps safe⟩

/-- A new file system is sane. -/
theorem Created.sane {made : Disk} (created : Created g made) : Sane g (lfsinit made) :=
  ⟨⟨_, created.represents⟩, Or.inr (Or.inr rfl)⟩

theorem Sane.run {events : List (Event System Call Reply)} {first last : System} (sane : Sane g first)
    (run : Run LocalFiles.step first events last) : Sane g last :=
  invariant_last (Sane g) (fun _ _ => True) (fun _ _ _ _ before _ completed => before.step completed) first last
    events run sane fun _ _ => trivial

/-- A system that reads the directory again sees the same files. -/
theorem Represents.reload (represents : Represents g s files) (idle : Idle s)
    (written : s.loaded.disk lfAreaDir = s.loaded.lfDir) : Represents g (lfsinit s.disk) files := by
  obtain ⟨ib, db, l, means⟩ := represents.means
  have sameDisk : s.loaded.disk = s.disk := by
    unfold System.loaded
    split <;> rfl
  have isLoaded : (lfsinit s.disk).loaded =
      { lfsinit s.disk with lfDir := s.loaded.lfDir, lfDirpresent := true } := by
    rw [← written, sameDisk]
    rfl
  have closed : ∀ m, files.handles m = none := fun m => represents.closed_of_unused (idle m)
  have holds : Holds g s.loaded ib db l (extent s.loaded.lfDir) (extent s.loaded.lfDir) := means.rests
  have noIndex : ∀ m, (s.loaded.lfltab m).islot = none := fun m => by
    rw [loaded_lfltab]
    exact if_neg fun both => Bool.noConfusion ((idle m).symm.trans both.1)
  have noData : ∀ m, (s.loaded.lfltab m).dslot = none := fun m => by
    rw [loaded_lfltab]
    exact if_neg fun both => Bool.noConfusion ((idle m).symm.trans both.1)
  refine ⟨⟨ib, db, l, ?_⟩, fun _ _ => rfl⟩
  rw [isLoaded]
  refine ⟨⟨rfl, holds.sound, ?_, ?_, fun m used => Bool.noConfusion used, fun m k used => Bool.noConfusion used⟩,
    means.named, means.contents, fun m => ?_⟩
  · refine ⟨fun n isIndex _ => ?_, fun m c held => ?_, fun m k c d held => ?_⟩
    · have same := holds.icoh.uncached n isIndex fun m c held => by
        rw [noIndex m] at held
        cases held
      rwa [sameDisk] at same
    · have none_ : (lflinit).islot = none := if_neg fun both => Bool.noConfusion both.1
      exact absurd (none_.symm.trans held) (by simp)
    · have none_ : (lflinit).islot = none := if_neg fun both => Bool.noConfusion both.1
      exact absurd (none_.symm.trans held) (by simp)
  · refine ⟨fun d isData _ => ?_, fun m c held => ?_, fun m k c d held => ?_⟩
    · have same := holds.dcoh.uncached d isData fun m c held => by
        rw [noData m] at held
        cases held
      rwa [sameDisk] at same
    · have none_ : (lflinit).dslot = none := if_neg fun both => Bool.noConfusion both.1
      exact absurd (none_.symm.trans held) (by simp)
    · have none_ : (lflinit).dslot = none := if_neg fun both => Bool.noConfusion both.1
      exact absurd (none_.symm.trans held) (by simp)
  · rw [closed m]
    rfl

end Directories

section Histories

variable {disk made : Disk} {lfiblks dsiz : Nat}

/-- Calls on files that fit return what they return on byte sequences. -/
theorem Represents.trace {g : Geometry} (calls : List Call) : ∀ {s : System} {files : Files},
    Represents g s files → (∀ call ∈ calls, call.minor.all (· < nlfl)) →
    (∀ front, front <+: calls → (files.after front).Fits g) →
    ∃ events last, trace LocalFiles.step s calls = some (events, last) ∧
      events.map Event.reply = files.replies calls ∧ Represents g last (files.after calls) := by
  induction calls with
  | nil =>
    intro s files represents _ _
    exact ⟨[], s, rfl, rfl, represents⟩
  | cons call calls inductionHypothesis =>
    intro s files represents devices enough
    rcases represents.exec call with ⟨_, unfit⟩ | ⟨after, returned, next, _⟩
    · exact absurd (enough [call] (List.prefix_append [call] calls)) unfit
    · have completed : LocalFiles.step s call = some ((files.call call).1, after) := by
        unfold LocalFiles.step
        rw [if_pos (devices call List.mem_cons_self), returned]
        rfl
      obtain ⟨events, last, traced, replies, represented⟩ := inductionHypothesis next
        (fun other member => devices other (List.mem_cons_of_mem _ member))
        fun front isPrefix => enough (call :: front) (List.cons_prefix_cons.mpr ⟨rfl, isPrefix⟩)
      refine ⟨⟨s, call, (files.call call).1, after⟩ :: events, last, ?_, ?_, represented⟩
      · rw [Runs.trace, completed]
        show ((Runs.trace LocalFiles.step after calls).map _) = _
        rw [traced]
        rfl
      · rw [List.map_cons, replies]
        rfl

/-- On a new disk, every history of calls whose files fit on it returns what the calls return on byte
sequences with cursors. -/
theorem local_files_are_byte_sequences (someIndex : 0 < ibsectors lfiblks)
    (room : ibsectors lfiblks + 1 < dsiz / lfBlksiz) (small : dsiz < 2 ^ 32)
    (isMade : lfscreate disk lfiblks dsiz = some made) (calls : List Call)
    (devices : ∀ call ∈ calls, call.minor.all (· < nlfl))
    (enough : ∀ front, front <+: calls →
      (Files.empty.after front).Fits (createdGeometry lfiblks dsiz someIndex room small)) :
    ∃ events last, trace step (lfsinit made) calls = some (events, last) ∧
      events.map Event.reply = Files.empty.replies calls := by
  obtain ⟨events, last, traced, replies, _⟩ :=
    (created_of_lfscreate someIndex room small isMade).represents.trace calls devices enough
  exact ⟨events, last, traced, replies⟩

/-- A disk of four sectors, one of them with index blocks. -/
def newDisk : Disk := (lfscreate (fun _ _ => 0) 1 2048).getD fun _ _ => 0

theorem newDisk_made : lfscreate (fun _ _ => 0) 1 2048 = some newDisk := rfl

instance (files : Files) (g : Geometry) : Decidable (files.Fits g) := by
  unfold Files.Fits
  infer_instance

theorem name_a : (0 : UInt8) ∉ [97] := by decide

/-- A file is made, written and read. -/
def writeAndRead : List Call :=
  [.open ⟨[97], name_a⟩ ⟨[], List.not_mem_nil⟩, .putc 0 98, .seek 0 0, .getc 0, .getc 0, .close 0]

/-- The byte that was written is read, and then the end of the file. -/
theorem written_byte_is_read : ∃ events last,
    trace step (lfsinit newDisk) writeAndRead = some (events, last) ∧
    events.map Event.reply = [(5, []), (ok, []), (ok, []), (98, []), (eof, []), (ok, [])] := by
  have fits : ∀ k ≤ 6, (Files.empty.after (writeAndRead.take k)).Fits
      (createdGeometry 1 2048 (by decide) (by decide) (by decide)) := by decide +kernel
  have replies : Files.empty.replies writeAndRead =
      [(5, []), (ok, []), (ok, []), (98, []), (eof, []), (ok, [])] := by decide +kernel
  rw [← replies]
  refine local_files_are_byte_sequences (by decide) (by decide) (by decide) newDisk_made writeAndRead (by decide)
    fun front isPrefix => ?_
  rw [List.prefix_iff_eq_take.mp isPrefix]
  exact fits _ isPrefix.length_le

/-- After every history on a new disk, each block is free or belongs to one file, at one place. No call runs
forever. -/
theorem local_blocks_are_divided (someIndex : 0 < ibsectors lfiblks)
    (room : ibsectors lfiblks + 1 < dsiz / lfBlksiz) (small : dsiz < 2 ^ 32)
    (isMade : lfscreate disk lfiblks dsiz = some made) {events : List (Event System Call Reply)} {last : System}
    (run : Run step (lfsinit made) events last) :
    (∃ l, Sound (createdGeometry lfiblks dsiz someIndex room small) last.loaded.iblock last.loaded.dblock
      last.loaded.lfDir l (extent last.loaded.lfDir) (extent last.loaded.lfDir)) ∧
    ∀ call, exec last call ≠ .error .stuck := by
  obtain ⟨⟨files, represents⟩, _⟩ := (created_of_lfscreate someIndex room small isMade).sane.run run
  refine ⟨?_, fun call stuck => ?_⟩
  · obtain ⟨ib, db, l, means⟩ := represents.means
    exact ⟨l, Holds.current means.rests⟩
  · rcases represents.exec call with ⟨panics, _⟩ | ⟨after, returned, _⟩
    · cases panics.symm.trans stuck
    · cases returned.symm.trans stuck

/-- The blocks after a file was written. -/
theorem written_blocks_are_divided : ∃ events last, Run step (lfsinit newDisk) events last ∧ events.length = 6 ∧
    ∃ l, Sound (createdGeometry 1 2048 (by decide) (by decide) (by decide)) last.loaded.iblock last.loaded.dblock
      last.loaded.lfDir l (extent last.loaded.lfDir) (extent last.loaded.lfDir) := by
  obtain ⟨events, last, run, checked⟩ := trace_exists step (lfsinit newDisk) writeAndRead
    (fun events _ => decide (events.length = 6)) (by decide +kernel)
  exact ⟨events, last, run, of_decide_eq_true checked,
    (local_blocks_are_divided (by decide) (by decide) (by decide) newDisk_made run).1⟩

/-- In a history whose last closes meet the condition, the directory is on the disk whenever no file is open,
and a system that reads it again sees the same files. -/
theorem directory_reaches_disk (someIndex : 0 < ibsectors lfiblks)
    (room : ibsectors lfiblks + 1 < dsiz / lfBlksiz) (small : dsiz < 2 ^ 32)
    (isMade : lfscreate disk lfiblks dsiz = some made) {events : List (Event System Call Reply)} {last : System}
    (run : Run step (lfsinit made) events last) (met : Meets ClosesWritten events) (idle : Idle last) :
    last.disk lfAreaDir = last.loaded.lfDir ∧
    ∃ files, Represents (createdGeometry lfiblks dsiz someIndex room small) last files ∧
      Represents (createdGeometry lfiblks dsiz someIndex room small) (lfsinit last.disk) files := by
  have created := created_of_lfscreate someIndex room small isMade
  have kept := invariant_last
    (fun s => Sane (createdGeometry lfiblks dsiz someIndex room small) s ∧
      (Idle s → s.loaded.disk lfAreaDir = s.loaded.lfDir)) ClosesWritten
    (fun before call reply after here condition completed => by
      obtain ⟨sane, written⟩ := here
      obtain ⟨⟨files, represents⟩, safe⟩ := sane
      exact ⟨Sane.step ⟨⟨files, represents⟩, safe⟩ completed,
        represents.exec_written safe written condition (exec_of_step completed)⟩)
    (lfsinit made) last events run ⟨created.sane, fun _ => rfl⟩ met
  obtain ⟨⟨⟨files, represents⟩, _⟩, written⟩ := kept
  have reached := written idle
  have sameDisk : last.loaded.disk = last.disk := by
    unfold System.loaded
    split <;> rfl
  refine ⟨?_, files, represents, represents.reload idle reached⟩
  rw [← sameDisk]
  exact reached

def Call.isClose : Call → Bool
  | .close _ => true
  | _ => false

/-- Pseudo-devices that do not exist are not open. -/
theorem Sane.idle {g : Geometry} {s : System} (sane : Sane g s)
    (closed : ∀ m < nlfl, (s.lfltab m).lfused = false) : Idle s := by
  obtain ⟨⟨files, represents⟩, _⟩ := sane
  obtain ⟨ib, db, l, means⟩ := represents.means
  have holds : Holds g s.loaded ib db l (extent s.loaded.lfDir) (extent s.loaded.lfDir) := means.rests
  intro m
  cases used : (s.lfltab m).lfused with
  | false => rfl
  | true =>
    have below := (holds.file m (by rw [loaded_lfltab]; exact used)).1
    rw [closed m below] at used
    cases used

/-- A file that was written is in the directory on the disk when it is closed. -/
theorem written_file_reaches_disk : ∃ events last, Run step (lfsinit newDisk) events last ∧
    lfdNfiles last.loaded.lfDir = 1 ∧ last.disk lfAreaDir = last.loaded.lfDir := by
  obtain ⟨events, last, run, checked⟩ := trace_exists step (lfsinit newDisk) writeAndRead
    (fun events last => decide (lfdNfiles last.loaded.lfDir = 1 ∧ (∀ m < nlfl, (last.lfltab m).lfused = false) ∧
      ∀ event ∈ events, event.call.isClose = true → event.before.lfDirdirty = true ∨ event.before.fresh = false))
    (by decide +kernel)
  obtain ⟨files, closed, marked⟩ := of_decide_eq_true checked
  have sane := (created_of_lfscreate (by decide) (by decide) (by decide) newDisk_made).sane.run run
  refine ⟨events, last, run, files,
    (directory_reaches_disk (by decide) (by decide) (by decide) newDisk_made run ?_ (sane.idle closed)).1⟩
  intro event member minor isClose _ _
  exact marked event member (by rw [isClose]; rfl)

/-- A file that was only made and closed is missing in the directory on the disk. -/
theorem new_file_misses_disk : ∃ events last, Run step (lfsinit newDisk) events last ∧ Idle last ∧
    last.lfDirpresent = true ∧ lfdNfiles last.lfDir = 1 ∧ lfdNfiles (last.disk lfAreaDir) = 0 ∧
    last.disk lfAreaDir ≠ last.lfDir := by
  obtain ⟨events, last, run, checked⟩ := trace_exists step (lfsinit newDisk)
    [.open ⟨[97], name_a⟩ ⟨[], List.not_mem_nil⟩, .close 0]
    (fun _ last => decide ((∀ m < nlfl, (last.lfltab m).lfused = false) ∧ last.lfDirpresent = true ∧
      lfdNfiles last.lfDir = 1 ∧ lfdNfiles (last.disk lfAreaDir) = 0)) (by decide +kernel)
  obtain ⟨closed, present, one, zero⟩ := of_decide_eq_true checked
  have sane := (created_of_lfscreate (by decide) (by decide) (by decide) newDisk_made).sane.run run
  refine ⟨events, last, run, sane.idle closed, present, one, zero, fun same => ?_⟩
  rw [same, one] at zero
  cases zero

end Histories

end Xinu.LocalFiles
