import Xinu.CallOutcomes

/-!
# The root directory over whole runs

A directory entry is added by `fs_create` only, under a name no entry carries
yet and with the inode number the counter stood at. Names and inode numbers are
therefore pairwise different as long as the counter only grows. `fs_mkfs` sets
the counter back to zero and does not clear the directory, so the property ends
with the first formatting of a file system that already has a file, and holds
until then.

A block count within seven of the largest `int` overflows while `fs_mkfs` rounds
it to whole bytes, and the mask is then not cleared; the results about formatting
concern the counts below.
-/

namespace Xinu.FileSystem

open CIntegers BlockStore Runs

/-- The name an entry carries: the bytes before the first NUL. -/
def Dirent.cname (entry : Dirent) : List UInt8 :=
  (List.ofFn entry.name).takeWhile fun c => decide (c ≠ 0)

/-- The search test accepts exactly the entry that carries the name. -/
theorem matches_iff (entry : Dirent) (filename : CString)
    (short : filename.chars.length + 1 ≤ filenameLen) (terminated : ∃ k, entry.name k = 0) :
    entry.matches filename = true ↔ entry.cname = filename.chars := by
  have room : filename.chars.length + 1 ≤ (List.ofFn entry.name).length := by
    simpa [filenameLen] using short
  have nul : 0 ∈ List.ofFn entry.name := by
    obtain ⟨k, zero⟩ := terminated
    exact List.mem_ofFn.mpr ⟨k, zero⟩
  unfold Dirent.matches Dirent.cname
  rw [decide_eq_true_iff, strncmp_prefix _ _ filename.terminated room]
  constructor
  · exact takeWhile_terminated _ _ filename.terminated
  · intro same
    have starts := takeWhile_prefix _ nul
    rwa [same] at starts

/-- A failed search has looked at every entry. -/
theorem lookup_none_iff (filename : CString) (i : Nat) (entries : List Dirent) :
    lookup filename i entries = none ↔ ∀ entry ∈ entries, entry.matches filename = false := by
  induction entries generalizing i with
  | nil => simp [lookup]
  | cons entry rest inductionHypothesis =>
    by_cases found : entry.matches filename = true
    · simp [lookup, found]
    · simp [lookup, found, inductionHypothesis (i + 1)]

/-- The entry made by `fs_create` is terminated and carries the given name. -/
theorem freshDirent_named (chunk : Chunk) (id : Nat) (filename : CString)
    (short : filename.chars.length + 1 ≤ filenameLen) :
    (∃ k, (freshDirent chunk id filename).name k = 0) ∧
      (freshDirent chunk id filename).cname = filename.chars := by
  have room : filename.chars.length < 32 := by
    unfold filenameLen at short
    omega
  have nul : (freshDirent chunk id filename).name ⟨filename.chars.length, room⟩ = 0 := by
    simp [freshDirent]
  refine ⟨⟨_, nul⟩, ?_⟩
  apply takeWhile_terminated _ _ filename.terminated
  rw [List.prefix_iff_eq_take]
  apply List.ext_getElem
  · simp
    omega
  · intro k inside _
    rw [List.getElem_take, List.getElem_ofFn]
    simp only [freshDirent, List.getD_eq_getElem?_getD, List.getElem?_eq_getElem inside,
      Option.getD_some]

/-- Entries carry terminated names of at most 31 characters; names and inode
numbers are pairwise different; every inode number is below the counter. -/
structure DirectorySound (fsd : Fsystem) : Prop where
  terminated : ∀ entry ∈ fsd.rootDir, ∃ k, entry.name k = 0
  lengths : ∀ entry ∈ fsd.rootDir, entry.cname.length ≤ 31
  names : (fsd.rootDir.map Dirent.cname).Nodup
  numbers : (fsd.rootDir.map Dirent.inodeNum).Nodup
  below : ∀ entry ∈ fsd.rootDir, entry.inodeNum < fsd.inodesUsed

/-- A fresh entry under the next inode number keeps a directory sound. -/
theorem directory_extended (before after : Fsystem) (entry : Dirent) (filename : CString)
    (sound : DirectorySound before) (short : filename.chars.length + 1 ≤ filenameLen)
    (fresh : lookup filename 0 before.rootDir = none) (terminated : ∃ k, entry.name k = 0)
    (named : entry.cname = filename.chars) (number : entry.inodeNum = before.inodesUsed)
    (entries : after.rootDir = before.rootDir ++ [entry])
    (counter : after.inodesUsed = before.inodesUsed + 1) : DirectorySound after := by
  have newName : entry.cname ∉ before.rootDir.map Dirent.cname := by
    intro member
    obtain ⟨other, present, same⟩ := List.mem_map.mp member
    have matched := (matches_iff other filename short (sound.terminated other present)).mpr
      (same.trans named)
    have unmatched := (lookup_none_iff filename 0 before.rootDir).mp fresh other present
    simp [matched] at unmatched
  have newNumber : entry.inodeNum ∉ before.rootDir.map Dirent.inodeNum := by
    intro member
    obtain ⟨other, present, same⟩ := List.mem_map.mp member
    have bound := sound.below other present
    lia
  refine ⟨?_, ?_, ?_, ?_, ?_⟩
  · intro other member
    rw [entries] at member
    rcases List.mem_append.mp member with old | new
    · exact sound.terminated other old
    · rw [List.mem_singleton.mp new]
      exact terminated
  · intro other member
    rw [entries] at member
    rcases List.mem_append.mp member with old | new
    · exact sound.lengths other old
    · rw [List.mem_singleton.mp new, named]
      unfold filenameLen at short
      omega
  · rw [entries, List.map_append, List.map_singleton]
    exact List.nodup_append.mpr ⟨sound.names, List.nodup_singleton _, by
      intro a old b new same
      rw [List.mem_singleton.mp new] at same
      exact newName (same ▸ old)⟩
  · rw [entries, List.map_append, List.map_singleton]
    exact List.nodup_append.mpr ⟨sound.numbers, List.nodup_singleton _, by
      intro a old b new same
      rw [List.mem_singleton.mp new] at same
      exact newNumber (same ▸ old)⟩
  · intro other member
    rw [entries] at member
    rcases List.mem_append.mp member with old | new
    · have bound := sound.below other old
      lia
    · rw [List.mem_singleton.mp new]
      lia

/-- What a completed `fs_create` does to the directory and the inode counter:
nothing; a number taken; or a number taken and an entry made with it. -/
theorem create_directory (s next : State) (answers : Answers) (filename : CString) (mode : Int32)
    (value : Return) (done : fsCreate s answers filename mode = some (value, next)) :
    (next.fsd.rootDir = s.fsd.rootDir ∧ s.fsd.inodesUsed ≤ next.fsd.inodesUsed) ∨
    (∃ room, filename.chars.length + 1 ≤ filenameLen ∧
      lookup filename 0 s.fsd.rootDir = none ∧
      next.fsd.rootDir = s.fsd.rootDir ++ [freshDirent room s.fsd.inodesUsed filename] ∧
      next.fsd.inodesUsed = s.fsd.inodesUsed + 1) := by
  rcases create_cases _ _ _ _ _ _ done with
    ⟨_, rfl, _⟩ | ⟨accepted, chunk, put, stored, _, putDone, outcome⟩
  · exact Or.inl ⟨rfl, le_refl _⟩
  · have frame := putInode_frame _ _ _ _ _ _ putDone
    rcases outcome with ⟨_, rfl, _⟩ | ⟨room, opened, _, _, openDone, _⟩
    · left
      rw [frame]
      exact ⟨rfl, Nat.le_succ _⟩
    · right
      have sameFsd := (open_frame openDone).1
      refine ⟨room, ?_, ?_, ?_, ?_⟩
      · by_contra long
        exact accepted (Or.inl (by omega))
      · by_contra present
        exact accepted (Or.inr (Or.inr (Or.inl (Option.isSome_iff_ne_none.mpr present))))
      · rw [sameFsd, State.withEntry, frame]
        rfl
      · rw [sameFsd, State.withEntry, frame]
        rfl

/-- Apart from `fs_create` and `fs_mkfs` no call touches the directory or the
inode counter. -/
theorem directory_frame (s next : State) (call : Call) (reply : Reply)
    (done : exec s call = some (reply, next)) (notMkfs : ∀ answers dev n, call ≠ .mkfs answers dev n)
    (notCreate : ∀ answers filename mode, call ≠ .create answers filename mode) :
    next.fsd.rootDir = s.fsd.rootDir ∧ next.fsd.inodesUsed = s.fsd.inodesUsed := by
  cases call with
  | mkdev answers dev blocksize numblocks =>
    simp only [exec, Option.some.injEq, Prod.mk.injEq] at done
    rw [← done.2]
    exact ⟨rfl, rfl⟩
  | mkfs answers dev n => exact absurd rfl (notMkfs answers dev n)
  | create answers filename mode => exact absurd rfl (notCreate answers filename mode)
  | «open» answers filename flags =>
    rw [(open_frame (exec_open done)).1]
    exact ⟨rfl, rfl⟩
  | close fd =>
    rcases close_cases _ _ _ _ (exec_close done) with ⟨rfl, _⟩ | ⟨d, _, _, _, rfl⟩ <;>
      exact ⟨rfl, rfl⟩
  | seek answers fd offset =>
    rcases seek_cases _ _ _ _ _ _ (exec_seek done) with ⟨rfl, _⟩ | ⟨d, _, _, _, _, _, rfl⟩ <;>
      exact ⟨rfl, rfl⟩
  | read answers fd buf nbytes =>
    obtain ⟨after, completed, _⟩ := exec_read done
    rcases read_cases _ _ _ _ _ _ _ _ completed with
      ⟨rfl, _⟩ | ⟨d, middle, _, _, _, _, _, readDone, rfl⟩
    · exact ⟨rfl, rfl⟩
    · rw [readBlocks_frame _ _ _ _ _ _ _ _ _ _ _ _ readDone]
      exact ⟨rfl, rfl⟩
  | write answers fd buf nbytes =>
    rcases write_cases _ _ _ _ _ _ _ (exec_write done) with
      ⟨rfl, _⟩ | ⟨d, found, marked, _, _, _, _, _, allocDone, outcome⟩
    · exact ⟨rfl, rfl⟩
    · have frame := allocBlocks_frame _ _ _ _ _ _ allocDone
      rcases outcome with ⟨_, _, rfl⟩ | ⟨inode, middle, _, _, writeDone, rfl⟩
      · rw [frame]
        exact ⟨rfl, rfl⟩
      · rw [writeBlocks_frame _ _ _ _ _ _ _ _ _ _ _ writeDone, frame]
        exact ⟨rfl, rfl⟩

/-- Nothing is left of an earlier use: no entry, no open descriptor, and every
data block free. -/
structure FileSystemEmpty (s : State) : Prop where
  rootDir : s.fsd.rootDir = []
  closed : ∀ d, (s.oft d).state = .closed
  free : ∀ block : Int, 2 + (s.fsd.numInodeBlocks : Int) ≤ block → block < s.fsd.nblocks.toInt →
    fsGetmaskbit s.fsd block = some 0

/-- The freshly cleared mask shows every block below the count as free. -/
theorem formatted_free (fsd : Fsystem) (chunk : Chunk) (block : Int) (low : 0 ≤ block)
    (high : block < fsd.nblocks.toInt) (rounded : fsd.nblocks.toInt ≤ 2 ^ 31 - 8)
    (bytes : fsd.freemaskbytes = Int32.ofInt ((roundToByte 7 fsd.nblocks.toInt).tdiv 8)) :
    fsGetmaskbit (fsd.formatted chunk) block = some 0 := by
  have count : fsd.freemaskbytes.toInt = (fsd.nblocks.toInt + 7) / 8 := by
    rw [bytes, toInt_ofInt, roundToByte_exact 7 _ (by omega) rounded (by omega),
      Int.tdiv_eq_ediv_of_nonneg (by lia), wrap_of_range _ (by lia) (by lia)]
    lia
  have size : (fsd.formatted chunk).freemask.size = roundmb (unsigned fsd.freemaskbytes.toInt) := rfl
  have holds : (fsd.formatted chunk).maskHolds block := by
    rw [maskHolds_iff _ _ low, size, count]
    unfold unsigned roundmb
    lia
  have cleared : (fsd.formatted chunk).freemask.bytes (block.toNat / 8) = 0 := by
    have below : ((block.toNat / 8 : Nat) : Int) < fsd.freemaskbytes.toInt := by
      rw [count]
      lia
    exact if_pos below
  rw [getmaskbit_holds _ _ low holds, cleared]
  simp

/-- After a successful `fs_mkfs` every data block is free. -/
theorem mkfs_free (s next : State) (answers : Answers) (dev numInodes : Int32) (value : Int)
    (rounded : s.device.numblocks.toInt ≤ 2 ^ 31 - 8)
    (done : fsMkfs s answers dev numInodes = some (.ok value, next)) (block : Int)
    (low : 2 ≤ block) (high : block < next.fsd.nblocks.toInt) :
    fsGetmaskbit next.fsd block = some 0 := by
  obtain ⟨chunk, marked, twice, bytes, _, _, first, second, rfl⟩ := mkfs_exact _ _ _ _ _ _ done
  have frame := marked_twice_frame _ _ _ _ first second
  have count : twice.nblocks = s.device.numblocks := by
    rw [frame]
    rfl
  dsimp only at high ⊢
  rw [count] at high
  rw [setmaskbit_bit marked twice bmBlk block (by decide) (by omega) second,
    if_neg (by unfold bmBlk; omega),
    setmaskbit_bit _ marked sbBlk block (by decide) (by omega) first,
    if_neg (by unfold sbBlk; omega)]
  exact formatted_free _ chunk block (by omega) high rounded rfl

/-- Block counts whose rounding to whole mask bytes does not overflow. -/
def CountRounds (_ : State) : Call → Prop
  | .mkdev _ _ _ numblocks => numblocks.toInt ≤ 2 ^ 31 - 8
  | _ => True

/-- The device was made with such a count, and no descriptor is open while the
directory is empty. -/
structure DirectoryContext (s : State) : Prop where
  rounded : s.device.numblocks.toInt ≤ 2 ^ 31 - 8
  closed : s.fsd.rootDir = [] → ∀ d, (s.oft d).state = .closed

/-- A call that leaves every open-file-table entry at least as closed keeps the
directory's context. -/
theorem context_kept (s next : State) (context : DirectoryContext s)
    (device : next.device.numblocks = s.device.numblocks)
    (entries : next.fsd.rootDir = [] → s.fsd.rootDir = [])
    (states : next.fsd.rootDir = [] → ∀ d, (next.oft d).state = .opened → (s.oft d).state = .opened) :
    DirectoryContext next := by
  refine ⟨device ▸ context.rounded, ?_⟩
  intro empty d
  have wasClosed := context.closed (entries empty) d
  cases state : (next.oft d).state with
  | closed => rfl
  | opened =>
    have wasOpen := states empty d state
    rw [wasClosed] at wasOpen
    cases wasOpen

/-- Opening needs an entry, and entries are never removed. -/
theorem open_context (s next : State) (answers : Answers) (filename : CString) (flags : Int32)
    (value : Return) (context : DirectoryContext s)
    (done : fsOpen s answers filename flags = some (value, next)) : DirectoryContext next := by
  obtain ⟨sameFsd, sameDevice⟩ := open_frame done
  refine context_kept s next context (by rw [sameDevice]) (by rw [sameFsd]; exact id) ?_
  intro empty
  rw [sameFsd] at empty
  rcases open_cases _ _ _ _ _ _ done with ⟨_, rfl, _⟩ | ⟨accepted, _⟩
  · exact fun _ opened => opened
  · exact absurd (Or.inr (Or.inr (Or.inl (by rw [empty]; rfl)))) accepted

/-- Every call with an acceptable block count keeps the directory's context. -/
theorem exec_context (s next : State) (call : Call) (reply : Reply) (context : DirectoryContext s)
    (rounds : CountRounds s call) (done : exec s call = some (reply, next)) :
    DirectoryContext next := by
  cases call with
  | mkdev answers dev blocksize numblocks =>
    simp only [exec, Option.some.injEq, Prod.mk.injEq] at done
    rw [← done.2]
    refine ⟨?_, context.closed⟩
    unfold bsMkdev
    split
    · exact context.rounded
    · have count : (if numblocks ≠ 0 then numblocks else mdevNumBlocks).toInt ≤ 2 ^ 31 - 8 := by
        split
        · exact rounds
        · decide
      dsimp only
      split <;> exact count
  | mkfs answers dev numInodes =>
    have completed := exec_mkfs done
    cases value : reply.value with
    | ok answer =>
      rw [value] at completed
      obtain ⟨chunk, marked, twice, bytes, _, _, first, second, rfl⟩ :=
        mkfs_exact _ _ _ _ _ _ completed
      have frame := marked_twice_frame _ _ _ _ first second
      have entries : twice.rootDir = s.fsd.rootDir := by
        rw [frame]
        rfl
      exact ⟨context.rounded, fun empty => context.closed (entries ▸ empty)⟩
    | error failure =>
      rw [value] at completed
      unfold fsMkfs at completed
      split at completed
      · cases completed
        exact context
      dsimp only at completed
      split at completed
      · cases completed
        exact ⟨context.rounded, context.closed⟩
      · simp only [Option.bind_eq_bind, Option.bind_eq_some_iff] at completed
        obtain ⟨_, _, _, _, _, _, _, _, impossible⟩ := completed
        cases impossible
  | create answers filename mode =>
    rcases create_cases _ _ _ _ _ _ (exec_create done) with
      ⟨_, rfl, _⟩ | ⟨_, chunk, put, stored, _, putDone, outcome⟩
    · exact context
    · have frame := putInode_frame _ _ _ _ _ _ putDone
      have storedContext : DirectoryContext stored := by
        rw [frame]
        exact ⟨context.rounded, context.closed⟩
      rcases outcome with ⟨_, rfl, _⟩ | ⟨room, opened, _, _, openDone, _⟩
      · exact storedContext
      · have entryContext : DirectoryContext
            (stored.withEntry (freshDirent room s.fsd.inodesUsed filename)) := by
          refine ⟨storedContext.rounded, ?_⟩
          intro empty
          simp [State.withEntry] at empty
        exact open_context _ _ _ _ _ _ entryContext openDone
  | «open» answers filename flags => exact open_context _ _ _ _ _ _ context (exec_open done)
  | close fd =>
    rcases close_cases _ _ _ _ (exec_close done) with ⟨rfl, _⟩ | ⟨d, _, _, _, rfl⟩
    · exact context
    · refine context_kept s _ context rfl id ?_
      intro _ other opened
      by_cases same : other = d
      · subst same
        simp [State.setOft] at opened
      · simpa [State.setOft, Function.update_of_ne same] using opened
  | seek answers fd offset =>
    rcases seek_cases _ _ _ _ _ _ (exec_seek done) with ⟨rfl, _⟩ | ⟨d, _, isOpen, _, _, _, rfl⟩
    · exact context
    · refine context_kept s _ context rfl id ?_
      intro _ other opened
      by_cases same : other = d
      · exact same ▸ isOpen
      · simpa [State.setOft, Function.update_of_ne same] using opened
  | read answers fd buf nbytes =>
    obtain ⟨after, completed, _⟩ := exec_read done
    rcases read_cases _ _ _ _ _ _ _ _ completed with
      ⟨rfl, _⟩ | ⟨d, middle, _, isOpen, _, _, _, readDone, rfl⟩
    · exact context
    · have frame := readBlocks_frame _ _ _ _ _ _ _ _ _ _ _ _ readDone
      refine context_kept s _ context (by rw [frame]; rfl) (by rw [frame]; exact id) ?_
      intro _ other opened
      by_cases same : other = d
      · exact same ▸ isOpen
      · rw [frame] at opened
        simpa [State.setOft, Function.update_of_ne same] using opened
  | write answers fd buf nbytes =>
    rcases write_cases _ _ _ _ _ _ _ (exec_write done) with
      ⟨rfl, _⟩ | ⟨d, found, marked, _, isOpen, _, _, _, allocDone, outcome⟩
    · exact context
    · have maskFrame := allocBlocks_frame _ _ _ _ _ _ allocDone
      have entries : marked.rootDir = s.fsd.rootDir := by rw [maskFrame]
      rcases outcome with ⟨_, _, rfl⟩ | ⟨inode, middle, _, _, writeDone, rfl⟩
      · exact context_kept s _ context rfl (by rw [entries]; exact id) (fun _ _ opened => opened)
      · have frame := writeBlocks_frame _ _ _ _ _ _ _ _ _ _ _ writeDone
        refine context_kept s _ context (by rw [frame]; rfl)
          (by rw [frame]; simp [State.setOft, entries]) ?_
        intro _ other opened
        by_cases same : other = d
        · exact same ▸ isOpen
        · rw [frame] at opened
          simpa [State.setOft, Function.update_of_ne same] using opened

/-- A formatting that succeeds found an empty directory. -/
def FormatsEmpty (event : Event State Call Reply) : Prop :=
  (∃ answers dev n, event.call = .mkfs answers dev n) → (∃ value, event.reply.value = .ok value) →
    event.before.fsd.rootDir = []

/-- The directory is sound after the step, and empty when the step formatted. -/
def DirectoryHolds (event : Event State Call Reply) : Prop :=
  DirectorySound event.after.fsd ∧
    ((∃ answers dev n, event.call = .mkfs answers dev n) → (∃ value, event.reply.value = .ok value) →
      FileSystemEmpty event.after)

/-- One step keeps the directory sound when a formatting finds it empty. -/
theorem directory_step (s next : State) (call : Call) (reply : Reply) (sound : DirectorySound s.fsd)
    (context : DirectoryContext s) (formats : FormatsEmpty ⟨s, call, reply, next⟩)
    (done : exec s call = some (reply, next)) : DirectoryHolds ⟨s, call, reply, next⟩ := by
  by_cases mkfs : ∃ answers dev n, call = .mkfs answers dev n
  · obtain ⟨answers, dev, n, rfl⟩ := mkfs
    have completed := exec_mkfs done
    cases value : reply.value with
    | ok answer =>
      have empty : s.fsd.rootDir = [] := formats ⟨answers, dev, n, rfl⟩ ⟨answer, value⟩
      rw [value] at completed
      have free := mkfs_free s next answers dev n answer context.rounded completed
      obtain ⟨chunk, marked, twice, bytes, _, _, first, second, rfl⟩ :=
        mkfs_exact _ _ _ _ _ _ completed
      have frame := marked_twice_frame _ _ _ _ first second
      have entries : twice.rootDir = [] := by
        rw [frame]
        exact empty
      refine ⟨⟨?_, ?_, ?_, ?_, ?_⟩, fun _ _ => ⟨entries, context.closed empty, ?_⟩⟩
      · simp [entries]
      · simp [entries]
      · simp [entries]
      · simp [entries]
      · simp [entries]
      · intro block low high
        exact free block (by omega) high
    | error failure =>
      rw [value] at completed
      refine ⟨?_, ?_⟩
      · unfold fsMkfs at completed
        split at completed
        · cases completed
          exact sound
        dsimp only at completed
        split at completed
        · cases completed
          exact ⟨sound.terminated, sound.lengths, sound.names, sound.numbers, sound.below⟩
        · simp only [Option.bind_eq_bind, Option.bind_eq_some_iff] at completed
          obtain ⟨_, _, _, _, _, _, _, _, impossible⟩ := completed
          cases impossible
      · rintro _ ⟨answer, succeeded⟩
        simp [value] at succeeded
  · refine ⟨?_, fun isMkfs => absurd isMkfs mkfs⟩
    by_cases create : ∃ answers filename mode, call = .create answers filename mode
    · obtain ⟨answers, filename, mode, rfl⟩ := create
      rcases create_directory _ _ _ _ _ _ (exec_create done) with
        ⟨entries, counter⟩ | ⟨room, short, fresh, entries, counter⟩
      · refine ⟨?_, ?_, ?_, ?_, ?_⟩ <;> dsimp only <;> rw [entries]
        · exact sound.terminated
        · exact sound.lengths
        · exact sound.names
        · exact sound.numbers
        · exact fun entry member => lt_of_lt_of_le (sound.below entry member) counter
      · obtain ⟨terminated, named⟩ := freshDirent_named room s.fsd.inodesUsed filename short
        exact directory_extended s.fsd next.fsd _ filename sound short fresh terminated named rfl
          entries counter
    · obtain ⟨entries, counter⟩ := directory_frame s next call reply done
        (fun answers dev n same => mkfs ⟨answers, dev, n, same⟩)
        (fun answers filename mode same => create ⟨answers, filename, mode, same⟩)
      refine ⟨?_, ?_, ?_, ?_, ?_⟩ <;> dsimp only <;> rw [entries]
      · exact sound.terminated
      · exact sound.lengths
      · exact sound.names
      · exact sound.numbers
      · rw [counter]
        exact sound.below

/-- From a sound directory on, every step of a run whose formattings all find the
directory empty keeps it sound. -/
theorem directory_run (first last : State) (events : List (Event State Call Reply))
    (run : Run exec first events last) (sound : DirectorySound first.fsd)
    (context : DirectoryContext first) (rounds : Meets CountRounds events)
    (formats : ∀ event ∈ events, FormatsEmpty event) : ∀ event ∈ events, DirectoryHolds event := by
  induction run with
  | done state => simp
  | taken before call reply after last events completed tail inductionHypothesis =>
    have here := directory_step before after call reply sound context
      (formats _ List.mem_cons_self) completed
    obtain ⟨hereRounds, laterRounds⟩ := (meets_cons CountRounds _ _).mp rounds
    have nextContext := exec_context before after call reply context hereRounds completed
    intro event member
    rcases List.mem_cons.mp member with rfl | later
    · exact here
    · exact inductionHypothesis here.1 nextContext laterRounds
        (fun event member => formats event (List.mem_cons_of_mem _ member)) event later

/-- Over every run from the start of the system, the directory is sound in every
state and empty after every successful formatting exactly when each successful
formatting found the directory empty.

If one did not, the entries it found are still there afterwards. If all did, the
invariant is carried along the run. -/
theorem directory_holds_iff (events : List (Event State Call Reply)) (last : State)
    (run : Run exec boot events last) (rounds : Meets CountRounds events) :
    (∀ event ∈ events, DirectoryHolds event) ↔ (∀ event ∈ events, FormatsEmpty event) := by
  have context : DirectoryContext boot := ⟨by decide, fun _ _ => rfl⟩
  constructor
  · intro holds event member isMkfs succeeded
    have empty := ((holds event member).2 isMkfs succeeded).rootDir
    have steps := invariant_events DirectoryContext CountRounds
      (fun before call reply after context rounds completed =>
        exec_context before after call reply context rounds completed)
      boot last events run context rounds
    obtain ⟨_, _, completed⟩ := steps event member
    obtain ⟨answers, dev, n, isMkfs⟩ := isMkfs
    obtain ⟨value, succeeded⟩ := succeeded
    rw [isMkfs] at completed
    have formatted := exec_mkfs completed
    rw [succeeded] at formatted
    obtain ⟨chunk, marked, twice, bytes, _, _, first, second, final⟩ :=
      mkfs_exact _ _ _ _ _ _ formatted
    have frame := marked_twice_frame _ _ _ _ first second
    rw [final] at empty
    dsimp only at empty
    rw [frame] at empty
    exact empty
  · have sound : DirectorySound boot.fsd := by
      refine ⟨?_, ?_, ?_, ?_, ?_⟩ <;> simp [boot]
    exact directory_run boot last events run sound context rounds

/-- The law applies to a run that formats once and creates a file. -/
theorem directory_holds_after_create : ∃ events last, Run exec boot events last ∧
    events.length = 3 ∧ Meets CountRounds events ∧
    ((∀ event ∈ events, DirectoryHolds event) ↔ (∀ event ∈ events, FormatsEmpty event)) := by
  obtain ⟨events, last, run, checked⟩ := trace_exists exec boot
    (device16 16 ++ [.create granting fileA oCreat])
    (fun events _ => events.length == 3 && events.all fun event =>
      match event.call with
      | .mkdev _ _ _ numblocks => decide (numblocks.toInt ≤ 2 ^ 31 - 8)
      | _ => true) (by decide +kernel)
  rw [Bool.and_eq_true] at checked
  have rounds : Meets CountRounds events := by
    intro event member
    have small := List.all_eq_true.mp checked.2 event member
    cases call : event.call <;> simp_all [CountRounds]
  exact ⟨events, last, run, by simpa using checked.1, rounds,
    directory_holds_iff events last run rounds⟩

/-- A successful `fs_mkfs`. -/
def formats (event : Event State Call Reply) : Bool :=
  match event.call, event.reply.value with
  | .mkfs .., .ok _ => true
  | _, _ => false

/-- Formatting a second time keeps the file of the first: the directory still has
an entry right after a successful `fs_mkfs`. -/
theorem second_mkfs_keeps_directory :
    ¬ ∀ events last, Run exec boot events last → ∀ event ∈ events, DirectoryHolds event := by
  intro holds
  obtain ⟨events, last, run, checked⟩ := trace_exists exec boot
    (device16 16 ++ [.create granting fileA oCreat, .mkfs granting 0 16])
    (fun events _ => events.any fun event =>
      formats event && !event.after.fsd.rootDir.isEmpty) (by decide +kernel)
  obtain ⟨event, member, failing⟩ := List.any_eq_true.mp checked
  rw [Bool.and_eq_true] at failing
  obtain ⟨kind, remaining⟩ := failing
  have kept : event.after.fsd.rootDir ≠ [] := by simpa using remaining
  apply kept
  unfold formats at kind
  split at kind
  case h_1 answers dev n value isMkfs succeeded =>
    exact ((holds events last run event member).2 ⟨answers, dev, n, isMkfs⟩
      ⟨value, succeeded⟩).rootDir
  case h_2 => cases kind

end Xinu.FileSystem
