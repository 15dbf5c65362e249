import Xinu.LocalRefinement

/-!
# Opening local files

`lfsopen` reads the directory if no file was opened before. The file that it opens gets the first free
pseudo-device. Here the calls come together: every call of a history does what it does on files.
-/

namespace Xinu.LocalFiles

open CIntegers WordMemory WriteBack

/-- The system with its directory in memory. -/
def System.loaded (s : System) : System :=
  if s.lfDirpresent then s else { s with lfDir := s.disk lfAreaDir, lfDirpresent := true }

/-- A system means files. Until the directory is read no file is open. -/
structure Represents (g : Geometry) (s : System) (files : Files) : Prop where
  means : ∃ ib db l, Means g s.loaded ib db l files
  absent : s.lfDirpresent = false → ∀ m, (s.lfltab m).lfused = false

section Loading

variable {g : Geometry} {s : System} {files : Files} {minor : Nat}

theorem loaded_present (present : s.lfDirpresent = true) : s.loaded = s := if_pos present

@[simp] theorem loaded_lfltab : s.loaded.lfltab = s.lfltab := by
  unfold System.loaded
  split <;> rfl

theorem loaded_loaded : s.loaded.loaded = s.loaded := by
  refine loaded_present ?_
  unfold System.loaded
  split
  case isTrue present => exact present
  case isFalse => rfl

theorem represents_present {ib : UInt32 → Lfiblk} {db : UInt32 → Memory} {l : Layout}
    (means : Means g s ib db l files) : Represents g s files := by
  have present := means.rests.present
  refine ⟨⟨ib, db, l, ?_⟩, fun absent => absurd (present.symm.trans absent) (by decide)⟩
  rw [loaded_present present]
  exact means

end Loading

section Claiming

variable {g : Geometry} {s : System} {ib : UInt32 → Lfiblk} {db : UInt32 → Memory} {l : Layout} {files : Files}
  {minor e : Nat} {name : CString}

/-- A free control block becomes that of a file which is not open. -/
theorem Holds.claim {iext dext : Nat → Nat} (holds : Holds g s ib db l iext dext) (below : minor < nlfl)
    (free : (s.lfltab minor).lfused = false) (inFiles : e < lfdNfiles s.lfDir)
    (notOpen : ∀ m, (s.lfltab m).lfused = true → (s.lfltab m).lfdirptr ≠ e) (chars : List UInt8) :
    Holds g (s.setFile minor ((s.lfltab minor).opened e chars)) ib db l iext dext := by
  have noIndex : (s.lfltab minor).islot = none := if_neg fun both => by
    rw [free] at both
    exact Bool.noConfusion both.1
  have noData : (s.lfltab minor).dslot = none := if_neg fun both => by
    rw [free] at both
    exact Bool.noConfusion both.1
  have newIndex : ((s.lfltab minor).opened e chars).islot = none := if_neg fun both => both.2 rfl
  have newData : ((s.lfltab minor).opened e chars).dslot = none := if_neg fun both => both.2 rfl
  refine ⟨holds.present, holds.sound, ?_, ?_, fun m used => ?_, fun m k mUsed kUsed same => ?_⟩
  · rw [islot_setFile, newIndex, ← noIndex, Function.update_eq_self]
    exact holds.icoh
  · rw [dslot_setFile, newData, ← noData, Function.update_eq_self]
    exact holds.dcoh
  · rcases eq_or_ne m minor with rfl | away
    · rw [setFile_self]
      exact ⟨below, inFiles, fun loaded => absurd rfl loaded, fun loaded => absurd rfl loaded, fun _ => rfl,
        fun _ => rfl, Nat.zero_le _, fun near => absurd near (Nat.lt_irrefl _)⟩
    · rw [setFile_of_ne away] at used ⊢
      exact holds.file m used
  · rcases eq_or_ne m minor with rfl | mAway <;> rcases eq_or_ne k m with isSame | kAway
    · exact isSame.symm
    · rw [setFile_of_ne kAway] at kUsed same
      rw [setFile_self] at same
      exact absurd same.symm (notOpen k kUsed)
    · exact isSame.symm
    · rw [setFile_of_ne mAway] at mUsed same
      rcases eq_or_ne k minor with rfl | away
      · rw [setFile_self] at same
        exact absurd same (notOpen m mUsed)
      · rw [setFile_of_ne away] at kUsed same
        exact holds.alone m k mUsed kUsed same

/-- The name of a file that is not open stands at no entry of an open file. -/
theorem Means.notOpen (means : Means g s ib db l files) (here : files.names[e]? = some name)
    (closed : files.isOpen name = false) (m : Nat) (used : (s.lfltab m).lfused = true) :
    (s.lfltab m).lfdirptr ≠ e := by
  rintro rfl
  have below := (means.rests.file m used).1
  have opened := means.handles m
  cases isOpen : files.handles m with
  | none =>
    rw [means.closed isOpen] at used
    cases used
  | some handle =>
    have isName := (means.opened isOpen).2.2.1
    have same : handle.name = name := Option.some.inj (isName.symm.trans here)
    have found : files.isOpen name = true := by
      unfold Files.isOpen
      rw [List.any_eq_true]
      refine ⟨m, List.mem_range.mpr below, ?_⟩
      rw [isOpen, Option.any_some, same]
      exact decide_eq_true rfl
    rw [found] at closed
    cases closed

/-- An old file is opened. -/
theorem Means.openOld (means : Means g s ib db l files) (here : files.names[e]? = some name)
    (closed : files.isOpen name = false) (below : minor < nlfl) (free : files.handles minor = none) :
    Means g (s.setFile minor ((s.lfltab minor).opened e name.chars)) ib db l (files.opened minor name) := by
  have inFiles : e < lfdNfiles s.lfDir := by
    rw [← means.named.length]
    exact (List.getElem?_eq_some_iff.mp here).1
  refine ⟨Holds.claim means.rests below (means.closed free) inFiles (means.notOpen here closed) _, means.named,
    means.contents, fun m => ?_⟩
  show Opened files.names _ (Function.update files.handles minor (some ⟨name, 0⟩) m)
  rcases eq_or_ne m minor with rfl | away
  · rw [Function.update_self, setFile_self]
    exact ⟨rfl, rfl, here, sameName_copyName⟩
  · rw [Function.update_of_ne away, setFile_of_ne away]
    exact means.handles m

theorem extent_added {dir after : Memory} (added : AddedDir dir after) : extent after = extent dir := by
  funext f
  unfold extent
  rw [added.nfiles, added.size]
  rcases Nat.lt_trichotomy f (lfdNfiles dir) with old | rfl | outside
  · rw [if_pos (by omega), if_neg (by omega), if_pos old]
  · rw [if_pos (by omega), if_pos rfl, if_neg (by omega)]
    rfl
  · rw [if_neg (by omega), if_neg (by omega)]

/-- An empty file is added to the directory. -/
theorem Means.create (means : Means g s ib db l files) (isNew : name ∉ files.names)
    (short : name.chars.length < lfNameLen) (room : files.names.length < lfNumDirEnt) (fresh : Bool) :
    Means g { s with lfDir := addEntry s.lfDir name.chars, fresh := fresh } ib db l (files.created name) := by
  have space : lfdNfiles s.lfDir < lfNumDirEnt := by
    rw [← means.named.length]
    exact room
  have added := addedDir space short
  have sameExtent := extent_added added
  have holds : Holds g s ib db l (extent s.lfDir) (extent s.lfDir) := means.rests
  refine ⟨?_, means.named.added space short isNew, fun e other here => ?_, fun m => ?_⟩
  · show Holds g _ ib db l (extent (addEntry s.lfDir name.chars)) (extent (addEntry s.lfDir name.chars))
    rw [sameExtent]
    refine ⟨holds.present, holds.sound.added space added.nfiles added.dfree added.ifree added.ilist, holds.icoh,
      holds.dcoh, fun m used => ?_, holds.alone⟩
    obtain ⟨below, fileOk⟩ := holds.file m used
    have entry := fileOk.entry
    refine ⟨below, fileOk.elsewhere (by dsimp only; rw [added.nfiles]; lia) ?_ rfl rfl⟩
    dsimp only at entry ⊢
    rw [added.size, if_neg (by lia)]
  · have bytes : ∀ f, fileBytes db (addEntry s.lfDir name.chars) l f = fileBytes db s.lfDir l f := by
      intro f
      unfold fileBytes
      rw [sameExtent]
    show Function.update files.contents name [] other = fileBytes db (addEntry s.lfDir name.chars) l e
    rw [bytes]
    have here' : (files.names ++ [name])[e]? = some other := here
    rcases Nat.lt_or_ge e files.names.length with old | new
    · rw [List.getElem?_append_left old] at here'
      have apart : other ≠ name := fun same => isNew (same ▸ List.mem_of_getElem? here')
      rw [Function.update_of_ne apart]
      exact means.contents e other here'
    · have isEnd : e = files.names.length := by
        have below := (List.getElem?_eq_some_iff.mp here').1
        rw [List.length_append, List.length_singleton] at below
        lia
      rw [isEnd, List.getElem?_concat_length] at here'
      cases here'
      have noBytes : fileBytes db s.lfDir l e = [] := by
        unfold fileBytes extent
        rw [if_neg (by rw [← means.named.length]; lia)]
        rfl
      rw [Function.update_self, noBytes]
  · show Opened (files.names ++ [name]) (s.lfltab m) (files.handles m)
    have opened := means.handles m
    cases isOpen : files.handles m with
    | none => exact means.closed isOpen
    | some handle =>
      obtain ⟨used, position, isName, copied⟩ := means.opened isOpen
      refine ⟨used, position, ?_, copied⟩
      rw [List.getElem?_append_left (List.getElem?_eq_some_iff.mp isName).1]
      exact isName

/-- The search over the pseudo-devices, on files. -/
theorem Means.searchDevices (means : Means g s ib db l files) (name : CString) :
    searchDevices s.lfltab name.chars (List.range nlfl) none =
      if files.isOpen name = true then none else some files.freeDevice := by
  have found : (∃ i ∈ List.range nlfl, (s.lfltab i).lfused = true ∧
      sameName name.chars (s.lfltab i).lfname 0 = true) ↔ files.isOpen name = true := by
    unfold Files.isOpen
    rw [List.any_eq_true]
    refine exists_congr fun i => and_congr_right fun _ => ?_
    cases isOpen : files.handles i with
    | none =>
      rw [means.closed isOpen]
      exact ⟨fun both => Bool.noConfusion both.1, fun any => Bool.noConfusion any⟩
    | some handle =>
      obtain ⟨used, _, _, copied⟩ := means.opened isOpen
      rw [Option.any_some, decide_eq_true_iff]
      constructor
      · rintro ⟨_, same⟩
        exact cstring_ext (sameName_unique handle.name.terminated name.terminated copied same)
      · rintro rfl
        exact ⟨used, copied⟩
  have free : (fun i => decide ((s.lfltab i).lfused = false)) = fun i => (files.handles i).isNone := by
    funext i
    cases isOpen : files.handles i with
    | none =>
      rw [means.closed isOpen]
      rfl
    | some handle =>
      rw [(means.opened isOpen).1]
      rfl
  rw [searchDevices_eq, if_congr found rfl rfl, free, Option.none_or]
  rfl

/-- The first free pseudo-device. -/
theorem Files.freeDevice_some (isFree : files.freeDevice = some minor) :
    minor < nlfl ∧ files.handles minor = none := by
  unfold Files.freeDevice at isFree
  have free := List.find?_some isFree
  exact ⟨List.mem_range.mp (List.mem_of_find?_eq_some isFree), Option.isNone_iff_eq_none.mp free⟩

end Claiming

section Opening

variable {g : Geometry} {s : System} {files : Files}

theorem openEntry_none {name : List UInt8} (search : searchDir s.loaded.lfDir name = none) (mbits : Mbits) :
    openEntry s name mbits =
      if mbits.o then (none, s.loaded)
      else if lfNumDirEnt ≤ lfdNfiles s.loaded.lfDir then (none, s.loaded)
      else (some (lfdNfiles s.loaded.lfDir),
        { s.loaded with lfDir := addEntry s.loaded.lfDir name, fresh := true }) := by
  unfold System.loaded at search ⊢
  unfold openEntry
  dsimp only
  rw [search]

theorem openEntry_some {name : List UInt8} {e : Nat} (search : searchDir s.loaded.lfDir name = some e)
    (mbits : Mbits) :
    openEntry s name mbits = if mbits.n then (none, s.loaded) else (some e, s.loaded) := by
  unfold System.loaded at search ⊢
  unfold openEntry
  dsimp only
  rw [search]

/-- `lfsopen` does what it does on files. -/
theorem Represents.lfsopen (represents : Represents g s files) (name mode : CString) :
    ∃ after, lfsopen s name mode = ((files.openFile name mode).1.1, after) ∧
      (files.openFile name mode).1.2 = [] ∧ Represents g after (files.openFile name mode).2 ∧
      (DirSafe s.loaded → DirSafe after.loaded) ∧
      (after.loaded = s.loaded ∨ ∃ m, (after.lfltab m).lfused = true) := by
  obtain ⟨ib, db, l, means⟩ := represents.means
  have search := means.searchDevices name
  rw [loaded_lfltab] at search
  have refused : ∃ after, ((syserr, s) : Int × System) = (syserr, after) ∧ ([] : List UInt8) = [] ∧
      Represents g after files ∧ (DirSafe s.loaded → DirSafe after.loaded) ∧
      (after.loaded = s.loaded ∨ ∃ m, (after.lfltab m).lfused = true) :=
    ⟨s, rfl, rfl, represents, id, Or.inl rfl⟩
  have refusedLoaded : ∃ after, ((syserr, s.loaded) : Int × System) = (syserr, after) ∧ ([] : List UInt8) = [] ∧
      Represents g after files ∧ (DirSafe s.loaded → DirSafe after.loaded) ∧
      (after.loaded = s.loaded ∨ ∃ m, (after.lfltab m).lfused = true) := by
    refine ⟨s.loaded, rfl, rfl, represents_present means, ?_, Or.inl loaded_loaded⟩
    rw [loaded_loaded]
    exact id
  unfold LocalFiles.lfsopen Files.openFile
  dsimp only
  by_cases long : lfNameLen ≤ name.chars.length
  · rw [if_pos long, if_pos (Or.inl long)]
    exact refused
  rw [if_neg long]
  cases isOpen : files.isOpen name with
  | true =>
    rw [search, isOpen, if_pos rfl, if_pos (Or.inr rfl)]
    cases lfgetmode mode <;> exact refused
  | false =>
    rw [search, isOpen, if_neg (by decide), if_neg (by simp [long])]
    cases lfgetmode mode with
    | none => exact refused
    | some mbits =>
      cases free : files.freeDevice with
      | none => exact refused
      | some device =>
        obtain ⟨below, isFree⟩ := Files.freeDevice_some free
        have short : name.chars.length < lfNameLen := Nat.lt_of_not_le long
        dsimp only
        rcases means.named.searchDir name with ⟨isNew, absent⟩ | ⟨e, here, found⟩
        · rw [openEntry_none absent, if_neg isNew]
          cases mbits.o with
          | true =>
            rw [if_pos rfl, if_pos (Or.inl rfl)]
            exact refusedLoaded
          | false =>
            by_cases full : lfNumDirEnt ≤ files.names.length
            · rw [if_neg (by decide), if_pos (by rw [← means.named.length]; exact full), if_pos (Or.inr full)]
              exact refusedLoaded
            · have created := means.create isNew short (Nat.lt_of_not_le full) true
              have atEnd : (files.created name).names[lfdNfiles s.loaded.lfDir]? = some name := by
                rw [← means.named.length]
                exact List.getElem?_concat_length
              have opened := created.openOld atEnd isOpen below isFree
              rw [if_neg (by decide), if_neg (by rw [← means.named.length]; exact full),
                if_neg (by simp [full])]
              refine ⟨_, rfl, rfl, represents_present opened, fun _ => ?_, Or.inr ⟨device, ?_⟩⟩
              · rw [loaded_present opened.rests.present]
                exact Or.inr (Or.inl rfl)
              · rw [setFile_self]
                rfl
        · have opened := means.openOld here isOpen below isFree
          rw [openEntry_some found, if_pos (List.mem_of_getElem? here)]
          cases mbits.n with
          | true => exact refusedLoaded
          | false =>
            rw [if_neg (by decide), if_neg (by decide)]
            refine ⟨_, rfl, rfl, represents_present opened, fun safe => ?_, Or.inr ⟨device, ?_⟩⟩
            · rw [loaded_present opened.rests.present]
              exact safe
            · rw [setFile_self]
              rfl

/-- An open file means that the directory is in memory. -/
theorem Represents.present_of_open (represents : Represents g s files) {minor : Nat} {handle : Handle}
    (isOpen : files.handles minor = some handle) : s.lfDirpresent = true := by
  obtain ⟨_, _, _, means⟩ := represents.means
  have used := (means.opened isOpen).1
  rw [loaded_lfltab] at used
  cases present : s.lfDirpresent with
  | true => rfl
  | false =>
    rw [represents.absent present minor] at used
    cases used

/-- A call does what it does on files, unless these would not fit on the disk. -/
theorem Represents.exec (represents : Represents g s files) (call : Call) :
    (exec s call = .error .panic ∧ ¬ (files.call call).2.Fits g) ∨
    ∃ after, exec s call = .ok ((files.call call).1, after) ∧ Represents g after (files.call call).2 ∧
      (DirSafe s.loaded → DirSafe after.loaded) := by
  cases onDevice : call.minor with
  | none =>
    cases call with
    | «open» name mode =>
      obtain ⟨after, opened, noBytes, next, safe, _⟩ := represents.lfsopen name mode
      refine Or.inr ⟨after, ?_, next, safe⟩
      show Except.ok (((LocalFiles.lfsopen s name mode).1, []), (LocalFiles.lfsopen s name mode).2) = _
      rw [opened, ← noBytes]
      rfl
    | _ => cases onDevice
  | some minor =>
    obtain ⟨ib, db, l, means⟩ := represents.means
    cases isOpen : files.handles minor with
    | none =>
      have free := means.closed isOpen
      rw [loaded_lfltab] at free
      obtain ⟨done, same⟩ := exec_closed free isOpen call onDevice
      refine Or.inr ⟨s, done, ?_, id⟩
      rw [same]
      exact represents
    | some handle =>
      rw [loaded_present (represents.present_of_open isOpen)] at means ⊢
      have simulated : Simulates g s (LocalFiles.exec s call) (files.call call) := by
        cases call with
        | «open» name mode => cases onDevice
        | close device =>
          cases onDevice
          obtain ⟨after, done, next, safe, _⟩ := means.exec_close isOpen
          exact Or.inr ⟨after, ib, db, l, done, next, safe⟩
        | getc device =>
          cases onDevice
          exact means.exec_getc isOpen
        | putc device ch =>
          cases onDevice
          exact means.exec_putc isOpen ch
        | seek device offset =>
          cases onDevice
          exact means.exec_seek isOpen offset
        | read device count =>
          cases onDevice
          exact means.exec_read isOpen count
        | write device buff count =>
          cases onDevice
          exact means.exec_write isOpen buff count
        | control device func stack =>
          cases onDevice
          exact means.exec_control isOpen func stack
      rcases simulated with panics | ⟨after, ib', db', l', done, next, safe⟩
      · exact Or.inl panics
      · refine Or.inr ⟨after, done, represents_present next, fun isSafe => ?_⟩
        rw [loaded_present next.rests.present]
        exact safe isSafe

end Opening

end Xinu.LocalFiles
