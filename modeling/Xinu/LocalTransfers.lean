import Xinu.LocalCaches

/-!
# Flushing, fetching and allocating blocks

The steps that bring blocks of an open file to the disk and into memory. A flush writes what an open file
has changed. An index block is fetched from the chain of the file. A free block is taken from the head of
its list, or the call stops because the list is empty. Each of them leaves the sizes, the names and the
other files as they are.
-/

namespace Xinu.LocalFiles

open CIntegers WordMemory WriteBack

/-- The control block after a flush. -/
def Lflcblk.flushed (file : Lflcblk) : Lflcblk := { file with lfdbdirty := false, lfibdirty := false }

/-- The disk after the three parts of a flush. -/
def dirFlushed (s : System) : Disk := if s.lfDirdirty then Function.update s.disk lfAreaDir s.lfDir else s.disk

def dataFlushed (file : Lflcblk) (disk : Disk) : Disk :=
  if file.lfdbdirty then Function.update disk file.lfdnum.toNat file.lfdblock else disk

def indexFlushed (file : Lflcblk) (disk : Disk) : Disk :=
  if file.lfibdirty then lfibput disk file.lfinum file.lfiblock else disk

section Flush

variable {g : Geometry} {s : System} {ib : UInt32 → Lfiblk} {db : UInt32 → Memory} {l : Layout}
  {iext dext : Nat → Nat} {minor : Nat}

/-- `lfflush` of an open file. -/
theorem lfflush_eq (used : (s.lfltab minor).lfused = true) : lfflush s minor =
    ⟨indexFlushed (s.lfltab minor) (dataFlushed (s.lfltab minor) (dirFlushed s)), s.lfDir, s.lfDirpresent,
      false, Function.update s.lfltab minor (s.lfltab minor).flushed, if s.lfDirdirty then false else s.fresh⟩ := by
  unfold lfflush
  dsimp only
  rw [if_neg (by simp [used])]
  unfold indexFlushed dataFlushed dirFlushed System.writeDir System.setFile Lflcblk.flushed
  cases dirty : s.lfDirdirty <;> cases (s.lfltab minor).lfdbdirty <;> cases (s.lfltab minor).lfibdirty <;>
    simp [dirty]

/-- What a flush writes was kept in memory. -/
theorem Holds.flush (holds : Holds g s ib db l iext dext) (used : (s.lfltab minor).lfused = true) :
    Holds g (lfflush s minor) ib db l iext dext := by
  have fileOk := (holds.file minor used).2
  have icohDir : Coherent g.IsIndex (lfibget (dirFlushed s)) (fun m => (s.lfltab m).islot) ib := by
    unfold dirFlushed
    split
    · exact icoh_dir holds.icoh
    · exact holds.icoh
  have dcohDir : Coherent g.IsData (ddisk (dirFlushed s)) (fun m => (s.lfltab m).dslot) db := by
    unfold dirFlushed
    split
    · exact dcoh_dir holds.dcoh
    · exact holds.dcoh
  -- The data block, if it has changed.
  have data : Coherent g.IsIndex (lfibget (dataFlushed (s.lfltab minor) (dirFlushed s)))
        (fun m => (s.lfltab m).islot) ib ∧
      Coherent g.IsData (ddisk (dataFlushed (s.lfltab minor) (dirFlushed s)))
        (Function.update (fun m => (s.lfltab m).dslot) minor (s.lfltab minor).flushed.dslot) db := by
    unfold dataFlushed
    split
    case isTrue dirty =>
      have loaded : (s.lfltab minor).lfdnum ≠ lfDnull := fun none_ => by
        rw [fileOk.dtidy none_] at dirty
        cases dirty
      have isData := holds.sound.blocks_data (fileOk.down loaded)
      refine ⟨icoh_data icohDir isData, ?_⟩
      have isSlot : (s.lfltab minor).flushed.dslot =
          some ⟨(s.lfltab minor).lfdnum, (s.lfltab minor).lfdblock, false⟩ := dslot_some used loaded
      rw [ddisk_update, isSlot]
      exact dcohDir.flush (dslot_some used loaded)
    case isFalse clean =>
      refine ⟨icohDir, ?_⟩
      have same : (s.lfltab minor).flushed.dslot = (s.lfltab minor).dslot := by
        unfold Lflcblk.dslot Lflcblk.flushed
        simp only [Bool.eq_false_of_not_eq_true clean]
      rw [same, Function.update_eq_self]
      exact dcohDir
  obtain ⟨icohData, dcohData⟩ := data
  have index : Coherent g.IsIndex
        (lfibget (indexFlushed (s.lfltab minor) (dataFlushed (s.lfltab minor) (dirFlushed s))))
        (Function.update (fun m => (s.lfltab m).islot) minor (s.lfltab minor).flushed.islot) ib ∧
      Coherent g.IsData
        (ddisk (indexFlushed (s.lfltab minor) (dataFlushed (s.lfltab minor) (dirFlushed s))))
        (Function.update (fun m => (s.lfltab m).dslot) minor (s.lfltab minor).flushed.dslot) db := by
    unfold indexFlushed
    split
    case isTrue dirty =>
      have loaded : (s.lfltab minor).lfinum ≠ lfInull := fun none_ => by
        rw [fileOk.itidy none_] at dirty
        cases dirty
      have isIndex := holds.sound.chain_index (fileOk.iown loaded)
      refine ⟨?_, dcoh_index dcohData isIndex _⟩
      have isSlot : (s.lfltab minor).flushed.islot =
          some ⟨(s.lfltab minor).lfinum, (s.lfltab minor).lfiblock, false⟩ := islot_some used loaded
      rw [lfibget_lfibput, isSlot]
      exact icohData.flush (islot_some used loaded)
    case isFalse clean =>
      have same : (s.lfltab minor).flushed.islot = (s.lfltab minor).islot := by
        unfold Lflcblk.islot Lflcblk.flushed
        simp only [Bool.eq_false_of_not_eq_true clean]
      rw [same, Function.update_eq_self]
      exact ⟨icohData, dcohData⟩
  rw [lfflush_eq used, holds.present]
  exact holds.replaceFile used rfl holds.sound rfl (fun _ _ => rfl) (fun _ _ => rfl) (fun _ _ => rfl)
    index.1 index.2 ⟨fileOk.entry, fileOk.iown, fileOk.down, fun _ => rfl, fun _ => rfl, fileOk.position, fileOk.byte⟩

end Flush

/-- The directory on the disk is that in memory, or a flag tells that it is not. -/
def DirSafe (s : System) : Prop := s.lfDirdirty = true ∨ s.fresh = true ∨ s.disk lfAreaDir = s.lfDir

/-- What a call on a file leaves as it is: sizes, names and the other files. -/
structure Kept (s after : System) (minor : Nat) : Prop where
  size : ∀ f, ldSize after.lfDir f = ldSize s.lfDir f
  nfiles : lfdNfiles after.lfDir = lfdNfiles s.lfDir
  name : ∀ f k, k < 16 → after.lfDir (ldName f + k) = s.lfDir (ldName f + k)
  others : ∀ m, m ≠ minor → after.lfltab m = s.lfltab m
  used : (after.lfltab minor).lfused = (s.lfltab minor).lfused
  entry : (after.lfltab minor).lfdirptr = (s.lfltab minor).lfdirptr
  position : (after.lfltab minor).lfpos = (s.lfltab minor).lfpos
  lfname : (after.lfltab minor).lfname = (s.lfltab minor).lfname

/-- An entry may get more blocks. The blocks that files had before hold the same bytes. -/
structure Grown (db data : UInt32 → Memory) (l later : Layout) (e : Nat) : Prop where
  elsewhere : ∀ f, f ≠ e → later.blocks f = l.blocks f
  longer : l.blocks e <+: later.blocks e
  same : ∀ f, ∀ d ∈ l.blocks f, data d = db d

section Frames

variable {s middle after : System} {minor e : Nat} {db data : UInt32 → Memory} {l later : Layout}

theorem Kept.refl (s : System) (minor : Nat) : Kept s s minor :=
  ⟨fun _ => rfl, rfl, fun _ _ _ => rfl, fun _ _ => rfl, rfl, rfl, rfl, rfl⟩

theorem Kept.trans (first : Kept s middle minor) (second : Kept middle after minor) : Kept s after minor :=
  ⟨fun f => (second.size f).trans (first.size f), second.nfiles.trans first.nfiles,
    fun f k small => (second.name f k small).trans (first.name f k small),
    fun m away => (second.others m away).trans (first.others m away), second.used.trans first.used,
    second.entry.trans first.entry, second.position.trans first.position, second.lfname.trans first.lfname⟩

theorem Grown.refl (db : UInt32 → Memory) (l : Layout) (e : Nat) : Grown db db l l e :=
  ⟨fun _ _ => rfl, List.prefix_rfl, fun _ _ _ => rfl⟩

/-- Names lie outside of the words of the directory. -/
theorem name_store {dir : Memory} {place : Nat} {w : UInt32}
    (isWord : place < 12 ∨ ∃ f, place = lfdFiles f ∨ place = lfdFiles f + 4) (aligned : 4 ∣ place) (f k : Nat)
    (small : k < 16) : store dir place w (ldName f + k) = dir (ldName f + k) := by
  refine store_outside ?_
  unfold ldName lfdFiles at *
  rcases isWord with head | ⟨other, isPlace | isPlace⟩ <;> lia

/-- A control block changes beside its entry, name and position. -/
theorem kept_setFile {file : Lflcblk} {disk : Disk} {dirdirty fresh : Bool}
    (same : (file.lfused, file.lfdirptr, file.lfpos, file.lfname) = ((s.lfltab minor).lfused,
      (s.lfltab minor).lfdirptr, (s.lfltab minor).lfpos, (s.lfltab minor).lfname)) :
    Kept s ⟨disk, s.lfDir, true, dirdirty, Function.update s.lfltab minor file, fresh⟩ minor := by
  simp only [Prod.mk.injEq] at same
  obtain ⟨used, entry, position, name⟩ := same
  refine ⟨fun _ => rfl, rfl, fun _ _ _ => rfl, fun m away => Function.update_of_ne away _ _, ?_, ?_, ?_, ?_⟩ <;>
    dsimp only <;> rw [Function.update_self] <;> assumption

/-- The directory on the disk after a flush. -/
theorem Holds.flush_dir {g : Geometry} {ib : UInt32 → Lfiblk} {iext dext : Nat → Nat}
    (holds : Holds g s ib db l iext dext) (used : (s.lfltab minor).lfused = true) :
    (lfflush s minor).disk lfAreaDir = if s.lfDirdirty then s.lfDir else s.disk lfAreaDir := by
  have fileOk := (holds.file minor used).2
  have data : dataFlushed (s.lfltab minor) (dirFlushed s) lfAreaDir = dirFlushed s lfAreaDir := by
    unfold dataFlushed
    split
    case isTrue dirty =>
      have loaded : (s.lfltab minor).lfdnum ≠ lfDnull := fun none_ => by
        rw [fileOk.dtidy none_] at dirty
        cases dirty
      exact Function.update_of_ne (Geometry.data_pos (holds.sound.blocks_data (fileOk.down loaded))).symm _ _
    case isFalse => rfl
  have index : indexFlushed (s.lfltab minor) (dataFlushed (s.lfltab minor) (dirFlushed s)) lfAreaDir =
      dataFlushed (s.lfltab minor) (dirFlushed s) lfAreaDir := by
    unfold indexFlushed
    split
    · exact lfibput_of_ne (Geometry.sect_pos _).symm
    · rfl
  rw [lfflush_eq used]
  dsimp only
  rw [index, data]
  unfold dirFlushed
  split
  · exact Function.update_self _ _ _
  · rfl

/-- The copies of an open file are written if one of them has changed. -/
theorem Holds.settled {g : Geometry} {ib : UInt32 → Lfiblk} {iext dext : Nat → Nat}
    (holds : Holds g s ib db l iext dext) (used : (s.lfltab minor).lfused = true)
    (isAfter : after =
      if (s.lfltab minor).lfibdirty ∨ (s.lfltab minor).lfdbdirty then lfflush s minor else s) :
    Holds g after ib db l iext dext ∧ Kept s after minor ∧ after.lfDir = s.lfDir ∧
      after.lfltab minor = (s.lfltab minor).flushed ∧ (DirSafe s → DirSafe after) := by
  by_cases dirty : (s.lfltab minor).lfibdirty ∨ (s.lfltab minor).lfdbdirty
  · rw [if_pos dirty] at isAfter
    subst isAfter
    have disk := holds.flush_dir used
    have flushed := holds.flush used
    rw [lfflush_eq used] at disk flushed ⊢
    refine ⟨flushed, ?_, rfl, Function.update_self _ _ _, fun safe => ?_⟩
    · rw [holds.present]
      exact kept_setFile rfl
    · dsimp only at disk
      unfold DirSafe at safe ⊢
      dsimp only
      rw [disk]
      cases isDirty : s.lfDirdirty with
      | true => exact Or.inr (Or.inr rfl)
      | false =>
        rw [isDirty] at safe
        exact safe
  · rw [if_neg dirty] at isAfter
    subst isAfter
    obtain ⟨iclean, dclean⟩ := not_or.mp dirty
    refine ⟨holds, Kept.refl _ minor, rfl, ?_, id⟩
    have index := Bool.eq_false_of_not_eq_true iclean
    have data := Bool.eq_false_of_not_eq_true dclean
    generalize after.lfltab minor = file at index data ⊢
    cases file
    exact congr (congrArg _ index) data

end Frames

section Fetch

variable {g : Geometry} {s : System} {ib : UInt32 → Lfiblk} {db : UInt32 → Memory} {l : Layout}
  {iext dext : Nat → Nat} {minor : Nat} {n d : UInt32}

/-- An index block of the file is fetched, and the data block may be given up. -/
theorem Holds.fetchIndex (holds : Holds g s ib db l iext dext) (used : (s.lfltab minor).lfused = true)
    (iclean : (s.lfltab minor).lfibdirty = false) (dclean : (s.lfltab minor).lfdbdirty = false)
    (far : lfBlksiz ≤ (s.lfltab minor).lfbyte) (member : n ∈ l.chain (s.lfltab minor).lfdirptr)
    (keep : d = (s.lfltab minor).lfdnum ∨ d = lfDnull) :
    lfibget s.disk n = ib n ∧ Holds g (s.setFile minor
      { s.lfltab minor with lfiblock := lfibget s.disk n, lfinum := n, lfdnum := d }) ib db l iext dext := by
  have isIndex := holds.sound.chain_index member
  have fileOk := (holds.file minor used).2
  obtain ⟨agrees, icoh⟩ := holds.icoh.fetch (islot_clean iclean) isIndex
    (holds.unkeptIndex used (Or.inr member))
  refine ⟨agrees, ?_⟩
  unfold System.setFile
  rw [holds.present]
  refine holds.replaceFile used rfl holds.sound rfl (fun _ _ => rfl) (fun _ _ => rfl) (fun _ _ => rfl) ?_ ?_ ?_
  · have isSlot : Lflcblk.islot { s.lfltab minor with
        lfiblock := lfibget s.disk n, lfinum := n, lfdnum := d } = some ⟨n, lfibget s.disk n, false⟩ :=
      (if_pos ⟨used, Geometry.index_ne_null isIndex⟩).trans (by dsimp only; rw [iclean])
    rw [isSlot]
    exact icoh
  · rcases keep with isSame | isNull
    · have isSlot : Lflcblk.dslot { s.lfltab minor with
          lfiblock := lfibget s.disk n, lfinum := n, lfdnum := d } = (s.lfltab minor).dslot := by
        rw [isSame]
        rfl
      rw [isSlot, Function.update_eq_self]
      exact holds.dcoh
    · have isSlot : Lflcblk.dslot { s.lfltab minor with
          lfiblock := lfibget s.disk n, lfinum := n, lfdnum := d } = none := by
        unfold Lflcblk.dslot
        rw [if_neg]
        exact fun both => both.2 isNull
      rw [isSlot]
      exact holds.dcoh.evict (dslot_clean dclean)
  · refine ⟨fileOk.entry, fun _ => member, fun loaded => ?_, fun none_ => ?_, fun _ => dclean,
      fileOk.position, fun near => absurd far (Nat.not_le.mpr near)⟩
    · rcases keep with isSame | isNull
      · dsimp only at loaded ⊢
        rw [isSame] at loaded ⊢
        exact fileOk.down loaded
      · exact absurd isNull loaded
    · exact absurd none_ (Geometry.index_ne_null isIndex)

/-- A free index block is in nobody's memory. -/
theorem Holds.freeIndex (holds : Holds g s ib db l iext dext) (isFree : n ∈ l.ifree) :
    (∀ m c, (s.lfltab m).islot = some c → c.key ≠ n) ∧ lfibget s.disk n = ib n := by
  have nobody : ∀ m c, (s.lfltab m).islot = some c → c.key ≠ n := by
    intro m c kept same
    obtain ⟨isUsed, loaded, key⟩ := islot_key kept
    have member := (holds.file m isUsed).2.iown loaded
    rw [← key, same] at member
    exact holds.sound.free_not_chain isFree member
  exact ⟨nobody, holds.icoh.uncached n (holds.sound.ifree_index isFree) nobody⟩

theorem Holds.freeData (holds : Holds g s ib db l iext dext) (isFree : d ∈ l.dfree) :
    (∀ m c, (s.lfltab m).dslot = some c → c.key ≠ d) ∧ s.disk d.toNat = db d := by
  have nobody : ∀ m c, (s.lfltab m).dslot = some c → c.key ≠ d := by
    intro m c kept same
    obtain ⟨isUsed, loaded, key⟩ := dslot_key kept
    have member := (holds.file m isUsed).2.down loaded
    rw [← key, same] at member
    exact holds.sound.free_not_block isFree member
  exact ⟨nobody, holds.dcoh.uncached d (holds.sound.dfree_data isFree) nobody⟩

/-- `lfiballoc` takes the first free index block, or stops. -/
theorem Holds.lfiballoc (holds : Holds g s ib db l iext dext) :
    (l.ifree = [] ∧ lfiballoc s = .error .panic) ∨
    ∃ n rest, l.ifree = n :: rest ∧ lfiballoc s = .ok (n,
      ⟨Function.update s.disk lfAreaDir (store s.lfDir 4 (ib n).ibNext), store s.lfDir 4 (ib n).ibNext, true,
        false, s.lfltab, false⟩) := by
  have path := holds.sound.ipath
  cases free : l.ifree with
  | nil =>
    rw [free] at path
    have isNull : lfdIfree s.lfDir = lfInull := path
    exact Or.inl ⟨rfl, if_pos isNull⟩
  | cons n rest =>
    rw [free] at path
    have member : n ∈ l.ifree := free ▸ List.mem_cons_self
    have isFirst : lfdIfree s.lfDir = n := path.1
    have real : n ≠ lfInull := Geometry.index_ne_null (holds.sound.ifree_index member)
    refine Or.inr ⟨n, rest, rfl, ?_⟩
    unfold LocalFiles.lfiballoc System.writeDir
    dsimp only
    rw [isFirst, if_neg real, (holds.freeIndex member).2, holds.present]

/-- `lfdballoc` takes the first free data block, or stops. -/
theorem Holds.lfdballoc (holds : Holds g s ib db l iext dext) :
    (l.dfree = [] ∧ lfdballoc s = .error .panic) ∨
    ∃ d rest, l.dfree = d :: rest ∧ lfdballoc s = .ok (d, copy (db d) 0 (fun _ => dfill) lfBlksiz,
      ⟨Function.update s.disk lfAreaDir (store s.lfDir 0 (load (db d) 0)), store s.lfDir 0 (load (db d) 0), true,
        false, s.lfltab, false⟩) := by
  have path := holds.sound.dpath
  cases free : l.dfree with
  | nil =>
    rw [free] at path
    have isNull : lfdDfree s.lfDir = lfDnull := path
    exact Or.inl ⟨rfl, if_pos isNull⟩
  | cons d rest =>
    rw [free] at path
    have member : d ∈ l.dfree := free ▸ List.mem_cons_self
    have isFirst : lfdDfree s.lfDir = d := path.1
    have real : d ≠ lfDnull := Geometry.data_ne_null (holds.sound.dfree_data member)
    refine Or.inr ⟨d, rest, rfl, ?_⟩
    unfold LocalFiles.lfdballoc System.writeDir
    dsimp only
    rw [isFirst, if_neg real, (holds.freeData member).2, holds.present]

end Fetch

end Xinu.LocalFiles
