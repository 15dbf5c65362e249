import Xinu.LocalLayout
import Xinu.WriteBack

/-!
# The copies of blocks in memory

An open file keeps one index block and one data block in memory. The blocks on the disk and these copies
together mean the blocks of the layout: two caches that are written back, one of index blocks and one of
data blocks. Here are the steps that the calls are made of: a flush, the fetching of a block, and the
allocation of one.
-/

namespace Xinu.LocalFiles

open CIntegers WordMemory WriteBack

/-- The blocks that a control block keeps. -/
def Lflcblk.islot (file : Lflcblk) : Option (Slot UInt32 Lfiblk) :=
  if file.lfused = true ∧ file.lfinum ≠ lfInull then some ⟨file.lfinum, file.lfiblock, file.lfibdirty⟩ else none

def Lflcblk.dslot (file : Lflcblk) : Option (Slot UInt32 Memory) :=
  if file.lfused = true ∧ file.lfdnum ≠ lfDnull then some ⟨file.lfdnum, file.lfdblock, file.lfdbdirty⟩ else none

/-- The data blocks on a disk. -/
def ddisk (disk : Disk) (d : UInt32) : Memory := disk d.toNat

/-- What an open file keeps belongs to it, and the byte pointer is that of the position. -/
structure FileOk (dir : Memory) (l : Layout) (file : Lflcblk) : Prop where
  entry : file.lfdirptr < lfdNfiles dir
  iown : file.lfinum ≠ lfInull → file.lfinum ∈ l.chain file.lfdirptr
  down : file.lfdnum ≠ lfDnull → file.lfdnum ∈ l.blocks file.lfdirptr
  itidy : file.lfinum = lfInull → file.lfibdirty = false
  dtidy : file.lfdnum = lfDnull → file.lfdbdirty = false
  position : file.lfpos.toNat ≤ (ldSize dir file.lfdirptr).toNat
  byte : file.lfbyte < lfBlksiz → file.lfbyte = file.lfpos.toNat % 512 ∧
    (l.blocks file.lfdirptr)[file.lfpos.toNat / 512]? = some file.lfdnum

/-- The disk and the copies in memory mean the blocks of a layout. -/
structure Holds (g : Geometry) (s : System) (ib : UInt32 → Lfiblk) (db : UInt32 → Memory) (l : Layout)
    (iext dext : Nat → Nat) : Prop where
  present : s.lfDirpresent = true
  sound : Sound g ib db s.lfDir l iext dext
  icoh : Coherent g.IsIndex (lfibget s.disk) (fun m => (s.lfltab m).islot) ib
  dcoh : Coherent g.IsData (ddisk s.disk) (fun m => (s.lfltab m).dslot) db
  file : ∀ m, (s.lfltab m).lfused = true → m < nlfl ∧ FileOk s.lfDir l (s.lfltab m)
  alone : ∀ m k, (s.lfltab m).lfused = true → (s.lfltab k).lfused = true →
    (s.lfltab m).lfdirptr = (s.lfltab k).lfdirptr → m = k

section Disks

variable {g : Geometry} {disk : Disk} {n d : UInt32} {block : Memory}

theorem Geometry.sect_pos (n : UInt32) : ib2sect n ≠ lfAreaDir := by
  unfold ib2sect lfAreaIb lfAreaDir
  lia

theorem Geometry.sect_ne (isIndex : g.IsIndex n) (isData : g.IsData d) : d.toNat ≠ ib2sect n := by
  unfold Geometry.IsIndex Geometry.IsData ib2sect lfAreaIb at *
  lia

theorem Geometry.data_pos (isData : g.IsData d) : d.toNat ≠ lfAreaDir := by
  unfold Geometry.IsData lfAreaDir at *
  omega

theorem ddisk_update (d : UInt32) (block : Memory) :
    ddisk (Function.update disk d.toNat block) = Function.update (ddisk disk) d block := by
  funext this
  unfold ddisk
  rcases eq_or_ne this d with rfl | apart
  · rw [Function.update_self, Function.update_self]
  · rw [Function.update_of_ne apart, Function.update_of_ne fun same => apart (UInt32.toNat_inj.mp same)]

variable {islot : Nat → Option (Slot UInt32 Lfiblk)} {dslot : Nat → Option (Slot UInt32 Memory)}
  {ib : UInt32 → Lfiblk} {db : UInt32 → Memory}

/-- The directory is written. -/
theorem icoh_dir (icoh : Coherent g.IsIndex (lfibget disk) islot ib) :
    Coherent g.IsIndex (lfibget (Function.update disk lfAreaDir block)) islot ib :=
  icoh.congr fun n _ => lfibget_update_of_ne (Geometry.sect_pos n).symm

theorem dcoh_dir (dcoh : Coherent g.IsData (ddisk disk) dslot db) :
    Coherent g.IsData (ddisk (Function.update disk lfAreaDir block)) dslot db :=
  dcoh.congr fun _ isData => Function.update_of_ne (Geometry.data_pos isData) _ _

/-- A data block is written. -/
theorem icoh_data (icoh : Coherent g.IsIndex (lfibget disk) islot ib) (isData : g.IsData d) :
    Coherent g.IsIndex (lfibget (Function.update disk d.toNat block)) islot ib :=
  icoh.congr fun _ isIndex => lfibget_update_of_ne (Geometry.sect_ne isIndex isData)

/-- An index block is written. -/
theorem dcoh_index (dcoh : Coherent g.IsData (ddisk disk) dslot db) (isIndex : g.IsIndex n)
    (iblock : Lfiblk) : Coherent g.IsData (ddisk (lfibput disk n iblock)) dslot db :=
  dcoh.congr fun _ isData => lfibput_of_ne (Geometry.sect_ne isIndex isData)

end Disks

section Tables

variable {s : System} {minor : Nat} {file : Lflcblk}

@[simp] theorem setFile_self : (s.setFile minor file).lfltab minor = file := Function.update_self _ _ _

theorem setFile_of_ne {other : Nat} (apart : other ≠ minor) :
    (s.setFile minor file).lfltab other = s.lfltab other := Function.update_of_ne apart _ _

theorem islot_setFile : (fun m => ((s.setFile minor file).lfltab m).islot) =
    Function.update (fun m => (s.lfltab m).islot) minor file.islot := by
  funext m
  rcases eq_or_ne m minor with rfl | apart
  · rw [setFile_self, Function.update_self]
  · rw [setFile_of_ne apart, Function.update_of_ne apart]

theorem dslot_setFile : (fun m => ((s.setFile minor file).lfltab m).dslot) =
    Function.update (fun m => (s.lfltab m).dslot) minor file.dslot := by
  funext m
  rcases eq_or_ne m minor with rfl | apart
  · rw [setFile_self, Function.update_self]
  · rw [setFile_of_ne apart, Function.update_of_ne apart]

theorem islot_some (used : file.lfused = true) (loaded : file.lfinum ≠ lfInull) :
    file.islot = some ⟨file.lfinum, file.lfiblock, file.lfibdirty⟩ := if_pos ⟨used, loaded⟩

theorem dslot_some (used : file.lfused = true) (loaded : file.lfdnum ≠ lfDnull) :
    file.dslot = some ⟨file.lfdnum, file.lfdblock, file.lfdbdirty⟩ := if_pos ⟨used, loaded⟩

theorem islot_clean (clean : file.lfibdirty = false) (c : Slot UInt32 Lfiblk) (holds : file.islot = some c) :
    c.dirty = false := by
  unfold Lflcblk.islot at holds
  split at holds
  · cases holds
    exact clean
  · cases holds

theorem dslot_clean (clean : file.lfdbdirty = false) (c : Slot UInt32 Memory) (holds : file.dslot = some c) :
    c.dirty = false := by
  unfold Lflcblk.dslot at holds
  split at holds
  · cases holds
    exact clean
  · cases holds

/-- The number in a slot. -/
theorem islot_key {c : Slot UInt32 Lfiblk} (holds : file.islot = some c) :
    file.lfused = true ∧ file.lfinum ≠ lfInull ∧ c.key = file.lfinum := by
  unfold Lflcblk.islot at holds
  split at holds
  case isTrue both =>
    cases holds
    exact ⟨both.1, both.2, rfl⟩
  case isFalse => cases holds

theorem dslot_key {c : Slot UInt32 Memory} (holds : file.dslot = some c) :
    file.lfused = true ∧ file.lfdnum ≠ lfDnull ∧ c.key = file.lfdnum := by
  unfold Lflcblk.dslot at holds
  split at holds
  case isTrue both =>
    cases holds
    exact ⟨both.1, both.2, rfl⟩
  case isFalse => cases holds

end Tables

section Files

variable {g : Geometry} {s : System} {ib : UInt32 → Lfiblk} {db : UInt32 → Memory} {l later : Layout}
  {iext dext : Nat → Nat} {minor e : Nat} {file : Lflcblk} {dir : Memory} {n d : UInt32}

/-- Another file than the one of an entry keeps what it has. -/
theorem FileOk.elsewhere (fileOk : FileOk s.lfDir l file) (nfiles : lfdNfiles s.lfDir ≤ lfdNfiles dir)
    (size : ldSize dir file.lfdirptr = ldSize s.lfDir file.lfdirptr)
    (chain : later.chain file.lfdirptr = l.chain file.lfdirptr)
    (blocks : later.blocks file.lfdirptr = l.blocks file.lfdirptr) : FileOk dir later file := by
  refine ⟨fileOk.entry.trans_le nfiles, ?_, ?_, fileOk.itidy, fileOk.dtidy, ?_, ?_⟩
  · rw [chain]
    exact fileOk.iown
  · rw [blocks]
    exact fileOk.down
  · rw [size]
    exact fileOk.position
  · rw [blocks]
    exact fileOk.byte

/-- No other file keeps an index block that is free or of the entry. -/
theorem Holds.unkeptIndex (holds : Holds g s ib db l iext dext) (used : (s.lfltab minor).lfused = true)
    (place : n ∈ l.ifree ∨ n ∈ l.chain (s.lfltab minor).lfdirptr) :
    Unkept (fun m => (s.lfltab m).islot) minor n := by
  intro m c away kept same
  obtain ⟨isUsed, loaded, key⟩ := islot_key kept
  have member := (holds.file m isUsed).2.iown loaded
  rw [← key, same] at member
  rcases place with isFree | inChain
  · exact holds.sound.free_not_chain isFree member
  · exact away (holds.alone m minor isUsed used (holds.sound.chain_apart member inChain))

theorem Holds.unkeptData (holds : Holds g s ib db l iext dext) (used : (s.lfltab minor).lfused = true)
    (place : d ∈ l.dfree ∨ d ∈ l.blocks (s.lfltab minor).lfdirptr) :
    Unkept (fun m => (s.lfltab m).dslot) minor d := by
  intro m c away kept same
  obtain ⟨isUsed, loaded, key⟩ := dslot_key kept
  have member := (holds.file m isUsed).2.down loaded
  rw [← key, same] at member
  rcases place with isFree | inBlocks
  · exact holds.sound.free_not_block isFree member
  · exact away (holds.alone m minor isUsed used (holds.sound.blocks_apart member inBlocks))

/-- One control block changes, for the same entry. -/
theorem Holds.replaceFile {disk : Disk} {dirdirty fresh : Bool} {index : UInt32 → Lfiblk}
    {data : UInt32 → Memory} {ispan dspan : Nat → Nat} (holds : Holds g s ib db l iext dext)
    (used : (s.lfltab minor).lfused = true) (entry : file.lfdirptr = (s.lfltab minor).lfdirptr)
    (sound : Sound g index data dir later ispan dspan) (nfiles : lfdNfiles dir = lfdNfiles s.lfDir)
    (sizes : ∀ e, e ≠ file.lfdirptr → ldSize dir e = ldSize s.lfDir e)
    (chains : ∀ e, e ≠ file.lfdirptr → later.chain e = l.chain e)
    (blocks : ∀ e, e ≠ file.lfdirptr → later.blocks e = l.blocks e)
    (icoh : Coherent g.IsIndex (lfibget disk)
      (Function.update (fun m => (s.lfltab m).islot) minor file.islot) index)
    (dcoh : Coherent g.IsData (ddisk disk)
      (Function.update (fun m => (s.lfltab m).dslot) minor file.dslot) data)
    (fileOk : FileOk dir later file) :
    Holds g ⟨disk, dir, true, dirdirty, Function.update s.lfltab minor file, fresh⟩ index data later
      ispan dspan := by
  have others : ∀ m, m ≠ minor → (s.lfltab m).lfused = true →
      (s.lfltab m).lfdirptr ≠ file.lfdirptr := fun m away isUsed same =>
    away (holds.alone m minor isUsed used (same.trans entry))
  refine ⟨rfl, sound, ?_, ?_, fun m isUsed => ?_, fun m k mUsed kUsed same => ?_⟩
  · exact (@islot_setFile s minor file).symm ▸ icoh
  · exact (@dslot_setFile s minor file).symm ▸ dcoh
  · rcases eq_or_ne m minor with rfl | away
    · dsimp only
      rw [Function.update_self]
      exact ⟨(holds.file m used).1, fileOk⟩
    · dsimp only at isUsed ⊢
      rw [Function.update_of_ne away] at isUsed ⊢
      obtain ⟨below, ok⟩ := holds.file m isUsed
      have apart := others m away isUsed
      exact ⟨below, ok.elsewhere nfiles.ge (sizes _ apart) (chains _ apart) (blocks _ apart)⟩
  · dsimp only at mUsed kUsed same
    rcases eq_or_ne m minor with rfl | mAway <;> rcases eq_or_ne k m with isSame | kAway
    · exact isSame.symm
    · rw [Function.update_of_ne kAway] at kUsed same
      rw [Function.update_self] at same
      exact absurd same.symm (others k kAway kUsed)
    · exact isSame.symm
    · rw [Function.update_of_ne mAway] at mUsed same
      rcases eq_or_ne k minor with rfl | away
      · rw [Function.update_self] at same
        exact absurd same (others m mAway mUsed)
      · rw [Function.update_of_ne away] at kUsed same
        exact holds.alone m k mUsed kUsed same

end Files

end Xinu.LocalFiles
