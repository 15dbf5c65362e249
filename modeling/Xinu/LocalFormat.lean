import Xinu.LocalCreation

/-!
# Laying out a disk

`lfscreate` as it is called: the number of index blocks is a signed word and the size of the disk an
unsigned one, the loop over the data blocks compares a signed counter with an unsigned bound, and the
answers of the device are looked at once. With room for an index block and a data block the disk is the
one that the file system starts from. Otherwise the bound of the last loop, or the head of the list of
index blocks, is that of a larger disk.
-/

namespace Xinu.LocalFiles.Format

open CIntegers WordMemory

/-- A disk device, with the sectors that it was told to write. -/
structure Drive where
  isOpen : Bool
  sectors : Disk
  written : List Nat

/-- `write` of a sector; a device that is not open refuses. -/
def Drive.write (disk : Drive) (buff : Memory) (sector : Nat) : Int × Drive :=
  if disk.isOpen then
    (ok, { disk with
      sectors := Function.update disk.sectors sector buff, written := disk.written ++ [sector] })
  else (syserr, disk)

/-- `lfibput` on a device. -/
def Drive.lfibput (disk : Drive) (inum : UInt32) (ibuff : Lfiblk) : Drive :=
  if disk.isOpen then
    (disk.write (copy (disk.sectors (ib2sect inum)) (ib2disp inum) ibuff.bytes iblkSize)
      (ib2sect inum)).2
  else disk

/-- The loop over the index blocks but the last one. -/
def indexLoop : Nat → Nat → Drive → Drive
  | 0, _, disk => disk
  | left + 1, i, disk =>
    indexLoop left (i + 1)
      (disk.lfibput (UInt32.ofNat i) { lfibclear 0 with ibNext := UInt32.ofNat (i + 1) })

/-- The loop over the data blocks but the last one. -/
def dataLoop : Nat → Nat → Drive → Drive
  | 0, _, disk => disk
  | left + 1, dbindex, disk =>
    dataLoop left (dbindex + 1)
      (disk.write (store (fun _ => 0) 0 (UInt32.ofNat (dbindex + 1))) dbindex).2

/-- The sectors of index blocks, computed with unsigned words. -/
def indexSectors (lfiblks : Int32) : UInt32 := (lfiblks.toUInt32 + (7 - 1)) / 7

/-- `lfscreate`. There is no status where the number of a data block leaves its range; the device is
then the one at that moment. -/
def lfscreate (disk : Drive) (lfiblks : Int32) (dsiz : UInt32) : Option Int × Drive :=
  let sectors := dsiz / 512
  let ibsectors := indexSectors lfiblks
  let lfiblks := (ibsectors * 7).toInt32
  if ibsectors > sectors / 2 then (some syserr, disk)
  else
    let dbindex := ibsectors.toNat + 1
    let dblks := sectors - ibsectors - 1
    let (retval, disk) := disk.write (store (fun _ => 0) 0 (UInt32.ofNat dbindex)) lfAreaDir
    if retval = syserr then (some syserr, disk)
    else
      let last := (lfiblks.toInt - 1).toNat
      let disk := (indexLoop last 0 disk).lfibput (UInt32.ofNat last) (lfibclear 0)
      let bound := (dblks - 1).toNat
      if 2 ^ 31 ≤ dbindex + bound then (none, dataLoop (2 ^ 31 - 1 - dbindex) dbindex disk)
      else
        let disk := dataLoop bound dbindex disk
        let disk := (disk.write (store (fun _ => 0) 0 lfDnull) (dbindex + bound)).2
        (some ok, { disk with isOpen := false })

/-- The sectors of index blocks that were asked for, a division rounded up. -/
def indexArea (lfiblks : Int32) : Int := (lfiblks.toInt + 6) / 7

/-- A disk of some sectors with its index area behind the directory, its data area behind that, every
block of them on its free list, and no other sector written. -/
structure LaidOut (area : Int) (sectors : Nat) (disk : Drive) : Prop where
  ifree : ∃ blocks, Path (fun n => (lfibget disk.sectors n).ibNext) (lfdIfree (disk.sectors lfAreaDir))
    blocks lfInull ∧ blocks.Nodup ∧ ∀ n : UInt32, n ∈ blocks ↔ (n.toNat : Int) < 7 * area
  dfree : ∃ blocks, Path (fun d => load (disk.sectors d.toNat) 0) (lfdDfree (disk.sectors lfAreaDir))
    blocks lfDnull ∧ blocks.Nodup ∧
    ∀ d : UInt32, d ∈ blocks ↔ lfAreaIb + area ≤ d.toNat ∧ d.toNat < sectors
  apart : ∀ n : UInt32, (n.toNat : Int) < 7 * area →
    lfAreaIb ≤ ib2sect n ∧ (ib2sect n : Int) < lfAreaIb + area
  inside : ∀ sector ∈ disk.written, sector < sectors

/-- The device after some more sectors were written. -/
def Drive.put (disk : Drive) (sectors : Disk) (places : List Nat) : Drive :=
  { disk with sectors := sectors, written := disk.written ++ places }

/-- The sectors of some index blocks, one after another. -/
def indexPlaces (left i : Nat) : List Nat :=
  (List.range' i left).map fun index => ib2sect (UInt32.ofNat index)

section Loops

variable {disk : Drive} {sectors later : Disk} {places more : List Nat}

theorem put_open (isOpen : disk.isOpen = true) : (disk.put sectors places).isOpen = true := isOpen

@[simp] theorem put_sectors : (disk.put sectors places).sectors = sectors := rfl

@[simp] theorem put_put : (disk.put sectors places).put later more = disk.put later (places ++ more) := by
  simp [Drive.put]

theorem write_open (isOpen : disk.isOpen = true) (buff : Memory) (sector : Nat) :
    disk.write buff sector = (ok, disk.put (Function.update disk.sectors sector buff) [sector]) :=
  if_pos isOpen

theorem lfibput_open (isOpen : disk.isOpen = true) (inum : UInt32) (ibuff : Lfiblk) :
    disk.lfibput inum ibuff =
      disk.put (LocalFiles.lfibput disk.sectors inum ibuff) [ib2sect inum] := by
  rw [Drive.lfibput, if_pos isOpen, write_open isOpen]
  rfl

theorem indexLoop_eq (left : Nat) : ∀ {disk : Drive} (i : Nat), disk.isOpen = true →
    indexLoop left i disk = disk.put (createIblocks left i disk.sectors) (indexPlaces left i) := by
  induction left with
  | zero =>
    intro disk i isOpen
    simp [indexLoop, createIblocks, indexPlaces, Drive.put]
  | succ left inductionHypothesis =>
    intro disk i isOpen
    rw [indexLoop, lfibput_open isOpen, inductionHypothesis _ (put_open isOpen)]
    simp [createIblocks, indexPlaces, List.range'_succ]

theorem dataLoop_eq (left : Nat) : ∀ {disk : Drive} (dbindex : Nat), disk.isOpen = true →
    dataLoop left dbindex disk =
      disk.put (createDblocks (fun _ => 0) left dbindex disk.sectors) (List.range' dbindex left) := by
  induction left with
  | zero =>
    intro disk dbindex isOpen
    simp [dataLoop, createDblocks, Drive.put]
  | succ left inductionHypothesis =>
    intro disk dbindex isOpen
    rw [dataLoop, write_open isOpen, inductionHypothesis _ (put_open isOpen)]
    simp [createDblocks, List.range'_succ]

end Loops

section Numbers

variable {lfiblks : Int32} {dsiz : UInt32}

/-- The unsigned reading of a word. -/
theorem toNat_toUInt32 (word : Int32) : (word.toUInt32.toNat : Int) = word.toInt % 2 ^ 32 := by
  have reading := BitVec.toInt_eq_toNat_cond word.toBitVec
  have inWord := word.toBitVec.isLt
  show (word.toBitVec.toNat : Int) = word.toBitVec.toInt % 2 ^ 32
  rw [reading]
  split <;> lia

theorem accepted_iff : indexSectors lfiblks > dsiz / 512 / 2 ↔
    dsiz.toNat / 512 / 2 < (indexSectors lfiblks).toNat := by
  rw [gt_iff_lt, UInt32.lt_iff_toNat_lt, UInt32.toNat_div, UInt32.toNat_div]
  rfl

/-- A number of index blocks that is accepted is rounded up to whole sectors. -/
theorem indexSectors_eq (accepted : (indexSectors lfiblks).toNat ≤ dsiz.toNat / 512 / 2) :
    ((indexSectors lfiblks).toNat : Int) = indexArea lfiblks := by
  have reading := toNat_toUInt32 lfiblks
  have range := toInt_range lfiblks
  have inWord := dsiz.toNat_lt
  rw [indexSectors, UInt32.toNat_div, UInt32.toNat_add] at accepted ⊢
  have six : (7 - 1 : UInt32).toNat = 6 := rfl
  have seven : (7 : UInt32).toNat = 7 := rfl
  rw [six, seven] at accepted ⊢
  unfold indexArea
  lia

/-- The number of index blocks in whole sectors is a signed word too. -/
theorem indexBlocks_eq (accepted : (indexSectors lfiblks).toNat ≤ dsiz.toNat / 512 / 2) :
    (indexSectors lfiblks * 7).toInt32.toInt = 7 * (indexSectors lfiblks).toNat := by
  have inWord := dsiz.toNat_lt
  have product : (indexSectors lfiblks * 7).toNat = (indexSectors lfiblks).toNat * 7 := by
    rw [UInt32.toNat_mul]
    exact Nat.mod_eq_of_lt (by show _ * 7 < _; lia)
  rw [toInt_toInt32 _ (by lia), product]
  lia

/-- The bound of the loop over the data blocks. -/
theorem bound_eq (accepted : (indexSectors lfiblks).toNat ≤ dsiz.toNat / 512 / 2) :
    (dsiz / 512 - indexSectors lfiblks - 1 - 1).toNat =
      if (indexSectors lfiblks).toNat + 2 ≤ dsiz.toNat / 512 then
        dsiz.toNat / 512 - (indexSectors lfiblks).toNat - 2
      else 2 ^ 32 + dsiz.toNat / 512 - (indexSectors lfiblks).toNat - 2 := by
  have inWord := dsiz.toNat_lt
  have sectors : (dsiz / 512).toNat = dsiz.toNat / 512 := UInt32.toNat_div _ _
  rw [UInt32.toNat_sub, UInt32.toNat_sub, UInt32.toNat_sub, sectors, UInt32.toNat_one]
  split <;> omega

end Numbers

section Calls

variable {disk : Drive} {lfiblks : Int32} {dsiz : UInt32}

/-- A call that is not refused: the device is open, and the index area takes at most half of it. -/
theorem accepted_of_status (accepted : (lfscreate disk lfiblks dsiz).1 ≠ some syserr) :
    disk.isOpen = true ∧ (indexSectors lfiblks).toNat ≤ dsiz.toNat / 512 / 2 := by
  unfold lfscreate at accepted
  dsimp only at accepted
  split at accepted
  case isTrue => exact absurd rfl accepted
  case isFalse fits =>
    rw [accepted_iff] at fits
    refine ⟨?_, Nat.le_of_not_lt fits⟩
    by_contra closed
    rw [Drive.write, if_neg closed] at accepted
    exact accepted rfl

/-- The disk with its directory and its index blocks. -/
def indexed (disk : Drive) (area : Nat) : Drive :=
  disk.put (LocalFiles.lfibput
      (createIblocks (7 * area - 1) 0 (Function.update disk.sectors lfAreaDir
        (store (fun _ => 0) 0 (UInt32.ofNat (area + 1))))) (UInt32.ofNat (7 * area - 1)) (lfibclear 0))
    ([lfAreaDir] ++ (indexPlaces (7 * area - 1) 0 ++ [ib2sect (UInt32.ofNat (7 * area - 1))]))

/-- What an accepted call does. -/
theorem lfscreate_eq (isOpen : disk.isOpen = true)
    (accepted : (indexSectors lfiblks).toNat ≤ dsiz.toNat / 512 / 2) {bound area : Nat}
    (isBound : bound = (dsiz / 512 - indexSectors lfiblks - 1 - 1).toNat)
    (isArea : area = (indexSectors lfiblks).toNat) :
    lfscreate disk lfiblks dsiz =
      if 2 ^ 31 ≤ area + 1 + bound then
        (none, dataLoop (2 ^ 31 - 1 - (area + 1)) (area + 1) (indexed disk area))
      else (some ok,
        { ((dataLoop bound (area + 1) (indexed disk area)).write (store (fun _ => 0) 0 lfDnull)
            (area + 1 + bound)).2 with isOpen := false }) := by
  have fits : ¬ indexSectors lfiblks > dsiz / 512 / 2 := by
    rw [accepted_iff]
    lia
  have last : (((indexSectors lfiblks * 7).toInt32).toInt - 1).toNat = 7 * area - 1 := by
    rw [indexBlocks_eq accepted, isArea]
    lia
  have prepared : (indexLoop (7 * area - 1) 0 (disk.put (Function.update disk.sectors lfAreaDir
      (store (fun _ => 0) 0 (UInt32.ofNat (area + 1)))) [lfAreaDir])).lfibput
        (UInt32.ofNat (7 * area - 1)) (lfibclear 0) = indexed disk area := by
    rw [indexLoop_eq _ _ (put_open isOpen), put_put, lfibput_open (put_open isOpen), put_put,
      List.append_assoc]
    rfl
  unfold lfscreate
  dsimp only
  rw [if_neg fits, write_open isOpen]
  dsimp only
  rw [if_neg (by decide), last, ← isBound, ← isArea, prepared]

/-- No index block is written to the directory, and the loops keep it. -/
theorem indexed_dir (disk : Drive) (area : Nat) : (indexed disk area).sectors lfAreaDir =
    store (fun _ => 0) 0 (UInt32.ofNat (area + 1)) := by
  rw [indexed, put_sectors, lfibput_of_ne (Geometry.sect_pos _).symm, createIblocks_dir, Function.update_self]

/-- Without an index block the list of free ones still begins. -/
theorem empty_list_begins (isOpen : disk.isOpen = true) (bound sectors : Nat) (buff : Memory) :
    ¬ LaidOut 0 sectors { ((dataLoop bound (0 + 1) (indexed disk 0)).write buff (0 + 1 + bound)).2 with
      isOpen := false } := by
  rintro ⟨⟨blocks, path, -, members⟩, -, -, -⟩
  have empty : blocks = [] := by
    rw [List.eq_nil_iff_forall_not_mem]
    intro n member
    have below := (members n).mp member
    omega
  have indexOpen : (indexed disk 0).isOpen = true := isOpen
  rw [empty, dataLoop_eq _ _ indexOpen, write_open (put_open indexOpen)] at path
  have head : lfdIfree (Function.update (createDblocks (fun _ => 0) bound (0 + 1) (indexed disk 0).sectors)
      (0 + 1 + bound) buff lfAreaDir) = lfInull := path
  rw [Function.update_of_ne (by unfold lfAreaDir; omega), createDblocks_eq,
    if_neg (by unfold lfAreaDir; omega), indexed_dir, lfdIfree_store (by decide) (by decide)] at head
  exact absurd head (by decide)

/-- With room for an index block and a data block the disk is the one of `LocalFiles.lfscreate`. -/
theorem same_disk {area sectors : Nat} (isOpen : disk.isOpen = true)
    (isArea : area = ibsectors lfiblks.toInt.toNat)
    (isSectors : sectors = dsiz.toNat / lfBlksiz) (half : area ≤ sectors / 2) :
    LocalFiles.lfscreate disk.sectors lfiblks.toInt.toNat dsiz.toNat =
      some ((dataLoop (sectors - area - 2) (area + 1) (indexed disk area)).write
        (store (fun _ => 0) 0 lfDnull) (area + 1 + (sectors - area - 2))).2.sectors := by
  have indexOpen : (indexed disk area).isOpen = true := isOpen
  rw [dataLoop_eq _ _ indexOpen, write_open (put_open indexOpen)]
  unfold LocalFiles.lfscreate
  dsimp only
  rw [← isArea, ← isSectors, if_neg (by lia), Nat.mul_comm area 7]
  rfl

end Calls

/-- A new file system has the layout. -/
theorem laidOut_of_created {g : Geometry} {disk : Drive} (created : Created g disk.sectors)
    (inside : ∀ sector ∈ disk.written, sector < g.sectors) : LaidOut g.index g.sectors disk := by
  have small := g.small
  have room := g.room
  refine ⟨⟨_, created.ifree, ?_, fun n => ?_⟩, ⟨_, created.dfree, ?_, fun d => ?_⟩,
    fun n below => ?_, inside⟩
  · rw [freeLayout_ifree]
    exact numbers_nodup (by omega)
  · rw [freeLayout_ifree, mem_numbers (by omega)]
    lia
  · exact numbers_nodup (by omega)
  · rw [freeLayout, mem_numbers (by omega)]
    unfold lfAreaIb
    omega
  · unfold ib2sect lfAreaIb
    lia

/-- The index blocks lie in the sectors behind the directory. -/
theorem indexed_written {disk : Drive} {area : Nat} (fresh : disk.written = []) (some_ : 0 < area)
    (small : 7 * area < 2 ^ 32) : ∀ sector ∈ (indexed disk area).written, sector < area + 1 := by
  intro sector member
  rw [indexed, Drive.put, fresh, List.nil_append] at member
  rcases List.mem_append.mp member with directory | blocks
  · rw [List.mem_singleton.mp directory]
    exact Nat.zero_lt_succ area
  · have block : ∃ index < 7 * area, sector = ib2sect (UInt32.ofNat index) := by
      rcases List.mem_append.mp blocks with looped | last
      · obtain ⟨index, inRange, rfl⟩ := List.mem_map.mp looped
        rw [List.mem_range'_1] at inRange
        exact ⟨index, by omega, rfl⟩
      · exact ⟨7 * area - 1, by omega, List.mem_singleton.mp last⟩
    obtain ⟨index, below, rfl⟩ := block
    rw [ib2sect, toNat_ofNat_small (by lia), lfAreaIb]
    lia

section Result

variable {disk : Drive} {lfiblks : Int32} {dsiz : UInt32}

/-- An accepted `lfscreate` lays out a sound disk exactly for at least one index block on a disk of
other than two sectors; and where it has no status it has written behind the end of the disk. -/
theorem layout_is_sound (fresh : disk.written = [])
    (accepted : (lfscreate disk lfiblks dsiz).1 ≠ some syserr) :
    ((lfscreate disk lfiblks dsiz).1 = some ok ∧
        LaidOut (indexArea lfiblks) (dsiz.toNat / 512) (lfscreate disk lfiblks dsiz).2 ↔
      0 < lfiblks.toInt ∧ dsiz.toNat / 512 ≠ 2) ∧
    ((lfscreate disk lfiblks dsiz).1 = none →
      ∃ sector ∈ (lfscreate disk lfiblks dsiz).2.written, dsiz.toNat / 512 ≤ sector) := by
  obtain ⟨isOpen, half⟩ := accepted_of_status accepted
  have area := indexSectors_eq half
  have bound := bound_eq half
  have inWord := dsiz.toNat_lt
  have indexOpen : (indexed disk (indexSectors lfiblks).toNat).isOpen = true := isOpen
  rw [lfscreate_eq isOpen half rfl rfl, bound]
  generalize found : (indexSectors lfiblks).toNat = count at *
  have pieces : indexArea lfiblks = (lfiblks.toInt + 6) / 7 := rfl
  by_cases room : count + 2 ≤ dsiz.toNat / 512
  · rw [if_pos room, if_neg (by lia)]
    refine ⟨?_, fun impossible => by cases impossible⟩
    by_cases positive : 0 < lfiblks.toInt
    · have counted : count = ibsectors lfiblks.toInt.toNat := by
        unfold ibsectors
        lia
      have made := @same_disk disk lfiblks dsiz count (dsiz.toNat / lfBlksiz) isOpen counted rfl half
      have created := created_of_lfscreate (by rw [← counted]; lia)
        (by rw [← counted]; unfold lfBlksiz; lia) inWord made
      refine ⟨fun _ => ⟨positive, by lia⟩, fun _ => ⟨rfl, ?_⟩⟩
      rw [← area]
      have laid := @laidOut_of_created _ { ((dataLoop (dsiz.toNat / 512 - count - 2) (count + 1)
        (indexed disk count)).write (store (fun _ => 0) 0 lfDnull)
          (count + 1 + (dsiz.toNat / 512 - count - 2))).2 with isOpen := false } created ?_
      · have index : (createdGeometry lfiblks.toInt.toNat dsiz.toNat (by rw [← counted]; omega)
            (by rw [← counted]; unfold lfBlksiz; omega) inWord).index = count := counted.symm
        rw [index] at laid
        exact laid
      · intro sector member
        rw [dataLoop_eq _ _ indexOpen, write_open (put_open indexOpen), put_put] at member
        have listed : sector ∈ (indexed disk count).written ++
            (List.range' (count + 1) (dsiz.toNat / 512 - count - 2) ++
              [count + 1 + (dsiz.toNat / 512 - count - 2)]) := member
        show sector < dsiz.toNat / 512
        rw [List.mem_append, List.mem_append, List.mem_range'_1, List.mem_singleton] at listed
        rcases listed with front | data
        · have first := indexed_written fresh (show 0 < count by omega) (by lia) sector front
          lia
        · lia
    · have none_ : count = 0 := by lia
      subst none_
      rw [← area]
      exact ⟨fun both => absurd both.2 (empty_list_begins isOpen _ _ _),
        fun both => absurd both.1 positive⟩
  · rw [if_neg room, if_pos (by lia)]
    refine ⟨⟨(fun both => by cases both.1), fun both => ?_⟩, fun _ => ⟨count + 1, ?_, by lia⟩⟩
    · exfalso
      lia
    · rw [dataLoop_eq _ _ indexOpen]
      exact List.mem_append_right _ (List.mem_range'_1.mpr (by lia))

end Result

/-- A disk of four sectors with seven index blocks. -/
theorem four_sectors_are_sound :
    (lfscreate ⟨true, fun _ _ => 0, []⟩ 7 2048).1 ≠ some syserr ∧
    LaidOut (indexArea 7) ((2048 : UInt32).toNat / 512) (lfscreate ⟨true, fun _ _ => 0, []⟩ 7 2048).2 := by
  have accepted : (lfscreate ⟨true, fun _ _ => 0, []⟩ 7 2048).1 ≠ some syserr := by decide +kernel
  exact ⟨accepted, ((layout_is_sound rfl accepted).1.mpr ⟨by decide, by decide⟩).2⟩

/-- Without index blocks the list of free ones holds block 0, whose sector is a data block; and with
seven of them on two sectors the data blocks run behind the end of the disk. -/
theorem smallest_disks_are_unsound :
    ((lfscreate ⟨true, fun _ _ => 0, []⟩ 0 2048).1 = some ok ∧ ¬ LaidOut (indexArea 0)
      ((2048 : UInt32).toNat / 512) (lfscreate ⟨true, fun _ _ => 0, []⟩ 0 2048).2) ∧
    ((lfscreate ⟨true, fun _ _ => 0, []⟩ 7 1024).1 ≠ some syserr ∧
      ∃ sector ∈ (lfscreate ⟨true, fun _ _ => 0, []⟩ 7 1024).2.written,
        (1024 : UInt32).toNat / 512 ≤ sector) := by
  have empty := @lfscreate_eq ⟨true, fun _ _ => 0, []⟩ 0 2048 rfl (by decide) 2 0 (by decide) (by decide)
  have full := @lfscreate_eq ⟨true, fun _ _ => 0, []⟩ 7 1024 rfl (by decide) (2 ^ 32 - 1) 1 (by decide)
    (by decide)
  rw [if_neg (by decide)] at empty
  rw [if_pos (by decide)] at full
  rw [empty, full]
  refine ⟨⟨rfl, empty_list_begins rfl 2 4 _⟩, (fun impossible => by cases impossible), 2, ?_, by decide⟩
  rw [dataLoop_eq _ _ rfl]
  exact List.mem_append_right _ (List.mem_range'_1.mpr (by omega))

end Xinu.LocalFiles.Format
