import Xinu.LocalHistories

/-!
# A new file system

`lfscreate` writes an empty directory, and links the index blocks and the data blocks to their free lists.
A disk with at least one block of each kind means no files, with all of its blocks free.
-/

namespace Xinu.LocalFiles

open CIntegers WordMemory WriteBack Partitions

/-- The geometry that `lfscreate` lays out, where it has room for a data block. -/
def createdGeometry (lfiblks dsiz : Nat) (someIndex : 0 < ibsectors lfiblks)
    (room : ibsectors lfiblks + 1 < dsiz / lfBlksiz) (small : dsiz < 2 ^ 32) : Geometry where
  index := ibsectors lfiblks
  sectors := dsiz / lfBlksiz
  someIndex := someIndex
  room := room
  small := by
    unfold lfBlksiz
    lia

section Loops

variable {disk : Disk} {n : UInt32}

/-- The index blocks after the loop of `lfscreate`. -/
theorem lfibget_createIblocks (left : Nat) : ∀ {disk : Disk} (i : Nat), i + left ≤ 2 ^ 32 →
    lfibget (createIblocks left i disk) n =
      if i ≤ n.toNat ∧ n.toNat < i + left then { lfibclear 0 with ibNext := UInt32.ofNat (n.toNat + 1) }
      else lfibget disk n := by
  induction left with
  | zero =>
    intro disk i small
    rw [if_neg (by omega)]
    rfl
  | succ left inductionHypothesis =>
    intro disk i small
    unfold createIblocks
    rw [inductionHypothesis (i + 1) (by omega), lfibget_lfibput]
    have value : (UInt32.ofNat i).toNat = i := UInt32.toNat_ofNat_of_lt' (show i < 2 ^ 32 by omega)
    rcases eq_or_ne n (UInt32.ofNat i) with rfl | apart
    · rw [if_neg (by omega), if_pos (by lia), Function.update_self, value]
    · have different : n.toNat ≠ i := fun same => apart (UInt32.toNat_inj.mp (same.trans value.symm))
      rw [Function.update_of_ne apart]
      by_cases inside : i ≤ n.toNat ∧ n.toNat < i + (left + 1)
      · rw [if_pos (by lia), if_pos inside]
      · rw [if_neg (by lia), if_neg inside]

theorem createIblocks_dir (left : Nat) : ∀ {disk : Disk} (i : Nat),
    createIblocks left i disk lfAreaDir = disk lfAreaDir := by
  induction left with
  | zero =>
    intro disk i
    rfl
  | succ left inductionHypothesis =>
    intro disk i
    unfold createIblocks
    rw [inductionHypothesis, lfibput_of_ne (Geometry.sect_pos _).symm]

/-- The data blocks after the loop of `lfscreate`. -/
theorem createDblocks_eq (dblock : Memory) (left : Nat) : ∀ {disk : Disk} (dbindex sector : Nat),
    createDblocks dblock left dbindex disk sector =
      if dbindex ≤ sector ∧ sector < dbindex + left then store dblock 0 (UInt32.ofNat (sector + 1))
      else disk sector := by
  induction left with
  | zero =>
    intro disk dbindex sector
    rw [if_neg (by omega)]
    rfl
  | succ left inductionHypothesis =>
    intro disk dbindex sector
    unfold createDblocks
    rw [inductionHypothesis]
    rcases eq_or_ne sector dbindex with rfl | apart
    · rw [if_neg (by omega), if_pos (by lia), Function.update_self]
    · rw [Function.update_of_ne apart]
      by_cases inside : dbindex ≤ sector ∧ sector < dbindex + (left + 1)
      · rw [if_pos (by lia), if_pos inside]
      · rw [if_neg (by lia), if_neg inside]

end Loops

/-- The disk that `lfscreate` leaves. -/
structure Created (g : Geometry) (made : Disk) : Prop where
  dir : made lfAreaDir = store (fun _ => 0) 0 (UInt32.ofNat (g.index + 1))
  iblock : ∀ n, g.IsIndex n → lfibget made n =
    { lfibclear 0 with ibNext := if n.toNat + 1 < 7 * g.index then UInt32.ofNat (n.toNat + 1) else lfInull }
  dblock : ∀ d, g.IsData d → made d.toNat =
    store (fun _ => 0) 0 (if d.toNat + 1 < g.sectors then UInt32.ofNat (d.toNat + 1) else lfDnull)

section Creation

variable {disk made : Disk} {lfiblks dsiz : Nat} {g : Geometry}

theorem created_of_lfscreate (someIndex : 0 < ibsectors lfiblks) (room : ibsectors lfiblks + 1 < dsiz / lfBlksiz)
    (small : dsiz < 2 ^ 32) (isMade : lfscreate disk lfiblks dsiz = some made) :
    Created (createdGeometry lfiblks dsiz someIndex room small) made := by
  have bound := (createdGeometry lfiblks dsiz someIndex room small).small
  have sectors : (createdGeometry lfiblks dsiz someIndex room small).sectors = dsiz / lfBlksiz := rfl
  unfold lfscreate at isMade
  dsimp only at isMade
  split at isMade
  · cases isMade
  cases isMade
  refine ⟨?_, fun n isIndex => ?_, fun d isData => ?_⟩
  · rw [Function.update_of_ne (by unfold lfAreaDir; lia), createDblocks_eq, if_neg (by unfold lfAreaDir; omega),
      lfibput_of_ne (Geometry.sect_pos _).symm, createIblocks_dir, Function.update_self]
    rfl
  · have below : n.toNat < 7 * ibsectors lfiblks := isIndex
    have apart : ∀ sector, ibsectors lfiblks < sector → sector ≠ ib2sect n := fun sector above => by
      unfold ib2sect lfAreaIb
      lia
    have unread : ∀ left disk, lfibget (createDblocks (fun _ => 0) left (ibsectors lfiblks + 1) disk) n =
        lfibget disk n := fun left disk => lfibget_congr fun k _ => by
      rw [createDblocks_eq, if_neg (by unfold ib2sect lfAreaIb; lia)]
    have value : (UInt32.ofNat (ibsectors lfiblks * 7 - 1)).toNat = ibsectors lfiblks * 7 - 1 :=
      UInt32.toNat_ofNat_of_lt' (show ibsectors lfiblks * 7 - 1 < 2 ^ 32 by lia)
    rw [lfibget_update_of_ne (apart _ (by lia)), unread, lfibget_lfibput]
    show _ = { lfibclear 0 with ibNext :=
      if n.toNat + 1 < 7 * ibsectors lfiblks then UInt32.ofNat (n.toNat + 1) else lfInull }
    rcases eq_or_ne n (UInt32.ofNat (ibsectors lfiblks * 7 - 1)) with rfl | notLast
    · rw [Function.update_self, if_neg (by lia)]
      rfl
    · have different : n.toNat ≠ ibsectors lfiblks * 7 - 1 := fun same =>
        notLast (UInt32.toNat_inj.mp (same.trans value.symm))
      rw [Function.update_of_ne notLast, lfibget_createIblocks _ _ (by lia), if_pos (by lia),
        if_pos (by lia)]
  · obtain ⟨above, below⟩ : ibsectors lfiblks < d.toNat ∧ d.toNat < dsiz / lfBlksiz := isData
    show _ = store (fun _ => 0) 0
      (if d.toNat + 1 < dsiz / lfBlksiz then UInt32.ofNat (d.toNat + 1) else lfDnull)
    rcases eq_or_ne d.toNat (ibsectors lfiblks + 1 + (dsiz / lfBlksiz - ibsectors lfiblks - 1 - 1)) with isLast | notLast
    · rw [isLast, Function.update_self, if_neg (by lia)]
    · rw [Function.update_of_ne notLast, createDblocks_eq, if_pos (by lia), if_pos (by lia)]

/-- All blocks are free. -/
def freeLayout (g : Geometry) : Layout where
  ifree := (List.range (7 * g.index)).map UInt32.ofNat
  dfree := (List.range' (g.index + 1) (g.sectors - g.index - 1)).map UInt32.ofNat
  chain := fun _ => []
  blocks := fun _ => []

theorem toNat_ofNat_small {k : Nat} (small : k < 2 ^ 32) : (UInt32.ofNat k).toNat = k :=
  UInt32.toNat_ofNat_of_lt' small

/-- Numbers from a range are different. -/
theorem numbers_nodup {first count : Nat} (small : first + count ≤ 2 ^ 32) :
    ((List.range' first count).map UInt32.ofNat).Nodup := by
  refine List.Nodup.map_on (fun a inFirst b inSecond same => ?_) List.nodup_range'
  rw [List.mem_range'_1] at inFirst inSecond
  have values := congrArg UInt32.toNat same
  rwa [toNat_ofNat_small (by lia), toNat_ofNat_small (by lia)] at values

theorem mem_numbers {first count : Nat} {n : UInt32} (small : first + count ≤ 2 ^ 32) :
    n ∈ (List.range' first count).map UInt32.ofNat ↔ first ≤ n.toNat ∧ n.toNat < first + count := by
  constructor
  · intro member
    obtain ⟨value, inRange, rfl⟩ := List.mem_map.mp member
    rw [List.mem_range'_1] at inRange
    rw [toNat_ofNat_small (by omega)]
    exact inRange
  · intro inside
    exact List.mem_map.mpr ⟨n.toNat, List.mem_range'_1.mpr inside, UInt32.ofNat_toNat⟩

/-- Numbers from a range stand in one list, once. -/
theorem divided_free {whole : UInt32 → Prop} (first count : Nat) {family : Option Nat → List UInt32}
    (small : first + count ≤ 2 ^ 32) (isFree : family none = (List.range' first count).map UInt32.ofNat)
    (others : ∀ e, family (some e) = []) (isWhole : ∀ n, whole n ↔ first ≤ n.toNat ∧ n.toNat < first + count) :
    Divided whole family := by
  refine ⟨fun i => ?_, fun i j n inFirst inSecond => ?_, fun n => ?_⟩
  · cases i with
    | none =>
      rw [isFree]
      exact numbers_nodup small
    | some e =>
      rw [others]
      exact List.nodup_nil
  · cases i with
    | none =>
      cases j with
      | none => rfl
      | some e =>
        rw [others] at inSecond
        cases inSecond
    | some e =>
      rw [others] at inFirst
      cases inFirst
  · rw [isWhole]
    constructor
    · intro inside
      refine ⟨none, ?_⟩
      rw [isFree]
      exact (mem_numbers small).mpr inside
    · rintro ⟨i, member⟩
      cases i with
      | none =>
        rw [isFree] at member
        exact (mem_numbers small).mp member
      | some e =>
        rw [others] at member
        cases member

/-- Pointers that lead from each number of a range to the next one. -/
theorem path_range {next : UInt32 → UInt32} {head last : UInt32} {first count : Nat} (some_ : 0 < count)
    (small : first + count ≤ 2 ^ 32) (start : head = UInt32.ofNat first)
    (links : ∀ n : UInt32, first ≤ n.toNat → n.toNat < first + count →
      next n = if n.toNat + 1 < first + count then UInt32.ofNat (n.toNat + 1) else last) :
    Path next head ((List.range' first count).map UInt32.ofNat) last := by
  have place : ∀ q, ((List.range' first count).map UInt32.ofNat)[q]? =
      if q < count then some (UInt32.ofNat (first + q)) else none := by
    intro q
    rw [List.getElem?_map]
    split
    case isTrue inside => rw [List.getElem?_range' inside, Option.map_some, Nat.one_mul]
    case isFalse outside =>
      rw [List.getElem?_eq_none (by rw [List.length_range']; omega)]
      rfl
  refine path_of_getElem ?_ fun q n here => ?_
  · rw [List.head?_eq_getElem?, place, if_pos some_]
    exact start
  · rw [place] at here
    split at here
    case isTrue inside =>
      cases here
      have value : (UInt32.ofNat (first + q)).toNat = first + q := toNat_ofNat_small (by omega)
      rw [links _ (by lia) (by lia), place, value]
      by_cases more : q + 1 < count
      · rw [if_pos (by omega), if_pos more]
        rfl
      · rw [if_neg (by lia), if_neg more]
        rfl
    case isFalse => cases here

theorem freeLayout_ifree (g : Geometry) :
    (freeLayout g).ifree = (List.range' 0 (7 * g.index)).map UInt32.ofNat := by
  unfold freeLayout
  rw [List.range_eq_range']

/-- The index blocks of a new file system are on the free list. -/
theorem Created.ifree (created : Created g made) :
    Path (fun n => (lfibget made n).ibNext) (lfdIfree (made lfAreaDir)) (freeLayout g).ifree lfInull := by
  have small := g.small
  have room := g.room
  have someIndex := g.someIndex
  rw [created.dir, freeLayout_ifree]
  refine path_range (by omega) (by omega) ?_ fun n _ below => ?_
  · rw [lfdIfree_store (by decide) (by decide)]
    rfl
  · rw [created.iblock n (by unfold Geometry.IsIndex; omega), Nat.zero_add]

/-- The data blocks of a new file system are on the free list. -/
theorem Created.dfree (created : Created g made) :
    Path (fun d => load (made d.toNat) 0) (lfdDfree (made lfAreaDir)) (freeLayout g).dfree lfDnull := by
  have small := g.small
  have room := g.room
  rw [created.dir]
  refine path_range (by omega) (by omega) load_store_same fun d above below => ?_
  have isData : g.IsData d := by
    unfold Geometry.IsData
    omega
  have isEnd : g.index + 1 + (g.sectors - g.index - 1) = g.sectors := by lia
  rw [created.dblock d isData, load_store_same, isEnd]

/-- A new file system means no files. -/
theorem Created.represents (created : Created g made) : Represents g (lfsinit made) Files.empty := by
  have small := g.small
  have room := g.room
  have someIndex := g.someIndex
  have isLoaded : (lfsinit made).loaded =
      { lfsinit made with lfDir := store (fun _ => 0) 0 (UInt32.ofNat (g.index + 1)), lfDirpresent := true } := by
    rw [← created.dir]
    rfl
  have nfiles : lfdNfiles (store (fun _ => 0) 0 (UInt32.ofNat (g.index + 1))) = 0 := by
    rw [lfdNfiles_store (by decide) (by decide)]
    rfl
  have extents : extent (store (fun _ => 0) 0 (UInt32.ofNat (g.index + 1))) = fun _ => 0 := by
    funext f
    unfold extent
    rw [nfiles]
    exact if_neg (Nat.not_lt_zero f)
  refine ⟨⟨lfibget made, ddisk made, freeLayout g, ?_⟩, fun _ _ => rfl⟩
  rw [isLoaded]
  refine ⟨?_, ⟨nfiles.symm, fun name member => ?_, fun e name here => ?_, List.nodup_nil⟩, fun e name here => ?_,
    fun _ => rfl⟩
  · show Holds g _ _ _ _ (extent (store (fun _ => 0) 0 (UInt32.ofNat (g.index + 1))))
      (extent (store (fun _ => 0) 0 (UInt32.ofNat (g.index + 1))))
    rw [extents]
    refine ⟨rfl, ?_, ?_, ?_, fun m used => Bool.noConfusion used, fun m k used => Bool.noConfusion used⟩
    · refine ⟨nfiles ▸ Nat.zero_le _, ?_, ?_, fun e below => ?_, fun e q n here => ?_, fun _ => rfl, fun _ => rfl,
        fun _ => le_refl _, fun _ _ => rfl, ?_, ?_⟩
      · exact created.dir ▸ created.ifree
      · exact created.dir ▸ created.dfree
      · dsimp only at below
        rw [nfiles] at below
        lia
      · cases here
      · refine divided_free 0 (7 * g.index) (by omega) (freeLayout_ifree g) (fun _ => rfl) fun n => ?_
        unfold Geometry.IsIndex
        lia
      · refine divided_free (g.index + 1) (g.sectors - g.index - 1) (by omega) rfl (fun _ => rfl)
          fun n => ?_
        unfold Geometry.IsData
        lia
    · exact coherent_store fun m => if_neg fun both => Bool.noConfusion both.1
    · exact coherent_store fun m => if_neg fun both => Bool.noConfusion both.1
  · cases member
  · cases here
  · cases here

end Creation

end Xinu.LocalFiles
