import Xinu.LocalPositions
import Xinu.CursorFile
import Xinu.ByteFiles

/-!
# Calls on an open file

The bytes of a file are those of its data blocks, up to its size. What each call on an open file does with
them: `lflgetc` hands out the byte at the position, `lflputc` replaces it or appends one, `lflseek` moves
the position, and `lflclose` leaves everything as it is.
-/

namespace Xinu.LocalFiles

open CIntegers WordMemory WriteBack

/-- The size of an entry of the directory. -/
def extent (dir : Memory) (e : Nat) : Nat := if e < lfdNfiles dir then (ldSize dir e).toNat else 0

/-- The byte of a file at a place. -/
def byteAt (db : UInt32 → Memory) (l : Layout) (e k : Nat) : UInt8 :=
  db ((l.blocks e)[k / 512]?.getD lfDnull) (k % 512)

/-- The bytes of an entry. -/
def fileBytes (db : UInt32 → Memory) (dir : Memory) (l : Layout) (e : Nat) : List UInt8 :=
  (List.range (extent dir e)).map (byteAt db l e)

/-- Between the calls the blocks of a file cover its size. -/
abbrev Rests (g : Geometry) (s : System) (ib : UInt32 → Lfiblk) (db : UInt32 → Memory) (l : Layout) : Prop :=
  Holds g s ib db l (extent s.lfDir) (extent s.lfDir)

/-- A call on a file moves its position, and leaves the names and the other open files as they are. -/
structure Moved (s after : System) (minor : Nat) (position : Nat) : Prop where
  nfiles : lfdNfiles after.lfDir = lfdNfiles s.lfDir
  name : ∀ f k, k < 16 → after.lfDir (ldName f + k) = s.lfDir (ldName f + k)
  others : ∀ m, m ≠ minor → after.lfltab m = s.lfltab m
  used : (after.lfltab minor).lfused = (s.lfltab minor).lfused
  entry : (after.lfltab minor).lfdirptr = (s.lfltab minor).lfdirptr
  lfname : (after.lfltab minor).lfname = (s.lfltab minor).lfname
  position : (after.lfltab minor).lfpos.toNat = position

section Bytes

variable {g : Geometry} {s after : System} {ib : UInt32 → Lfiblk} {db data : UInt32 → Memory}
  {l later : Layout} {iext dext : Nat → Nat} {minor e position : Nat} {dir : Memory} {ch : UInt8}

theorem extent_of_lt (inFiles : e < lfdNfiles dir) : extent dir e = (ldSize dir e).toNat := if_pos inFiles

theorem extent_lt (dir : Memory) (e : Nat) : extent dir e < 2 ^ 32 := by
  unfold extent
  split
  · exact (ldSize dir e).toNat_lt
  · exact Nat.pow_pos (by decide)

theorem extent_congr (nfiles : lfdNfiles dir = lfdNfiles s.lfDir)
    (size : ∀ f, ldSize dir f = ldSize s.lfDir f) : extent dir = extent s.lfDir := by
  funext f
  unfold extent
  rw [nfiles, size]

theorem getElem?_fileBytes (k : Nat) :
    (fileBytes db dir l e)[k]? = if k < extent dir e then some (byteAt db l e k) else none := by
  unfold fileBytes
  rw [List.getElem?_map]
  split
  case isTrue inside => rw [List.getElem?_range inside]; rfl
  case isFalse outside => rw [List.getElem?_eq_none (by rw [List.length_range]; omega)]; rfl

@[simp] theorem length_fileBytes : (fileBytes db dir l e).length = extent dir e := by
  unfold fileBytes
  rw [List.length_map, List.length_range]

/-- More blocks do not change the bytes that were there. -/
theorem byteAt_grown (grown : Grown db data l later e) {f k : Nat} (inside : k / 512 < (l.blocks f).length) :
    byteAt data later f k = byteAt db l f k := by
  have here := List.getElem?_eq_getElem inside
  have still : (later.blocks f)[k / 512]? = some (l.blocks f)[k / 512] := by
    rcases eq_or_ne f e with rfl | apart
    · obtain ⟨more, isMore⟩ := grown.longer
      rw [← isMore, List.getElem?_append_left inside]
      exact here
    · rw [grown.elsewhere f apart]
      exact here
  unfold byteAt
  rw [still, here, Option.getD_some]
  exact congrFun (grown.same f _ (List.getElem_mem inside)) _

theorem Sound.inside_blocks (sound : Sound g ib db dir l iext dext) {f k : Nat} (inside : k < dext f) :
    k / 512 < (l.blocks f).length := by
  have wide := sound.wide f
  lia

/-- One byte of a sequence is replaced or appended. -/
theorem overwrite_range {bytes : Nat → UInt8} {size : Nat} (within : position ≤ size) :
    (List.range (max size (position + 1))).map (fun k => if k = position then ch else bytes k) =
      overwrite ((List.range size).map bytes) position [ch] := by
  have inside : position ≤ ((List.range size).map bytes).length := by
    rw [List.length_map, List.length_range]
    exact within
  let file : CursorFile UInt8 := ⟨(List.range size).map bytes, position, inside⟩
  show _ = (file.write [ch]).contents
  refine List.ext_getElem? fun k => ?_
  rcases Nat.lt_trichotomy k position with below | isHere | above
  · rw [file.write_below [ch] k below, List.getElem?_map, List.getElem?_map,
      List.getElem?_range (by lia), List.getElem?_range (by lia), Option.map_some, Option.map_some,
      if_neg (by lia)]
  · have byte := file.write_inside [ch] k isHere.ge (Nat.lt_succ_of_le isHere.le)
    have first : k - file.cursor = 0 := Nat.sub_eq_zero_of_le isHere.le
    rw [byte, first, List.getElem?_map, List.getElem?_range (by lia), Option.map_some, if_pos isHere]
    rfl
  · rw [file.write_above [ch] k above, List.getElem?_map, List.getElem?_map]
    rcases Nat.lt_or_ge k size with inSize | outside
    · rw [List.getElem?_range (by lia), List.getElem?_range inSize, Option.map_some, Option.map_some,
        if_neg (by lia)]
    · rw [List.getElem?_eq_none (by rw [List.length_range]; lia),
        List.getElem?_eq_none (by rw [List.length_range]; omega)]
      rfl

end Bytes

section Calls

variable {g : Geometry} {s : System} {ib : UInt32 → Lfiblk} {db : UInt32 → Memory} {l : Layout}
  {minor e : Nat}

/-- The position of an open file changes. -/
theorem Holds.reposition {iext dext : Nat → Nat} (holds : Holds g s ib db l iext dext)
    (used : (s.lfltab minor).lfused = true) {position : UInt32} {byte : Nat}
    (within : position.toNat ≤ (ldSize s.lfDir (s.lfltab minor).lfdirptr).toNat)
    (near : byte < lfBlksiz → byte = position.toNat % 512 ∧
      (l.blocks (s.lfltab minor).lfdirptr)[position.toNat / 512]? = some (s.lfltab minor).lfdnum) :
    Holds g (s.setFile minor { s.lfltab minor with lfbyte := byte, lfpos := position }) ib db l iext dext := by
  have fileOk := (holds.file minor used).2
  unfold System.setFile
  rw [holds.present]
  refine holds.replaceFile used rfl holds.sound rfl (fun _ _ => rfl) (fun _ _ => rfl) (fun _ _ => rfl) ?_ ?_
    ⟨fileOk.entry, fileOk.iown, fileOk.down, fileOk.itidy, fileOk.dtidy, within, near⟩
  · have isSlot : Lflcblk.islot { s.lfltab minor with lfbyte := byte, lfpos := position } =
        (s.lfltab minor).islot := rfl
    rw [isSlot, Function.update_eq_self]
    exact holds.icoh
  · have isSlot : Lflcblk.dslot { s.lfltab minor with lfbyte := byte, lfpos := position } =
        (s.lfltab minor).dslot := rfl
    rw [isSlot, Function.update_eq_self]
    exact holds.dcoh

/-- The block of the position is in memory, or comes there as in `lfsetup`. -/
theorem Holds.ensureBlock {ext : Nat → Nat} (holds : Holds g s ib db l ext ext)
    (used : (s.lfltab minor).lfused = true) (isEntry : (s.lfltab minor).lfdirptr = e)
    (bound : (s.lfltab minor).lfpos.toNat ≤ ext e) (small : ext e < 2 ^ 32) :
    ((l.ifree = [] ∧ ext e % 8192 = 0 ∨ l.dfree = [] ∧ ext e % 512 = 0) ∧
      (s.lfltab minor).lfpos.toNat = ext e ∧ ensureBlock s minor = .error .panic) ∨
    ∃ after index data later, ensureBlock s minor = .ok after ∧
      Holds g (after.touch minor) index data later (covering ext e (s.lfltab minor).lfpos.toNat)
        (covering ext e (s.lfltab minor).lfpos.toNat) ∧
      ((s.lfltab minor).lfpos.toNat < ext e → Holds g after index data later
        (covering ext e (s.lfltab minor).lfpos.toNat) (covering ext e (s.lfltab minor).lfpos.toNat)) ∧
      Kept s after minor ∧ Grown db data l later e ∧ (after.lfltab minor).lfbyte < lfBlksiz ∧
      (DirSafe s → DirSafe after) := by
  unfold LocalFiles.ensureBlock
  by_cases far : lfBlksiz ≤ (s.lfltab minor).lfbyte
  · rw [if_pos far]
    exact holds.lfsetup used isEntry far bound small
  · rw [if_neg far]
    have near : (s.lfltab minor).lfbyte < lfBlksiz := Nat.lt_of_not_le far
    obtain ⟨_, block⟩ := (holds.file minor used).2.byte near
    have loaded := Geometry.data_ne_null (holds.sound.blocks_data (List.mem_of_getElem? block))
    subst isEntry
    have inside : (s.lfltab minor).lfpos.toNat / 512 < (l.blocks (s.lfltab minor).lfdirptr).length :=
      (List.getElem?_eq_some_iff.mp block).1
    have wide := holds.sound.wide (s.lfltab minor).lfdirptr
    have named : Holds g s ib db l (covering ext (s.lfltab minor).lfdirptr (s.lfltab minor).lfpos.toNat)
        (covering ext (s.lfltab minor).lfdirptr (s.lfltab minor).lfpos.toNat) := by
      refine holds.relabel (fun f => ?_) (fun f => ?_) (fun f => le_refl _) <;> unfold covering <;>
        rcases eq_or_ne f (s.lfltab minor).lfdirptr with rfl | apart
      · rw [Function.update_self]
        lia
      · rw [Function.update_of_ne apart]
      · rw [Function.update_self]
        lia
      · rw [Function.update_of_ne apart]
    exact Or.inr ⟨s, ib, db, l, rfl, named.touch used loaded, fun _ => named, Kept.refl s minor,
      Grown.refl db l _, near, id⟩

/-- The bytes and the extents that a step of growth leaves. -/
theorem Kept.extent_eq {after : System} (kept : Kept s after minor) : extent after.lfDir = extent s.lfDir :=
  extent_congr kept.nfiles kept.size

theorem Holds.fileBytes_grown {data : UInt32 → Memory} {later : Layout} {dir : Memory}
    (holds : Rests g s ib db l) (grown : Grown db data l later e) (same : extent dir = extent s.lfDir) (f : Nat) :
    fileBytes data dir later f = fileBytes db s.lfDir l f := by
  unfold fileBytes
  rw [same]
  refine List.map_congr_left fun k member => ?_
  exact byteAt_grown grown (holds.sound.inside_blocks (List.mem_range.mp member))

/-- The next position of a file. -/
theorem toNat_succ {position : UInt32} {bound : Nat} (below : position.toNat < bound) (small : bound < 2 ^ 32) :
    (position + 1).toNat = position.toNat + 1 := by
  rw [UInt32.toNat_add]
  exact Nat.mod_eq_of_lt (show position.toNat + 1 < 2 ^ 32 by lia)

/-- `lflgetc` hands out the byte at the position. -/
theorem Rests.lflgetc (holds : Rests g s ib db l) (used : (s.lfltab minor).lfused = true)
    (inside : (s.lfltab minor).lfpos.toNat < extent s.lfDir (s.lfltab minor).lfdirptr) :
    ∃ after index data later, lflgetc s minor =
        .ok (((byteAt db l (s.lfltab minor).lfdirptr (s.lfltab minor).lfpos.toNat).toNat : Int), after) ∧
      Rests g after index data later ∧
      (∀ f, fileBytes data after.lfDir later f = fileBytes db s.lfDir l f) ∧
      Moved s after minor ((s.lfltab minor).lfpos.toNat + 1) ∧ (DirSafe s → DirSafe after) := by
  have fileOk := (holds.file minor used).2
  have size := extent_of_lt fileOk.entry
  have small := extent_lt s.lfDir (s.lfltab minor).lfdirptr
  have notEnd : ¬ (s.lfltab minor).lfpos ≥ ldSize s.lfDir (s.lfltab minor).lfdirptr := by
    rw [ge_iff_le, UInt32.le_iff_toNat_le, ← size]
    lia
  rcases holds.ensureBlock used rfl inside.le small with
    ⟨_, atEnd, _⟩ | ⟨middle, index, data, later, ensured, _, here, kept, grown, near, safe⟩
  · lia
  have sameExtent : covering (extent s.lfDir) (s.lfltab minor).lfdirptr (s.lfltab minor).lfpos.toNat =
      extent middle.lfDir := by
    unfold covering
    rw [max_eq_left inside, Function.update_eq_self, kept.extent_eq]
  have stays := here inside
  rw [sameExtent] at stays
  have isUsed : (middle.lfltab minor).lfused = true := kept.used.trans used
  obtain ⟨byte, block⟩ := (stays.file minor isUsed).2.byte near
  have blockHere := block
  rw [kept.position, kept.entry] at blockHere
  rw [kept.position] at byte
  have loaded := Geometry.data_ne_null (stays.sound.blocks_data (List.mem_of_getElem? block))
  obtain ⟨_, value, _⟩ := stays.dcoh.cached minor _ (dslot_some isUsed loaded)
  have next : ((middle.lfltab minor).lfpos + 1).toNat = (s.lfltab minor).lfpos.toNat + 1 := by
    rw [kept.position]
    exact toNat_succ inside small
  have handed : (middle.lfltab minor).lfdblock (middle.lfltab minor).lfbyte =
      byteAt db l (s.lfltab minor).lfdirptr (s.lfltab minor).lfpos.toNat := by
    rw [← byteAt_grown grown (holds.sound.inside_blocks inside)]
    unfold byteAt
    rw [blockHere, byte, Option.getD_some]
    exact congrFun value _
  refine ⟨middle.setFile minor { middle.lfltab minor with
      lfbyte := (middle.lfltab minor).lfbyte + 1, lfpos := (middle.lfltab minor).lfpos + 1 },
    index, data, later, ?_, stays.reposition isUsed ?_ fun stillNear => ?_, ?_, ?_, safe⟩
  · unfold LocalFiles.lflgetc
    rw [if_neg (by rw [used]; decide), if_neg notEnd, ensured, ← handed]
    rfl
  · rw [next, kept.size, kept.entry, ← size]
    exact inside
  · rw [next, byte, kept.entry]
    unfold lfBlksiz at stillNear
    have place : ((s.lfltab minor).lfpos.toNat + 1) / 512 = (s.lfltab minor).lfpos.toNat / 512 := by lia
    rw [place]
    exact ⟨by lia, blockHere⟩
  · exact holds.fileBytes_grown grown kept.extent_eq
  · refine ⟨kept.nfiles, kept.name, fun m away => ?_, ?_, ?_, ?_, ?_⟩
    · rw [setFile_of_ne away]
      exact kept.others m away
    · rw [setFile_self]
      exact kept.used
    · rw [setFile_self]
      exact kept.entry
    · rw [setFile_self]
      exact kept.lfname
    · rw [setFile_self]
      exact next

/-- A character is stored into the block that is in memory. -/
def Lflcblk.put (file : Lflcblk) (ch : UInt8) : Lflcblk :=
  { file with
    lfdblock := Function.update file.lfdblock file.lfbyte ch
    lfbyte := file.lfbyte + 1
    lfpos := file.lfpos + 1
    lfdbdirty := true }

theorem Holds.putByte {ext : Nat → Nat} (holds : Holds g s ib db l ext ext)
    (used : (s.lfltab minor).lfused = true) (near : (s.lfltab minor).lfbyte < lfBlksiz)
    {dir : Memory} (same : SameHeads s.lfDir dir)
    (next : ((s.lfltab minor).lfpos + 1).toNat = (s.lfltab minor).lfpos.toNat + 1)
    (others : ∀ f, f ≠ (s.lfltab minor).lfdirptr → ldSize dir f = ldSize s.lfDir f)
    (within : (s.lfltab minor).lfpos.toNat < (ldSize dir (s.lfltab minor).lfdirptr).toNat) (ch : UInt8)
    {dirdirty fresh : Bool} :
    Holds g ⟨s.disk, dir, true, dirdirty, Function.update s.lfltab minor ((s.lfltab minor).put ch), fresh⟩ ib
      (Function.update db (s.lfltab minor).lfdnum ((s.lfltab minor).put ch).lfdblock) l ext ext := by
  have fileOk := (holds.file minor used).2
  obtain ⟨byte, block⟩ := fileOk.byte near
  have member := List.mem_of_getElem? block
  have real := Geometry.data_ne_null (holds.sound.blocks_data member)
  have sound : Sound g ib (Function.update db (s.lfltab minor).lfdnum ((s.lfltab minor).put ch).lfdblock) dir l
      ext ext := holds.sound.congr same fun d isFree => Function.update_of_ne
        (fun isBlock => holds.sound.free_not_block isFree (isBlock ▸ member)) _ _
  refine holds.replaceFile used rfl sound same.nfiles others (fun _ _ => rfl) (fun _ _ => rfl) ?_ ?_ ?_
  · have isSlot : ((s.lfltab minor).put ch).islot = (s.lfltab minor).islot := rfl
    rw [isSlot, Function.update_eq_self]
    exact holds.icoh
  · have isSlot : ((s.lfltab minor).put ch).dslot =
        some ⟨(s.lfltab minor).lfdnum, ((s.lfltab minor).put ch).lfdblock, true⟩ := if_pos ⟨used, real⟩
    rw [isSlot]
    exact holds.dcoh.modify (dslot_some used real) _
  · refine ⟨same.nfiles ▸ fileOk.entry, fileOk.iown, fileOk.down, fileOk.itidy,
      fun none_ => absurd none_ real, ?_, fun stillNear => ?_⟩
    · show ((s.lfltab minor).lfpos + 1).toNat ≤ _
      rw [next]
      exact within
    · have below : (s.lfltab minor).lfbyte + 1 < 512 := stillNear
      show (s.lfltab minor).lfbyte + 1 = ((s.lfltab minor).lfpos + 1).toNat % 512 ∧
        (l.blocks (s.lfltab minor).lfdirptr)[((s.lfltab minor).lfpos + 1).toNat / 512]? =
          some (s.lfltab minor).lfdnum
      have place : ((s.lfltab minor).lfpos.toNat + 1) / 512 = (s.lfltab minor).lfpos.toNat / 512 := by lia
      rw [next, place]
      exact ⟨by lia, block⟩

/-- A byte of the block in memory is replaced. -/
theorem byteAt_put {ext : Nat → Nat} (holds : Holds g s ib db l ext ext)
    (used : (s.lfltab minor).lfused = true) (near : (s.lfltab minor).lfbyte < lfBlksiz) (ch : UInt8) {f k : Nat}
    (inside : k < ext f) :
    byteAt (Function.update db (s.lfltab minor).lfdnum ((s.lfltab minor).put ch).lfdblock) l f k =
      if f = (s.lfltab minor).lfdirptr ∧ k = (s.lfltab minor).lfpos.toNat then ch else byteAt db l f k := by
  have fileOk := (holds.file minor used).2
  obtain ⟨byte, block⟩ := fileOk.byte near
  have real := Geometry.data_ne_null (holds.sound.blocks_data (List.mem_of_getElem? block))
  obtain ⟨_, value, _⟩ := holds.dcoh.cached minor _ (dslot_some used real)
  have below := holds.sound.inside_blocks inside
  have here := List.getElem?_eq_getElem below
  unfold byteAt
  rw [here, Option.getD_some]
  by_cases isBlock : (l.blocks f)[k / 512] = (s.lfltab minor).lfdnum
  · obtain rfl : f = (s.lfltab minor).lfdirptr :=
      holds.sound.blocks_apart (isBlock ▸ List.getElem_mem below) (List.mem_of_getElem? block)
    have samePlace : k / 512 = (s.lfltab minor).lfpos.toNat / 512 :=
      (List.getElem?_inj below (holds.sound.dparts.distinct (some _))).mp
        (by rw [here, isBlock]; exact block.symm)
    rw [isBlock, Function.update_self]
    show Function.update (s.lfltab minor).lfdblock (s.lfltab minor).lfbyte ch (k % 512) = _
    rcases eq_or_ne k (s.lfltab minor).lfpos.toNat with isHere | away
    · rw [if_pos ⟨rfl, isHere⟩, isHere, ← byte, Function.update_self]
    · rw [if_neg fun both => away both.2, Function.update_of_ne (by lia)]
      exact congrFun value _
  · rw [Function.update_of_ne isBlock, if_neg]
    rintro ⟨rfl, rfl⟩
    exact isBlock (Option.some.inj (here.symm.trans block))

/-- The directory after a character was stored at a position. -/
def grownDir (dir : Memory) (e : Nat) (position : UInt32) : Memory :=
  if position ≥ ldSize dir e then store dir (lfdFiles e) (ldSize dir e + 1) else dir

section Directories

variable {dir : Memory} {position : UInt32}

theorem sameHeads_grownDir : SameHeads dir (grownDir dir e position) := by
  unfold grownDir
  split
  · exact ⟨lfdNfiles_store (by unfold lfdFiles; lia) (by unfold lfdFiles; omega),
      lfdDfree_store (by unfold lfdFiles; lia) (by unfold lfdFiles; omega),
      lfdIfree_store (by unfold lfdFiles; lia) (by unfold lfdFiles; omega),
      fun f => ldIlist_store (by unfold lfdFiles; lia) (by unfold lfdFiles; omega)⟩
  · exact ⟨rfl, rfl, rfl, fun _ => rfl⟩

theorem ldSize_grownDir {f : Nat} (apart : f ≠ e) : ldSize (grownDir dir e position) f = ldSize dir f := by
  unfold grownDir
  split
  · exact ldSize_store (by unfold lfdFiles; lia) (by unfold lfdFiles; omega)
  · rfl

theorem name_grownDir (f k : Nat) (below : k < 16) :
    grownDir dir e position (ldName f + k) = dir (ldName f + k) := by
  unfold grownDir
  split
  · exact name_store (Or.inr ⟨e, Or.inl rfl⟩) (by unfold lfdFiles; omega) f k below
  · rfl

/-- The size covers the position. -/
theorem extent_grownDir (inFiles : e < lfdNfiles dir) (within : position.toNat ≤ extent dir e)
    (room : extent dir e + 1 < 2 ^ 32) :
    extent (grownDir dir e position) = covering (extent dir) e position.toNat := by
  have size := extent_of_lt inFiles
  have nfiles : lfdNfiles (grownDir dir e position) = lfdNfiles dir := sameHeads_grownDir.nfiles
  funext f
  unfold covering
  rcases eq_or_ne f e with rfl | apart
  · rw [Function.update_self, extent_of_lt (by rw [nfiles]; exact inFiles)]
    unfold grownDir
    split
    case isTrue atEnd =>
      rw [ge_iff_le, UInt32.le_iff_toNat_le] at atEnd
      have stored : ldSize (store dir (lfdFiles f) (ldSize dir f + 1)) f = ldSize dir f + 1 := load_store_same
      rw [stored, toNat_succ (Nat.lt_succ_self _) (by lia)]
      lia
    case isFalse notEnd =>
      rw [ge_iff_le, UInt32.le_iff_toNat_le] at notEnd
      lia
  · rw [Function.update_of_ne apart]
    unfold extent
    rw [nfiles, ldSize_grownDir apart]

end Directories

/-- `lflputc` replaces the byte at the position or appends one, or it stops because it needs a block and none
is free. -/
theorem Rests.lflputc (holds : Rests g s ib db l) (used : (s.lfltab minor).lfused = true) (ch : UInt8)
    (isEntry : (s.lfltab minor).lfdirptr = e) :
    ((l.ifree = [] ∧ extent s.lfDir e % 8192 = 0 ∨ l.dfree = [] ∧ extent s.lfDir e % 512 = 0) ∧
      (s.lfltab minor).lfpos.toNat = extent s.lfDir e ∧ lflputc s minor ch = .error .panic) ∨
    ∃ after index data later, lflputc s minor ch = .ok (ok, after) ∧ Rests g after index data later ∧
      fileBytes data after.lfDir later e =
        overwrite (fileBytes db s.lfDir l e) (s.lfltab minor).lfpos.toNat [ch] ∧
      (∀ f, f ≠ e → fileBytes data after.lfDir later f = fileBytes db s.lfDir l f) ∧
      Moved s after minor ((s.lfltab minor).lfpos.toNat + 1) ∧ (DirSafe s → DirSafe after) := by
  have fileOk := (holds.file minor used).2
  have size := extent_of_lt fileOk.entry
  have small := extent_lt s.lfDir (s.lfltab minor).lfdirptr
  have bound : (s.lfltab minor).lfpos.toNat ≤ extent s.lfDir (s.lfltab minor).lfdirptr := by
    rw [size]
    exact fileOk.position
  subst isEntry
  have notBeyond : ¬ (s.lfltab minor).lfpos > ldSize s.lfDir (s.lfltab minor).lfdirptr := by
    rw [gt_iff_lt, UInt32.lt_iff_toNat_lt]
    exact Nat.not_lt.mpr fileOk.position
  rcases holds.ensureBlock used rfl bound small with
    ⟨needs, atEnd, fails⟩ | ⟨middle, index, data, later, ensured, touched, _, kept, grown, near, safe⟩
  · refine Or.inl ⟨needs, atEnd, ?_⟩
    unfold LocalFiles.lflputc
    dsimp only
    rw [if_neg (by rw [used]; decide), if_neg notBeyond, fails]
    rfl
  have isFile : (middle.touch minor).lfltab minor = { middle.lfltab minor with lfdbdirty := true } := setFile_self
  have isUsed : ((middle.touch minor).lfltab minor).lfused = true := by
    rw [isFile]
    exact kept.used.trans used
  have isNear : ((middle.touch minor).lfltab minor).lfbyte < lfBlksiz := by
    rw [isFile]
    exact near
  have isPosition : ((middle.touch minor).lfltab minor).lfpos = (s.lfltab minor).lfpos := by
    rw [isFile]
    exact kept.position
  have isEntry : ((middle.touch minor).lfltab minor).lfdirptr = (s.lfltab minor).lfdirptr := by
    rw [isFile]
    exact kept.entry
  -- The blocks bound the size, so that the next position is no larger than a word.
  have room : extent s.lfDir (s.lfltab minor).lfdirptr + 1 < 2 ^ 32 := by
    have wide := holds.sound.wide (s.lfltab minor).lfdirptr
    have blocks := holds.sound.blocks_lt (s.lfltab minor).lfdirptr
    lia
  have extents : extent (grownDir middle.lfDir (s.lfltab minor).lfdirptr (s.lfltab minor).lfpos) =
      covering (extent s.lfDir) (s.lfltab minor).lfdirptr (s.lfltab minor).lfpos.toNat := by
    rw [← kept.extent_eq] at bound room ⊢
    exact extent_grownDir (by rw [kept.nfiles]; exact fileOk.entry) bound room
  have next : ((s.lfltab minor).lfpos + 1).toNat = (s.lfltab minor).lfpos.toNat + 1 :=
    toNat_succ (Nat.lt_succ_of_le bound) (by omega)
  have within : (s.lfltab minor).lfpos.toNat < (ldSize (grownDir middle.lfDir (s.lfltab minor).lfdirptr
      (s.lfltab minor).lfpos) (s.lfltab minor).lfdirptr).toNat := by
    rw [← extent_of_lt (by rw [sameHeads_grownDir.nfiles, kept.nfiles]; exact fileOk.entry), extents]
    unfold covering
    rw [Function.update_self]
    lia
  have put : Holds g ⟨middle.disk, grownDir middle.lfDir (s.lfltab minor).lfdirptr (s.lfltab minor).lfpos, true,
      if (s.lfltab minor).lfpos ≥ ldSize middle.lfDir (s.lfltab minor).lfdirptr then true else middle.lfDirdirty,
      Function.update (middle.touch minor).lfltab minor (((middle.touch minor).lfltab minor).put ch),
      middle.fresh⟩ index
      (Function.update data ((middle.touch minor).lfltab minor).lfdnum
        (((middle.touch minor).lfltab minor).put ch).lfdblock) later _ _ :=
    touched.putByte isUsed isNear sameHeads_grownDir (by rw [isPosition]; exact next)
      (fun f apart => ldSize_grownDir (by rwa [isEntry] at apart)) (by rw [isPosition, isEntry]; exact within) ch
  have isPut : ((middle.touch minor).lfltab minor).put ch = (middle.lfltab minor).put ch := by
    rw [isFile]
    rfl
  have table : Function.update (middle.touch minor).lfltab minor ((middle.lfltab minor).put ch) =
      Function.update middle.lfltab minor ((middle.lfltab minor).put ch) := Function.update_idem _ _ _
  have bytes : ∀ f k, k < covering (extent s.lfDir) (s.lfltab minor).lfdirptr (s.lfltab minor).lfpos.toNat f →
      byteAt (Function.update data ((middle.touch minor).lfltab minor).lfdnum
        (((middle.touch minor).lfltab minor).put ch).lfdblock) later f k =
      if f = (s.lfltab minor).lfdirptr ∧ k = (s.lfltab minor).lfpos.toNat then ch else byteAt data later f k := by
    intro f k inside
    rw [byteAt_put touched isUsed isNear ch inside, isEntry, isPosition]
  have before := holds.fileBytes_grown grown (rfl : extent s.lfDir = extent s.lfDir)
  rw [← extents] at put bytes
  rw [isPut, table] at put
  rw [isPut] at bytes
  refine Or.inr ⟨_, _, _, _, ?_, put, ?_, fun f apart => ?_, ⟨?_, ?_, ?_, ?_, ?_, ?_, ?_⟩, fun isSafe => ?_⟩
  · unfold LocalFiles.lflputc grownDir
    dsimp only
    rw [if_neg (by rw [used]; decide), if_neg notBeyond, ensured, ← kept.position]
    show Except.ok (ok, System.setFile (if (middle.lfltab minor).lfpos ≥ _ then _ else middle) minor
      ((middle.lfltab minor).put ch)) = _
    split
    · unfold System.setFile
      rw [← touched.present]
      rfl
    · unfold System.setFile
      rw [← touched.present]
      rfl
  · rw [← before]
    unfold fileBytes
    rw [List.map_congr_left fun k member => bytes _ k (List.mem_range.mp member), extents,
      ← overwrite_range bound]
    unfold covering
    rw [Function.update_self]
    refine List.map_congr_left fun k _ => ?_
    simp only [true_and]
  · rw [← before f]
    unfold fileBytes
    rw [List.map_congr_left fun k member => bytes _ k (List.mem_range.mp member), extents]
    unfold covering
    rw [Function.update_of_ne apart]
    refine List.map_congr_left fun k _ => ?_
    rw [if_neg fun both => apart both.1]
  · dsimp only
    rw [sameHeads_grownDir.nfiles, kept.nfiles]
  · intro f k below
    dsimp only
    rw [name_grownDir f k below, kept.name f k below]
  · intro m away
    dsimp only
    rw [Function.update_of_ne away, kept.others m away]
  · dsimp only
    rw [Function.update_self]
    exact kept.used
  · dsimp only
    rw [Function.update_self]
    exact kept.entry
  · dsimp only
    rw [Function.update_self]
    exact kept.lfname
  · dsimp only
    rw [Function.update_self, ← next, ← kept.position]
    rfl
  · unfold DirSafe grownDir
    dsimp only
    split
    · exact Or.inl rfl
    · exact safe isSafe

/-- `lflseek` moves to a position of the file, and refuses another one. -/
theorem Rests.lflseek (holds : Rests g s ib db l) (used : (s.lfltab minor).lfused = true) (offset : UInt32) :
    (extent s.lfDir (s.lfltab minor).lfdirptr < offset.toNat ∧ lflseek s minor offset = (syserr, s)) ∨
    ∃ after, offset.toNat ≤ extent s.lfDir (s.lfltab minor).lfdirptr ∧ lflseek s minor offset = (ok, after) ∧
      Rests g after ib db l ∧ after.lfDir = s.lfDir ∧ Moved s after minor offset.toNat ∧
      (DirSafe s → DirSafe after) := by
  have fileOk := (holds.file minor used).2
  have size := extent_of_lt fileOk.entry
  have refused : offset > ldSize s.lfDir (s.lfltab minor).lfdirptr ↔
      extent s.lfDir (s.lfltab minor).lfdirptr < offset.toNat := by
    rw [gt_iff_lt, UInt32.lt_iff_toNat_lt, size]
  unfold LocalFiles.lflseek
  dsimp only
  rw [if_neg (by rw [used]; decide)]
  rcases Nat.lt_or_ge (extent s.lfDir (s.lfltab minor).lfdirptr) offset.toNat with beyond | within
  · exact Or.inl ⟨beyond, if_pos (refused.mpr beyond)⟩
  · rw [if_neg fun beyond => absurd (refused.mp beyond) (Nat.not_lt.mpr within)]
    refine Or.inr ⟨_, within, rfl, ?_, rfl, ⟨rfl, fun _ _ _ => rfl, fun m away => setFile_of_ne away, ?_, ?_, ?_, ?_⟩,
      id⟩
    · exact holds.reposition used (by rw [← size]; exact within) fun near => absurd near (Nat.lt_irrefl _)
    all_goals rw [setFile_self]

/-- The control block of a file that has no changed blocks is given up. -/
theorem Holds.release {iext dext : Nat → Nat} (holds : Holds g s ib db l iext dext)
    (used : (s.lfltab minor).lfused = true) (iclean : (s.lfltab minor).lfibdirty = false)
    (dclean : (s.lfltab minor).lfdbdirty = false) :
    Holds g (s.setFile minor { s.lfltab minor with lfused := false }) ib db l iext dext := by
  have fileOk := (holds.file minor used).2
  unfold System.setFile
  rw [holds.present]
  refine holds.replaceFile used rfl holds.sound rfl (fun _ _ => rfl) (fun _ _ => rfl) (fun _ _ => rfl) ?_ ?_
    ⟨fileOk.entry, fileOk.iown, fileOk.down, fileOk.itidy, fileOk.dtidy, fileOk.position, fileOk.byte⟩
  · have isSlot : Lflcblk.islot { s.lfltab minor with lfused := false } = none :=
      if_neg fun both => Bool.noConfusion both.1
    rw [isSlot]
    exact holds.icoh.evict (islot_clean iclean)
  · have isSlot : Lflcblk.dslot { s.lfltab minor with lfused := false } = none :=
      if_neg fun both => Bool.noConfusion both.1
    rw [isSlot]
    exact holds.dcoh.evict (dslot_clean dclean)

/-- Where no flag is set, the directory on the disk is that in memory. -/
theorem DirSafe.written (safe : DirSafe s) (clean : s.lfDirdirty = false) (old : s.fresh = false) :
    s.disk lfAreaDir = s.lfDir := by
  rcases safe with dirty | fresh | same
  · rw [clean] at dirty
    cases dirty
  · rw [old] at fresh
    cases fresh
  · exact same

/-- `lflclose` gives up the control block, and it writes the directory if that is marked as changed. -/
theorem Rests.lflclose (holds : Rests g s ib db l) (used : (s.lfltab minor).lfused = true) :
    ∃ after, lflclose s minor = (ok, after) ∧ Rests g after ib db l ∧ after.lfDir = s.lfDir ∧
      (∀ m, m ≠ minor → after.lfltab m = s.lfltab m) ∧ (after.lfltab minor).lfused = false ∧
      (DirSafe s → DirSafe after) ∧
      (DirSafe s → s.lfDirdirty = true ∨ s.fresh = false → after.disk lfAreaDir = after.lfDir) := by
  unfold LocalFiles.lflclose
  dsimp only
  rw [if_neg (by rw [used]; decide)]
  by_cases changed : s.lfDirdirty = true ∨ (s.lfltab minor).lfdbdirty = true ∨ (s.lfltab minor).lfibdirty = true
  · have disk := holds.flush_dir used
    have flushed := holds.flush used
    have isFlushed := lfflush_eq used
    have isFile : (lfflush s minor).lfltab minor = (s.lfltab minor).flushed := by
      rw [isFlushed]
      exact Function.update_self _ _ _
    have isDir : (lfflush s minor).lfDir = s.lfDir := by rw [isFlushed]
    have released := flushed.release (by rw [isFile]; exact used) (by rw [isFile]; rfl) (by rw [isFile]; rfl)
    rw [if_pos changed]
    refine ⟨_, rfl, ?_, isDir, fun m away => ?_, ?_, fun safe => ?_, fun safe written => ?_⟩
    · show Holds g _ ib db l (extent (lfflush s minor).lfDir) (extent (lfflush s minor).lfDir)
      rw [isDir]
      exact released
    · rw [setFile_of_ne away, isFlushed]
      exact Function.update_of_ne away _ _
    · rw [setFile_self]
    · show _ ∨ (lfflush s minor).fresh = true ∨ (lfflush s minor).disk lfAreaDir = (lfflush s minor).lfDir
      rw [disk, isDir, isFlushed]
      cases isDirty : s.lfDirdirty with
      | true => exact Or.inr (Or.inr rfl)
      | false =>
        unfold DirSafe at safe
        rw [isDirty] at safe
        exact safe
    · show (lfflush s minor).disk lfAreaDir = (lfflush s minor).lfDir
      rw [disk, isDir]
      cases isDirty : s.lfDirdirty with
      | true => rfl
      | false =>
        exact safe.written isDirty (written.resolve_left (by rw [isDirty]; decide))
  · obtain ⟨notDirty, dclean, iclean⟩ : s.lfDirdirty = false ∧ (s.lfltab minor).lfdbdirty = false ∧
        (s.lfltab minor).lfibdirty = false := by simpa using changed
    rw [if_neg changed]
    refine ⟨_, rfl, holds.release used iclean dclean, rfl, fun m away => setFile_of_ne away, ?_, id,
      fun safe written => ?_⟩
    · rw [setFile_self]
    · exact safe.written notDirty (written.resolve_left (by rw [notDirty]; decide))

end Calls

end Xinu.LocalFiles
