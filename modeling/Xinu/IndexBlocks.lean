import Xinu.LocalBlocks

/-!
# Index blocks are stored apart

Seven index blocks of 72 bytes share a sector. To write one of them, `lfibput` reads the sector, changes
the bytes of the block in a buffer of 512 bytes and writes the sector back; `lfibget` copies the bytes of
the block out of such a buffer. The loops of both functions are stated again with a check of every offset
into the buffer.
-/

namespace Xinu.LocalFiles

open CIntegers WordMemory

section Offsets

variable {disp turns to_ from_ k : Nat} {target source : Memory} {disk : Disk} {inum : UInt32}

/-- The copying loop of `lfibput` and `lfibget` after some turns. Its offset into the buffer of the sector
starts at `disp`; at an offset outside of the buffer there is no result. -/
def copyTurns (disp : Nat) (target : Memory) (to_ : Nat) (source : Memory) (from_ : Nat) :
    Nat → Option Memory
  | 0 => some target
  | turns + 1 => do
    let copied ← copyTurns disp target to_ source from_ turns
    if disp + turns < lfBlksiz then
      some (Function.update copied (to_ + turns) (source (from_ + turns)))
    else none

/-- One more byte is copied. -/
theorem copy_succ (target source : Memory) (to_ turns : Nat) :
    Function.update (copy target to_ source turns) (to_ + turns) (source turns) =
      copy target to_ source (turns + 1) := by
  funext address
  by_cases here : address = to_ + turns
  · subst here
    simp [copy]
  · simp only [Function.update_of_ne here, copy]
    by_cases before : to_ ≤ address ∧ address < to_ + turns
    · simp only [if_pos before, if_pos (show to_ ≤ address ∧ address < to_ + (turns + 1) by lia)]
    · simp only [if_neg before, if_neg (show ¬ (to_ ≤ address ∧ address < to_ + (turns + 1)) by lia)]

/-- A loop whose offsets are inside of the buffer copies the bytes. -/
theorem copyTurns_eq (fits : disp + turns ≤ lfBlksiz) :
    copyTurns disp target to_ source from_ turns =
      some (copy target to_ (shift source from_) turns) := by
  induction turns with
  | zero =>
    have unchanged : copy target to_ (shift source from_) 0 = target := by
      funext address
      exact copy_outside _ _ _ _ _ (by omega)
    simp only [copyTurns, unchanged]
  | succ turns inductionHypothesis =>
    have inside : disp + turns < lfBlksiz := by omega
    have next := copy_succ target (shift source from_) to_ turns
    simp only [shift_apply] at next
    simp only [copyTurns, inductionHypothesis (by lia), Option.bind_eq_bind, Option.bind_some,
      if_pos inside, next]

/-- `lfibput` with its offsets checked. -/
def lfibputInside (disk : Disk) (inum : UInt32) (ibuff : Lfiblk) : Option Disk := do
  let dbuff ← copyTurns (ib2disp inum) (disk (ib2sect inum)) (ib2disp inum) ibuff.bytes 0 iblkSize
  some (Function.update disk (ib2sect inum) dbuff)

/-- `lfibget` with its offsets checked: the bytes of the caller's block. -/
def lfibgetInside (disk : Disk) (inum : UInt32) (ibuff : Memory) : Option Memory :=
  copyTurns (ib2disp inum) ibuff 0 (disk (ib2sect inum)) (ib2disp inum) iblkSize

/-- Seven blocks fit into a sector. -/
theorem ib2disp_fits (inum : UInt32) : ib2disp inum + iblkSize ≤ lfBlksiz := by
  unfold ib2disp iblkSize lfBlksiz
  omega

theorem lfibputInside_eq (ibuff : Lfiblk) :
    lfibputInside disk inum ibuff = some (lfibput disk inum ibuff) := by
  have bytes : shift ibuff.bytes 0 = ibuff.bytes := by
    funext k
    simp only [shift_apply, Nat.zero_add]
  simp only [lfibputInside, copyTurns_eq (ib2disp_fits inum), bytes, Option.bind_eq_bind,
    Option.bind_some, lfibput]

/-- The bytes of a word are those that were read. -/
theorem byteOf_load {memory : Memory} {address : Nat} (below : k < 4) :
    byteOf (load memory address).toNat k = memory (address + k) := by
  apply UInt8.toNat_inj.mp
  have word : (load memory address).toNat = (memory address).toNat + 256 * (memory (address + 1)).toNat +
      65536 * (memory (address + 2)).toNat + 16777216 * (memory (address + 3)).toNat := by
    have first := (memory address).toNat_lt
    have second := (memory (address + 1)).toNat_lt
    have third := (memory (address + 2)).toNat_lt
    have fourth := (memory (address + 3)).toNat_lt
    simp only [load, word32, UInt32.toUInt32_toInt32]
    exact UInt32.toNat_ofNat_of_lt' (by simp only [UInt32.size]; lia)
  have bounds := fun j => (memory (address + j)).toNat_lt
  have first := bounds 0
  have second := bounds 1
  have third := bounds 2
  have fourth := bounds 3
  simp only [byteOf_toNat, word]
  match k, below with
  | 0, _ | 1, _ | 2, _ | 3, _ => simp only [Nat.add_zero] at *; omega

/-- What `lfibget` reads are the bytes of its block. -/
theorem bytes_lfibget (below : k < iblkSize) :
    (lfibget disk inum).bytes k = disk (ib2sect inum) (ib2disp inum + k) := by
  have word : ∀ j < 18, (lfibget disk inum).word j = load (disk (ib2sect inum)) (ib2disp inum + 4 * j) := by
    intro j small
    match j with
    | 0 => simp [Lfiblk.word, lfibget]
    | 1 => simp [Lfiblk.word, lfibget]
    | j + 2 =>
      have index : j % 16 = j := Nat.mod_eq_of_lt (by omega)
      simp only [Lfiblk.word, lfibget, pointerIndex, index]
      congr 1
      lia
  simp only [Lfiblk.bytes, word (k / 4) (by unfold iblkSize at below; omega),
    byteOf_load (Nat.mod_lt k (by decide))]
  congr 1
  lia

theorem lfibgetInside_eq (ibuff : Memory) :
    lfibgetInside disk inum ibuff = some (copy ibuff 0 (lfibget disk inum).bytes iblkSize) := by
  have copied : copy ibuff 0 (shift (disk (ib2sect inum)) (ib2disp inum)) iblkSize =
      copy ibuff 0 (lfibget disk inum).bytes iblkSize := by
    funext address
    by_cases inside : address < iblkSize
    · simp [copy, inside, bytes_lfibget inside]
    · simp [copy, inside]
  simp only [lfibgetInside, copyTurns_eq (ib2disp_fits inum), copied]

end Offsets

/-- The numbers of the index blocks in an index area of some sectors. They are not negative, and such
an `ibid32` is the same number as an unsigned word. -/
def InIndexArea (sectors : Nat) (inum : Int32) : Prop := 0 ≤ inum.toInt ∧ inum.toInt < 7 * sectors

theorem InIndexArea.toNat {sectors : Nat} {inum : Int32} (inside : InIndexArea sectors inum) :
    (inum.toUInt32.toNat : Int) = inum.toInt := by
  have low := inside.1
  have bits : inum.toInt = inum.toUInt32.toBitVec.toInt := rfl
  have split := BitVec.toInt_eq_toNat_cond inum.toUInt32.toBitVec
  have word : inum.toUInt32.toBitVec.toNat = inum.toUInt32.toNat := rfl
  have bound := inum.toUInt32.toNat_lt
  split at split <;> lia

/-- The block that is written is read back, every other block of the area is what it was, only sectors
of the area change, and the offsets of both loops stay inside of the sector's buffer. -/
theorem index_blocks_are_stored_apart (disk : Disk) (sectors : Nat) (i j : Int32) (b : Lfiblk)
    (inside : InIndexArea sectors i) :
    iblkSize = 4 + 4 + 16 * 4 ∧
    (ib2sect i.toUInt32 : Int) = i.toInt.tdiv 7 + lfAreaIb ∧
    (ib2disp i.toUInt32 : Int) = i.toInt.tmod 7 * iblkSize ∧
    lfibputInside disk i.toUInt32 b = some (lfibput disk i.toUInt32 b) ∧
    (∀ ibuff, lfibgetInside disk j.toUInt32 ibuff =
      some (copy ibuff 0 (lfibget disk j.toUInt32).bytes iblkSize)) ∧
    lfibget (lfibput disk i.toUInt32 b) i.toUInt32 = b ∧
    (j ≠ i → lfibget (lfibput disk i.toUInt32 b) j.toUInt32 = lfibget disk j.toUInt32) ∧
    (∀ sector, sector < lfAreaIb ∨ lfAreaIb + sectors ≤ sector →
      lfibput disk i.toUInt32 b sector = disk sector) := by
  have number := inside.toNat
  have low := inside.1
  have high := inside.2
  have quotient : i.toInt.tdiv 7 = i.toInt / 7 := Int.tdiv_eq_ediv_of_nonneg low
  have rest : i.toInt.tmod 7 = i.toInt % 7 := Int.tmod_eq_emod_of_nonneg low
  refine ⟨rfl, ?_, ?_, lfibputInside_eq b, lfibgetInside_eq, lfibget_lfibput_self, ?_, ?_⟩
  · unfold ib2sect
    lia
  · unfold ib2disp iblkSize
    lia
  · intro apart
    exact lfibget_lfibput_of_ne fun same => apart (by simpa using congrArg UInt32.toInt32 same)
  · intro sector outside
    apply lfibput_of_ne
    unfold ib2sect
    lia

/-- Blocks 6 and 7 are the last one of the first sector and the first one of the second. -/
theorem neighbouring_blocks_are_stored_apart :
    lfibget (lfibput (fun _ _ => 0) 6 (lfibclear 0)) 6 = lfibclear 0 ∧
    lfibget (lfibput (fun _ _ => 0) 6 (lfibclear 0)) 7 = lfibget (fun _ _ => 0) 7 := by
  obtain ⟨_, _, _, _, _, same, other, _⟩ := index_blocks_are_stored_apart (fun _ _ => 0) 2 6 7
    (lfibclear 0) ⟨by decide, by decide⟩
  exact ⟨same, other (by decide)⟩

end Xinu.LocalFiles
