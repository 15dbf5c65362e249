import Xinu.LocalFiles
import Xinu.HeapAllocation

/-!
# Blocks of the local file system on the disk

An index block is eighteen words inside of a sector. Reading one after another one was written, or after
a data block or the directory was written, gives what was there before. The words of the directory are
read back one by one.
-/

namespace Xinu.LocalFiles

open CIntegers WordMemory

section Words

variable {memory : Memory} {at_ j : Nat} {iblock : Lfiblk}

/-- A word of an index block that was copied into a sector. -/
theorem load_iblock (below : j < 18) :
    load (copy memory at_ iblock.bytes iblkSize) (at_ + 4 * j) = iblock.word j := by
  have stored : ∀ k < 4, copy memory at_ iblock.bytes iblkSize (at_ + 4 * j + k) =
      byteOf (iblock.word j).toInt32.toUInt32.toNat k := by
    intro k small
    rw [Nat.add_assoc, copy_inside _ _ _ _ _ (by unfold iblkSize; lia)]
    have place : (4 * j + k) / 4 = j := by lia
    have rest : (4 * j + k) % 4 = k := by lia
    show byteOf (iblock.word ((4 * j + k) / 4)).toNat ((4 * j + k) % 4) = _
    rw [place, rest]
    rfl
  unfold load
  rw [word32_of_bytes _ _ _ stored]
  rfl

end Words

section Indices

variable {disk : Disk} {inum other : UInt32} {iblock : Lfiblk}

theorem lfibget_lfibput_self : lfibget (lfibput disk inum iblock) inum = iblock := by
  unfold lfibget lfibput
  dsimp only
  rw [Function.update_self]
  obtain ⟨next, offset, dba⟩ := iblock
  have first := @load_iblock (disk (ib2sect inum)) (ib2disp inum) 0 ⟨next, offset, dba⟩ (by decide)
  have second := @load_iblock (disk (ib2sect inum)) (ib2disp inum) 1 ⟨next, offset, dba⟩ (by decide)
  refine congr (congrArg₂ Lfiblk.mk first second) (funext fun i => ?_)
  have word := @load_iblock (disk (ib2sect inum)) (ib2disp inum) (i + 2) ⟨next, offset, dba⟩ (by omega)
  have place : ib2disp inum + 4 * (i.val + 2) = ib2disp inum + 8 + 4 * i := by lia
  rw [place] at word
  have index : pointerIndex i.val = i := Fin.ext (Nat.mod_eq_of_lt i.isLt)
  exact word.trans (congrArg dba index)

theorem lfibget_congr {later : Disk} (same : ∀ k < iblkSize,
    later (ib2sect inum) (ib2disp inum + k) = disk (ib2sect inum) (ib2disp inum + k)) :
    lfibget later inum = lfibget disk inum := by
  unfold iblkSize at same
  have words : ∀ j < 18, load (later (ib2sect inum)) (ib2disp inum + 4 * j) =
      load (disk (ib2sect inum)) (ib2disp inum + 4 * j) := by
    intro j below
    refine load_congr fun k small => ?_
    rw [Nat.add_assoc]
    exact same _ (by omega)
  unfold lfibget
  dsimp only
  refine congr (congrArg₂ Lfiblk.mk (words 0 (by decide)) (words 1 (by decide))) (funext fun i => ?_)
  have place : ib2disp inum + 8 + 4 * i.val = ib2disp inum + 4 * (i + 2) := by lia
  rw [place]
  exact words _ (by lia)

theorem lfibget_lfibput_of_ne (apart : other ≠ inum) :
    lfibget (lfibput disk inum iblock) other = lfibget disk other := by
  have numbers : other.toNat ≠ inum.toNat := fun same => apart (UInt32.toNat_inj.mp same)
  refine lfibget_congr fun k below => ?_
  unfold lfibput
  by_cases sector : ib2sect other = ib2sect inum
  · rw [sector, Function.update_self]
    refine copy_outside _ _ _ _ _ ?_
    unfold ib2disp ib2sect iblkSize at *
    lia
  · rw [Function.update_of_ne sector]

/-- Index blocks are read back one by one. -/
theorem lfibget_lfibput : lfibget (lfibput disk inum iblock) = Function.update (lfibget disk) inum iblock := by
  funext this
  rcases eq_or_ne this inum with rfl | apart
  · rw [Function.update_self, lfibget_lfibput_self]
  · rw [Function.update_of_ne apart, lfibget_lfibput_of_ne apart]

theorem lfibput_of_ne {sector : Nat} (apart : sector ≠ ib2sect inum) :
    lfibput disk inum iblock sector = disk sector := Function.update_of_ne apart _ _

theorem lfibget_update_of_ne {sector : Nat} {block : Memory} (apart : sector ≠ ib2sect inum) :
    lfibget (Function.update disk sector block) inum = lfibget disk inum :=
  lfibget_congr fun k _ => by rw [Function.update_of_ne apart.symm]

end Indices

section Positions

variable (position : UInt32)

theorem toNat_and_mask (bits : Nat) {mask : UInt32} (isMask : mask.toNat = 2 ^ bits - 1) :
    (position &&& mask).toNat = position.toNat % 2 ^ bits := by
  rw [UInt32.toNat_and, isMask, Nat.and_two_pow_sub_one_eq_mod]

/-- The first position of the index block that covers a position. -/
theorem toNat_and_not_imask : (position &&& ~~~lfImask).toNat = position.toNat / 8192 * 8192 := by
  have mask : (~~~lfImask).toNat = (2 ^ (32 - 13) - 1) <<< 13 := by decide
  rw [UInt32.toNat_and, mask, HeapMemory.mask_low (by decide) position.toNat_lt]
  rfl

theorem toNat_dindex : ((position &&& lfImask) >>> 9).toNat = position.toNat % 8192 / 512 := by
  rw [UInt32.toNat_shiftRight, toNat_and_mask position 13 rfl]
  exact Nat.shiftRight_eq_div_pow _ _

theorem toNat_and_dmask : (position &&& lfDmask).toNat = position.toNat % 512 :=
  toNat_and_mask position 9 rfl

end Positions

end Xinu.LocalFiles
