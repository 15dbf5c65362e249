import Xinu.CursorFile
import Xinu.FileContents
import Xinu.TransferBounds

/-!
# Files as sequences of bytes

The contents of an open file are the bytes its block list shows below its size,
and its cursor is the file pointer. Along every run on one descriptor whose
transfers are aligned, the calls follow the sequence with a cursor: a write
replaces the bytes at the cursor, a read hands out the bytes at the cursor, and
a seek moves the cursor inside the file.

The condition on a transfer is that it begins at a block boundary, and that it
fits one block or does not end at a boundary. A write shorter than a block must
also reach the end of the file.
-/

namespace Xinu.FileSystem

open CIntegers BlockStore Runs

/-- The bytes a buffer holds at its beginning. -/
def bufferBytes (buf : Memory) (count : Nat) : List UInt8 := (List.range count).map buf

@[simp] theorem bufferBytes_length (buf : Memory) (count : Nat) :
    (bufferBytes buf count).length = count := by
  simp [bufferBytes]

theorem bufferBytes_getElem (buf : Memory) (count k : Nat) (inside : k < count) :
    (bufferBytes buf count)[k]? = some (buf k) := by
  simp [bufferBytes, inside]

/-- What the calls on a descriptor do to the sequence behind it. A write fails
where it reaches the largest size or finds no free block, a seek outside the
file. -/
def FileSpec (file : CursorFile UInt8) : Call → Reply → CursorFile UInt8 → Prop
  | .write _ _ buf nbytes, reply, next =>
    (reply.value = .ok nbytes.toInt ∧ next = file.write (bufferBytes buf nbytes.toInt.toNat)) ∨
      ((∃ failure, reply.value = .error failure ∧
        (failure = .noBlockEmpty ∨ 12 * 512 ≤ file.cursor + nbytes.toInt)) ∧ next = file)
  | .read _ _ _ nbytes, reply, next =>
    reply.value = .ok (min nbytes.toInt (file.contents.length - file.cursor)) ∧
      (∃ after, reply.buf = some after ∧
        bufferBytes after (file.peek nbytes.toInt.toNat).length = file.peek nbytes.toInt.toNat) ∧
      next = file.skip nbytes.toInt.toNat
  | .seek _ _ offset, reply, next =>
    (reply.value = .ok OK ∧ next.contents = file.contents ∧
      (next.cursor : Int) = file.cursor + offset.toInt) ∨
      ((∃ failure, reply.value = .error failure) ∧
        (file.cursor + offset.toInt < 0 ∨ file.contents.length < file.cursor + offset.toInt) ∧
        next = file)
  | _, _, _ => False

/-- The open file behind a descriptor is the given sequence with its cursor. -/
structure Shows (s : State) (d : Fin 16) (file : CursorFile UInt8) : Prop where
  sound : FilesSound s
  blocksz : s.fsd.blocksz.toInt = 512
  opened : (s.oft d).state = .opened
  cursor : (s.oft d).fileptr.toInt = file.cursor
  size : (s.oft d).inode.size.toInt = file.contents.length
  bytes : ∀ k, k < file.contents.length → shownByte s (s.oft d).inode k = file.contents[k]?

/-- The transfers on a descriptor that its loops move exactly. -/
def AlignedStep (d : Fin 16) (s : State) : Call → Prop
  | .write _ fd _ nbytes => fd.toInt = d.val ∧ 0 < nbytes.toInt ∧
    (s.oft d).fileptr.toInt + nbytes.toInt < 2 ^ 31 ∧ (s.oft d).fileptr.toInt % 512 = 0 ∧
    (nbytes.toInt ≤ 512 ∨ ((s.oft d).fileptr.toInt + nbytes.toInt) % 512 ≠ 0) ∧
    (512 ≤ nbytes.toInt ∨
      (s.oft d).inode.size.toInt ≤ (s.oft d).fileptr.toInt + nbytes.toInt)
  | .read _ fd _ nbytes => fd.toInt = d.val ∧ 0 < nbytes.toInt ∧
    (s.oft d).fileptr.toInt + nbytes.toInt < 2 ^ 31 ∧
    ((s.oft d).fileptr.toInt = (s.oft d).inode.size.toInt ∨
      ((s.oft d).fileptr.toInt % 512 = 0 ∧
        (nbytes.toInt ≤ 512 ∨ (s.oft d).inode.size.toInt ≤ (s.oft d).fileptr.toInt + 512 ∨
          min ((s.oft d).fileptr.toInt + nbytes.toInt) (s.oft d).inode.size.toInt % 512 ≠ 0)))
  | .seek _ fd _ => fd.toInt = d.val
  | _ => False

instance (d : Fin 16) (s : State) : DecidablePred (AlignedStep d s)
  | .write .. => inferInstanceAs (Decidable (_ ∧ _ ∧ _ ∧ _ ∧ (_ ∨ _) ∧ (_ ∨ _)))
  | .read .. => inferInstanceAs (Decidable (_ ∧ _ ∧ _ ∧ (_ ∨ _ ∧ (_ ∨ _ ∨ _))))
  | .seek .. => inferInstanceAs (Decidable (_ = _))
  | .mkdev .. | .mkfs .. | .create .. | .open .. | .close .. => isFalse id

/-- The unchecked request for the copy of an inode is granted. -/
def Call.Granted : Call → Prop
  | .write answers _ _ _ => (answers 0).isSome
  | .read answers _ _ _ => (answers 0).isSome
  | .seek answers _ _ => (answers 0).isSome
  | _ => True

section Blocks

variable {s : State} (sound : FilesSound s) (d : Fin 16)

include sound in
/-- The block list of an entry covers its size. -/
theorem FilesSound.block_at (k : Int) (low : 0 ≤ k)
    (used : k < blocksFor (s.oft d).inode.size.toInt s.fsd.blocksz.toInt) :
    ∃ block, (s.oft d).inode.block k = some block ∧ 0 ≤ block.toInt := by
  have twelve := blocksFor_le _ _ sound.geometry.positive (sound.entries d).size
  refine ⟨_, dif_pos ⟨low, by omega⟩, ?_⟩
  have region := (sound.entries d).region ⟨k.toNat, by omega⟩ (by unfold Uses; simp only; lia)
  exact le_trans sound.geometry.regionFits.1 region.1

include sound in
/-- Two indices below the size name different blocks. -/
theorem FilesSound.block_distinct (j k : Int) (low : 0 ≤ j) (order : j < k)
    (used : k < blocksFor (s.oft d).inode.size.toInt s.fsd.blocksz.toInt) :
    (s.oft d).inode.block j ≠ (s.oft d).inode.block k := by
  have twelve := blocksFor_le _ _ sound.geometry.positive (sound.entries d).size
  unfold Inode.block
  rw [dif_pos ⟨low, by omega⟩, dif_pos ⟨by omega, by omega⟩]
  intro equal
  have same := (sound.distinct d d ⟨j.toNat, by lia⟩ ⟨k.toNat, by lia⟩
    (by unfold Uses; simp only; lia) (by unfold Uses; simp only; lia)
    (Option.some.inj equal)).2
  rw [Fin.mk.injEq] at same
  omega

end Blocks

/-- Marking blocks changes no byte that is shown. -/
theorem shownByte_allocated (s : State) (marked : Fsystem) (grows : MaskGrows s.fsd marked)
    (inode : Inode) (k : Int) : shownByte (s.allocated marked) inode k = shownByte s inode k := by
  unfold shownByte State.allocated
  dsimp only
  rw [grows.blocksz]

section Write

variable {s middle : State} {d : Fin 16} {file : CursorFile UInt8} (shows : Shows s d file)
  {marked : Fsystem} {grown : Inode} {newSize : Int} {buf : Memory}
  (isLonger : (s.oft d).fileptr.toInt < newSize) (short : newSize < 12 * 512)
  (grows : MaskGrows s.fsd marked)
  (allocated : Allocated s.fsd marked (blocksFor (s.oft d).inode.size.toInt 512)
    (blocksFor newSize 512 - blocksFor (s.oft d).inode.size.toInt 512).toNat (s.oft d).inode grown)
  (writeDone : writeBlocks grown (s.oft d).fileptr.toInt newSize
    (blocksFor (s.oft d).fileptr.toInt 512 - 1) (blocksFor newSize 512 - 1) buf
    (blocksFor newSize 512 - blocksFor (s.oft d).fileptr.toInt 512).toNat
    (blocksFor (s.oft d).fileptr.toInt 512) 0 (s.allocated marked) = some middle)

include shows allocated in
/-- The allocation keeps the bytes shown below the old size. -/
theorem Shows.shown_grown (k : Nat) (inside : k < file.contents.length) :
    shownByte s grown k = file.contents[k]? := by
  have used : (k : Int) / 512 < blocksFor (s.oft d).inode.size.toInt 512 := by
    rw [lt_blocksFor_iff _ _ _ (by decide), shows.size]
    lia
  have twelve := blocksFor_le _ _ shows.sound.geometry.positive (shows.sound.entries d).size
  rw [shows.blocksz] at twelve
  have kept := allocated.kept (blockIndex ((k : Int) / 512) ⟨by lia, by omega⟩)
    (Or.inl (by simp only [blockIndex]; lia))
  have sameBlock : grown.block ((k : Int) / 512) = (s.oft d).inode.block ((k : Int) / 512) := by
    unfold Inode.block
    rw [dif_pos ⟨by omega, by omega⟩, dif_pos ⟨by omega, by omega⟩, kept]
  rw [← shows.bytes k inside]
  unfold shownByte
  rw [shows.blocksz, sameBlock]

include shows isLonger short grows allocated in
/-- The block list after the allocation covers the new size and names no block
twice. -/
theorem Shows.grown_blocks :
    (∀ k, 0 ≤ k → k < blocksFor (max (s.oft d).inode.size.toInt newSize) 512 →
      ∃ block, grown.block k = some block ∧ 0 ≤ block.toInt) ∧
    ∀ j k, 0 ≤ j → j < k → k < blocksFor (max (s.oft d).inode.size.toInt newSize) 512 →
      grown.block j ≠ grown.block k := by
  obtain ⟨low, _, _, _⟩ := shows.sound.bounds (d := d)
  have nonneg : 0 ≤ newSize := by omega
  have small : newSize < 2 ^ 31 := by omega
  have sound := shows.sound.written nonneg small (by rw [shows.blocksz]; exact short)
    shows.opened grows (by rw [shows.blocksz]; exact allocated)
  generalize written : (s.allocated marked).setOft d (writtenEntry (s.oft d) grown newSize) = after
    at sound
  have entry : after.oft d = writtenEntry (s.oft d) grown newSize := by
    rw [← written]
    exact Function.update_self ..
  have blocksz : after.fsd.blocksz.toInt = 512 := by
    rw [← written, ← shows.blocksz]
    exact congrArg Int32.toInt grows.blocksz
  have blocks : (after.oft d).inode.block = grown.block := by rw [entry]; rfl
  have size : (after.oft d).inode.size.toInt = max (s.oft d).inode.size.toInt newSize := by
    rw [entry, writtenEntry_size _ nonneg small allocated.size]
  refine ⟨?_, ?_⟩
  · intro k kLow used
    have found := sound.block_at d k kLow (by rw [size, blocksz]; exact used)
    rwa [blocks] at found
  · intro j k jLow order used
    have distinct := sound.block_distinct d j k jLow order (by rw [size, blocksz]; exact used)
    rwa [blocks] at distinct

include shows isLonger short grows allocated writeDone in
/-- Outside the visited blocks nothing that is shown changes. -/
theorem Shows.shown_outside (k : Nat) (inside : k < file.contents.length)
    (outside : (k : Int) / 512 < blocksFor (s.oft d).fileptr.toInt 512 ∨
      blocksFor newSize 512 ≤ (k : Int) / 512) :
    shownByte middle grown k = file.contents[k]? := by
  obtain ⟨low, high, _, _⟩ := shows.sound.bounds (d := d)
  obtain ⟨listed, distinct⟩ := shows.grown_blocks isLonger short grows allocated
  have used : (k : Int) / 512 < blocksFor (max (s.oft d).inode.size.toInt newSize) 512 := by
    rw [lt_blocksFor_iff _ _ _ (by decide), shows.size]
    lia
  have upTo := blocksFor_mono newSize _ 512 (by decide)
    (le_max_right (s.oft d).inode.size.toInt newSize)
  have from_ := blocksFor_nonneg (s.oft d).fileptr.toInt 512 (by decide) low
  have geometry := (shows.sound.allocated marked grows).geometry
  have blocksz : (s.allocated marked).fsd.blocksz.toInt = 512 := by
    rw [← shows.blocksz]
    exact congrArg Int32.toInt grows.blocksz
  have visits := shows.sound.written_visits _ low high (by rw [shows.blocksz]; exact short) grows
    (by rw [shows.blocksz]; exact allocated)
  rw [shows.blocksz] at visits
  have loop := writeBlocks_loop geometry visits low (by omega) (le_refl 0) writeDone
  have sameFsd : middle.fsd = marked := by
    rw [writeBlocks_frame _ _ _ _ _ _ _ _ _ _ _ writeDone]
    rfl
  obtain ⟨block, found, nonneg⟩ := listed ((k : Int) / 512) (by lia) used
  rw [loop.shown geometry (by rw [sameFsd]; rfl) grown k block nonneg (by rw [blocksz]; exact found),
    shownByte_allocated s marked grows, shows.shown_grown allocated k inside]
  intro j jLow jHigh same
  rw [← found] at same
  rcases outside with below | above
  · exact distinct _ j (by lia) (by lia) (by lia) same.symm
  · exact distinct j _ (by lia) (by lia) used same

include shows isLonger short grows allocated writeDone in
/-- Inside the visited blocks the loop's part of the buffer is shown, and behind it
what was shown before. -/
theorem Shows.shown_inside (range : AlignedRange (s.oft d).fileptr.toInt newSize) (k : Nat)
    (above : (s.oft d).fileptr.toInt ≤ k) (below : (k : Int) / 512 < blocksFor newSize 512) :
    shownByte middle grown k =
      if (k : Int) < transferEnd (s.oft d).fileptr.toInt newSize then
        some (buf ((k : Int) - (s.oft d).fileptr.toInt).toNat)
      else shownByte s grown k := by
  obtain ⟨low, high, _, _⟩ := shows.sound.bounds (d := d)
  obtain ⟨_, distinct⟩ := shows.grown_blocks isLonger short grows allocated
  have upTo := blocksFor_mono newSize _ 512 (by decide)
    (le_max_right (s.oft d).inode.size.toInt newSize)
  have ordered := blocksFor_mono (s.oft d).fileptr.toInt newSize 512 (by decide) (by omega)
  have from_ := blocksFor_nonneg (s.oft d).fileptr.toInt 512 (by decide) low
  have start : 512 * blocksFor (s.oft d).fileptr.toInt 512 = (s.oft d).fileptr.toInt := by
    have aligned := range.aligned
    unfold blocksFor
    lia
  have zero : 512 * blocksFor (s.oft d).fileptr.toInt 512 - (s.oft d).fileptr.toInt = 0 := by lia
  have geometry := (shows.sound.allocated marked grows).geometry
  have blocksz : (s.allocated marked).fsd.blocksz.toInt = 512 := by
    rw [← shows.blocksz]
    exact congrArg Int32.toInt grows.blocksz
  have visits := shows.sound.written_visits _ low high (by rw [shows.blocksz]; exact short) grows
    (by rw [shows.blocksz]; exact allocated)
  rw [shows.blocksz] at visits
  rw [writeBlocks_content range grown buf _ _ (s.allocated marked) middle geometry blocksz visits
    (fun i j iLow order jHigh => distinct i j (by lia) order (by lia)) (le_refl _) (by lia)
    (by rw [zero]; exact writeDone) k (by lia) (by lia), shownByte_allocated s marked grows]

include shows isLonger short grows allocated writeDone in
/-- After a write of an aligned range that is at least a block long or reaches the
end of the file, the block list shows the sequence written to. -/
theorem Shows.written_bytes (range : AlignedRange (s.oft d).fileptr.toInt newSize)
    (reaches : (s.oft d).fileptr.toInt + 512 ≤ newSize ∨ (s.oft d).inode.size.toInt ≤ newSize)
    (k : Nat) (within : (k : Int) < max (s.oft d).inode.size.toInt newSize) :
    shownByte middle grown k = (file.write (bufferBytes buf
      (newSize - (s.oft d).fileptr.toInt).toNat)).contents[k]? := by
  have cursor := shows.cursor
  have size := shows.size
  have inside := file.inside
  rcases lt_or_ge k file.cursor with below | above
  · rw [shows.shown_outside isLonger short grows allocated writeDone k (by lia),
      CursorFile.write_below _ _ _ below]
    left
    rw [lt_blocksFor_iff _ _ _ (by decide)]
    lia
  · rcases lt_or_ge (k : Int) newSize with written | behind
    · rw [shows.shown_inside isLonger short grows allocated writeDone range k (by lia),
        if_pos (by unfold transferEnd; omega), CursorFile.write_inside _ _ _ above
          (by rw [bufferBytes_length]; lia), bufferBytes_getElem _ _ _ (by lia)]
      · congr 2
        lia
      · rw [lt_blocksFor_iff _ _ _ (by decide)]
        lia
    · rw [CursorFile.write_above _ _ _ (by rw [bufferBytes_length]; lia)]
      rcases lt_or_ge ((k : Int) / 512) (blocksFor newSize 512) with visited | beyond
      · rw [shows.shown_inside isLonger short grows allocated writeDone range k (by omega) visited,
          if_neg (by unfold transferEnd; lia), shows.shown_grown allocated k (by lia)]
      · rw [shows.shown_outside isLonger short grows allocated writeDone k (by omega)
          (Or.inr beyond)]

end Write

/-- A sum with a size that overflows an `int` becomes negative. -/
theorem wrap_sum (size offset : Int) (low : 0 ≤ size) (high : size < 2 ^ 31)
    (offsetLow : -2 ^ 31 ≤ offset) (offsetHigh : offset < 2 ^ 31) :
    wrap (size + offset) = size + offset ∨
      wrap (size + offset) < 0 ∧ 2 ^ 31 ≤ size + offset := by
  obtain ⟨turns, difference⟩ := wrap_dvd (size + offset)
  have range := wrap_range (size + offset)
  omega

/-- A descriptor names one entry. -/
theorem descriptor_unique {fd : Int32} {d e : Fin 16} (left : fd.toInt = d.val)
    (right : fd.toInt = e.val) : e = d := Fin.ext (by lia)

section Steps

variable {s next : State} {d : Fin 16} {file : CursorFile UInt8} (shows : Shows s d file)
  {answers : Answers} {fd : Int32} {reply : Reply}

include shows in
/-- An aligned write follows the sequence. -/
theorem Shows.write {buf : Memory} {nbytes : Int32}
    (aligned : AlignedStep d s (.write answers fd buf nbytes))
    (done : exec s (.write answers fd buf nbytes) = some (reply, next)) :
    ∃ after, FileSpec file (.write answers fd buf nbytes) reply after ∧ Shows next d after := by
  obtain ⟨here, positive, noOverflow, boundary, ending, reaches⟩ := aligned
  obtain ⟨low, high, _, small⟩ := shows.sound.bounds (d := d)
  have cursor := shows.cursor
  have fits : CountFits s fd nbytes := fun e same _ => descriptor_unique here same ▸ noOverflow
  have sound := shows.sound.write _ _ _ _ _ fits (exec_write done)
  rcases shows.sound.write_cases _ _ _ _ _ fits (exec_write done) with
    ⟨rfl, ⟨failure, refused, checks⟩ | ⟨_, impossible⟩⟩ | ⟨e, found, marked, newSize, same, isOpen,
      _, exact, short, grows, outcome⟩
  · refine ⟨file, Or.inr ⟨⟨failure, refused, Or.inr ?_⟩, rfl⟩, shows⟩
    rcases checks with beyond | ⟨e, same, shut | full⟩
    · unfold numFd at beyond
      omega
    · exact absurd (descriptor_unique here same ▸ shows.opened) shut
    · rw [descriptor_unique here same, wrap_blocks _ (shows.sound.opened d shows.opened),
        shows.blocksz, writeEnd, wrap_of_range _ (by lia) noOverflow] at full
      lia
  · omega
  · obtain rfl := descriptor_unique here same
    rw [shows.blocksz] at short outcome
    rcases outcome with ⟨_, failed, rfl⟩ | ⟨grown, middle, _, success, allocated, writeDone, rfl⟩
    · refine ⟨file, Or.inr ⟨⟨_, failed, Or.inl rfl⟩, rfl⟩, sound, ?_, shows.opened, shows.cursor,
        shows.size, ?_⟩
      · rw [← shows.blocksz]
        exact congrArg Int32.toInt grows.blocksz
      · intro k inside
        rw [shownByte_allocated s marked grows]
        exact shows.bytes k inside
    · have range : AlignedRange (s.oft e).fileptr.toInt newSize :=
        ⟨low, boundary, by omega, by lia⟩
      have frame := writeBlocks_frame _ _ _ _ _ _ _ _ _ _ _ writeDone
      have sameFsd : middle.fsd = marked := by rw [frame]; rfl
      have bytes := shows.written_bytes (by omega) short grows allocated writeDone range (by omega)
      have count : (newSize - (s.oft e).fileptr.toInt).toNat = nbytes.toInt.toNat := by lia
      rw [count] at bytes
      generalize written : middle.setOft e (writtenEntry (s.oft e) grown newSize) = after at *
      have entry : after.oft e = writtenEntry (s.oft e) grown newSize := by
        rw [← written]
        exact Function.update_self ..
      have size : (after.oft e).inode.size.toInt = max (s.oft e).inode.size.toInt newSize := by
        rw [entry, writtenEntry_size _ (by lia) (by omega) allocated.size]
      have length := file.write_length (bufferBytes buf nbytes.toInt.toNat)
      rw [bufferBytes_length] at length
      have oldSize := shows.size
      refine ⟨file.write (bufferBytes buf nbytes.toInt.toNat), Or.inl ⟨success, rfl⟩, sound, ?_, ?_,
        ?_, ?_, ?_⟩
      · rw [← written, ← shows.blocksz, ← congrArg Int32.toInt grows.blocksz, ← sameFsd]
        rfl
      · rw [entry]
        exact isOpen
      · rw [entry, writtenEntry_pointer _ _ (by lia) (by omega)]
        change newSize = ((file.cursor + (bufferBytes buf nbytes.toInt.toNat).length : Nat) : Int)
        rw [bufferBytes_length]
        lia
      · rw [size, length]
        lia
      · intro k inside
        rw [← bytes k (by lia), entry, ← written]
        rfl

include shows in
/-- The buffer after the loop of an aligned read begins with the bytes at the
cursor. -/
theorem Shows.read_bytes {buf after : Memory} {middle : State} {newSize : Int} (count : Nat)
    (exact : newSize = min ((s.oft d).fileptr.toInt + count) (s.oft d).inode.size.toInt)
    (aligned : (s.oft d).fileptr.toInt < newSize → AlignedRange (s.oft d).fileptr.toInt newSize)
    (readDone : readBlocks (s.oft d).inode (s.oft d).fileptr.toInt newSize
      (blocksFor (s.oft d).fileptr.toInt 512 - 1) (blocksFor newSize 512 - 1)
      (blocksFor newSize 512 - blocksFor (s.oft d).fileptr.toInt 512).toNat
      (blocksFor (s.oft d).fileptr.toInt 512) 0 buf s = some (after, middle)) :
    bufferBytes after (file.peek count).length = file.peek count := by
  obtain ⟨low, high, _, small⟩ := shows.sound.bounds (d := d)
  have cursor := shows.cursor
  have size := shows.size
  have length := file.peek_length count
  apply List.ext_getElem?
  intro k
  rcases lt_or_ge k (file.peek count).length with inside | outside
  · have range := aligned (by lia)
    have start : 512 * blocksFor (s.oft d).fileptr.toInt 512 = (s.oft d).fileptr.toInt := by
      have boundary := range.aligned
      unfold blocksFor
      lia
    have ordered := blocksFor_mono (s.oft d).fileptr.toInt newSize 512 (by decide) (by lia)
    have visits := shows.sound.visits (d := d) _ newSize low (by lia)
    rw [shows.blocksz] at visits
    obtain ⟨_, moved⟩ := readBlocks_content range (s.oft d).inode _ _ 0 buf after s middle
      shows.sound.geometry shows.blocksz visits (le_refl _) (by lia) (Or.inr (by lia)) readDone
    have covered := (lt_blocksFor_iff ((file.cursor + k : Nat) / 512) newSize 512 (by decide)).mpr
      (by lia)
    have here := moved ((file.cursor + k : Nat) : Int) (by lia) (by unfold transferEnd; lia)
      (by lia)
    have offset : (((file.cursor + k : Nat) : Int) - (s.oft d).fileptr.toInt).toNat = k := by lia
    rw [bufferBytes_getElem _ _ _ inside, file.peek_getElem count k (by lia),
      ← shows.bytes (file.cursor + k) (by lia), here, offset]
  · rw [List.getElem?_eq_none (by rw [bufferBytes_length]; exact outside),
      List.getElem?_eq_none outside]

include shows in
/-- An aligned read follows the sequence. -/
theorem Shows.read {buf : Memory} {nbytes : Int32}
    (aligned : AlignedStep d s (.read answers fd buf nbytes))
    (done : exec s (.read answers fd buf nbytes) = some (reply, next)) :
    ∃ after, FileSpec file (.read answers fd buf nbytes) reply after ∧ Shows next d after := by
  obtain ⟨here, positive, noOverflow, alignment⟩ := aligned
  obtain ⟨low, high, _, small⟩ := shows.sound.bounds (d := d)
  have cursor := shows.cursor
  have size := shows.size
  have fits : CountFits s fd nbytes := fun e same _ => descriptor_unique here same ▸ noOverflow
  obtain ⟨stored, readDone, buffer⟩ := exec_read done
  have sound := shows.sound.read _ _ _ _ _ _ fits readDone
  rcases shows.sound.read_cases _ _ _ _ _ _ fits readDone with
    ⟨_, _, ⟨_, _, outside | ⟨e, same, shut⟩⟩ | empty⟩ | ⟨e, middle, newSize, same, isOpen, _, exact,
      value, loopDone, frame, rfl⟩
  · unfold numFd at outside
    omega
  · exact absurd (descriptor_unique here same ▸ shows.opened) shut
  · omega
  · obtain rfl := descriptor_unique here same
    rw [shows.blocksz] at loopDone
    have count : (nbytes.toInt.toNat : Int) = nbytes.toInt := by lia
    have bytes := shows.read_bytes nbytes.toInt.toNat (by rw [count]; exact exact)
      (fun longer => ⟨low, by lia, longer, by lia⟩) loopDone
    have middleFsd : middle.fsd = s.fsd := by rw [frame]
    have middleDevice : middle.device = s.device := by rw [frame]
    generalize moved : middle.setOft e { s.oft e with fileptr := Int32.ofInt newSize } = after at *
    have entry : after.oft e = { s.oft e with fileptr := Int32.ofInt newSize } := by
      rw [← moved]
      exact Function.update_self ..
    have sameFsd : after.fsd = s.fsd := by
      rw [← moved, ← middleFsd]
      rfl
    have sameDevice : after.device = s.device := by
      rw [← moved, ← middleDevice]
      rfl
    refine ⟨file.skip nbytes.toInt.toNat, ⟨?_, ⟨stored, buffer, bytes⟩, rfl⟩, sound, ?_, ?_, ?_, ?_,
      ?_⟩
    · rw [value]
      congr 1
      lia
    · rw [sameFsd]
      exact shows.blocksz
    · rw [entry]
      exact isOpen
    · rw [entry]
      change (Int32.ofInt newSize).toInt =
        ((min (file.cursor + nbytes.toInt.toNat) file.contents.length : Nat) : Int)
      rw [toInt_ofInt, wrap_of_range _ (by lia) (by lia)]
      lia
    · rw [entry]
      exact size
    · intro k inside
      rw [entry]
      unfold shownByte
      rw [sameFsd, sameDevice]
      exact shows.bytes k inside

include shows in
/-- A seek follows the sequence. -/
theorem Shows.seek {offset : Int32} (aligned : AlignedStep d s (.seek answers fd offset))
    (done : exec s (.seek answers fd offset) = some (reply, next)) :
    ∃ after, FileSpec file (.seek answers fd offset) reply after ∧ Shows next d after := by
  obtain ⟨low, high, _, small⟩ := shows.sound.bounds (d := d)
  have cursor := shows.cursor
  have size := shows.size
  have here : fd.toInt = d.val := aligned
  have sound := shows.sound.seek _ _ _ _ (exec_seek done)
  have target := wrap_sum (s.oft d).fileptr.toInt offset.toInt low (by lia)
    (toInt_range offset).1 (toInt_range offset).2
  rcases seek_cases _ _ _ _ _ _ (exec_seek done) with
    ⟨rfl, failed, outside | ⟨e, same, shut | invalid⟩⟩ | ⟨e, same, isOpen, value, targetLow,
      targetHigh, rfl⟩
  · unfold numFd at outside
    omega
  · exact absurd (descriptor_unique here same ▸ shows.opened) shut
  · rw [descriptor_unique here same] at invalid
    exact ⟨file, Or.inr ⟨failed, by lia, rfl⟩, shows⟩
  · obtain rfl := descriptor_unique here same
    generalize wrap ((s.oft e).fileptr.toInt + offset.toInt) = position at *
    have stored : (Int32.ofInt position).toInt = position := by
      rw [toInt_ofInt, wrap_of_range _ (by lia) (by lia)]
    have entry : (s.setOft e { s.oft e with fileptr := Int32.ofInt position }).oft e =
        { s.oft e with fileptr := Int32.ofInt position } := Function.update_self ..
    refine ⟨file.move position.toNat (by lia), Or.inl ⟨value, rfl, ?_⟩, sound, shows.blocksz, ?_,
      ?_, ?_, ?_⟩
    · change (position.toNat : Int) = _
      lia
    · rw [entry]
      exact isOpen
    · rw [entry]
      change (Int32.ofInt position).toInt = (position.toNat : Int)
      lia
    · rw [entry]
      exact size
    · intro k inside
      rw [entry]
      exact shows.bytes k inside

include shows in
/-- Every call that meets the condition follows the sequence. -/
theorem Shows.step {call : Call} (aligned : AlignedStep d s call)
    (done : exec s call = some (reply, next)) :
    ∃ after, FileSpec file call reply after ∧ Shows next d after := by
  cases call with
  | write => exact shows.write aligned done
  | read => exact shows.read aligned done
  | seek => exact shows.seek aligned done
  | mkdev => exact False.elim aligned
  | mkfs => exact False.elim aligned
  | create => exact False.elim aligned
  | «open» => exact False.elim aligned
  | close => exact False.elim aligned

include shows in
/-- Every call that meets the condition completes, if the inode's copy gets its
memory. -/
theorem Shows.step_total {call : Call} (aligned : AlignedStep d s call)
    (granted : call.Granted) : exec s call ≠ none := by
  apply shows.sound.step_total (shows.sound.opened d shows.opened)
  cases call with
  | write =>
    obtain ⟨here, _, noOverflow, _⟩ := aligned
    exact ⟨by lia, granted, fun e same _ => descriptor_unique here same ▸ noOverflow⟩
  | read =>
    obtain ⟨here, _, noOverflow, _⟩ := aligned
    exact ⟨by omega, granted, fun e same _ => descriptor_unique here same ▸ noOverflow⟩
  | seek =>
    have here : _ = ((d.val : Nat) : Int) := aligned
    exact ⟨by lia, granted⟩
  | mkdev => exact False.elim aligned
  | mkfs => exact False.elim aligned
  | create => exact False.elim aligned
  | «open» => exact False.elim aligned
  | close => exact False.elim aligned

end Steps

/-- In a sound state `fs_create` hands out an empty file at position zero. -/
theorem FilesSound.created_empty {s next : State} (sound : FilesSound s) (answers : Answers)
    (filename : CString) (mode : Int32) (d : Fin 16)
    (createFits : CreateFits s answers filename mode)
    (done : fsCreate s answers filename mode = some (.ok (d.val : Int), next)) :
    (next.oft d).state = .opened ∧ (next.oft d).fileptr = 0 ∧ (next.oft d).inode.size = 0 := by
  rcases create_cases _ _ _ _ _ _ done with
    ⟨_, _, _, impossible⟩ | ⟨accepted, chunk, put, stored, _, putDone, outcome⟩
  · cases impossible
  rcases outcome with ⟨⟨_, impossible⟩, _⟩ | ⟨room, opened, rfl, _, openDone, handed⟩
  · cases impossible
  obtain ⟨_, _, storedSound, inode⟩ := sound.create_stored answers filename mode _ _ accepted
    createFits rfl putDone
  rcases handed with ⟨_, _, _, impossible⟩ | ⟨fd, rfl, same⟩
  · cases impossible
  · cases same
    exact (storedSound.withEntry (freshDirent room s.fsd.inodesUsed filename) inode).opened_empty
      _ _ _ d openDone

/-- A file just created is the empty sequence. -/
theorem FilesSound.created_shows {s next : State} (sound : FilesSound s) (answers : Answers)
    (filename : CString) (mode : Int32) (d : Fin 16) (blocksz : s.fsd.blocksz.toInt = 512)
    (createFits : CreateFits s answers filename mode)
    (done : fsCreate s answers filename mode = some (.ok (d.val : Int), next))
    (same : SameGeometry s next) : Shows next d CursorFile.empty := by
  obtain ⟨opened, pointer, size⟩ := sound.created_empty answers filename mode d createFits done
  refine ⟨sound.create _ _ _ _ createFits done, by rw [same.blocksz]; exact blocksz, opened, ?_, ?_,
    ?_⟩
  · rw [pointer]
    rfl
  · rw [size]
    rfl
  · intro k inside
    exact absurd inside (Nat.not_lt_zero k)

/-- On 512-byte blocks, along every run on a created descriptor whose transfers are
aligned, the calls follow the sequence with a cursor, the open file shows that
sequence at the end, and every further such call completes. -/
theorem file_contents_follow (count inodes : Int32) (first opened last : State)
    (before events : List (Event State Call Reply)) (creation : Event State Call Reply) (d : Fin 16)
    (formatted : FormattedBy 512 count inodes first)
    (region : 2 + (first.fsd.numInodeBlocks : Int) ≤ first.fsd.nblocks.toInt)
    (product : first.fsd.nblocks.toInt * first.fsd.blocksz.toInt < 2 ^ 31)
    (setup : Run exec first (before ++ [creation]) opened)
    (fits : Meets StepFits (before ++ [creation]))
    (created : ∃ answers filename mode, creation.call = .create answers filename mode)
    (descriptor : creation.reply.value = .ok (d.val : Int))
    (run : Run exec opened events last) (aligned : Meets (AlignedStep d) events) :
    ∃ file, Follows FileSpec CursorFile.empty events file ∧ Shows last d file ∧
      ∀ call, AlignedStep d last call → call.Granted → exec last call ≠ none := by
  have exact := formatted_chosen 512 count inodes first formatted
  have blocksz : first.fsd.blocksz.toInt = 512 := by
    rw [exact.blocksz]
    rfl
  have geometry := formatted_geometry 512 count inodes first formatted (by omega) region product
  have sound := formatted_filesSound 512 count inodes first formatted geometry
  obtain ⟨middle, front, final⟩ := (run_append first opened before [creation]).mp setup
  obtain ⟨beforeFits, creationFits⟩ := (meets_append StepFits before [creation]).mp fits
  have same : SameGeometry first middle := invariant_last (SameGeometry first) StepFits
    (fun _ _ _ _ kept fits completed => sameGeometry_trans kept (exec_same fits.onFiles completed))
    first middle before front (sameGeometry_refl first) beforeFits
  cases final with
  | taken _ call reply after _ _ completed tail =>
    cases tail
    obtain ⟨answers, filename, mode, rfl⟩ := created
    have callFits := creationFits _ (List.mem_singleton.mpr rfl)
    have createDone := exec_create completed
    dsimp only at descriptor
    rw [descriptor] at createDone
    have shows := (sound.run front beforeFits).created_shows answers filename mode d
      (by rw [same.blocksz]; exact blocksz) callFits createDone
      (exec_same callFits.onFiles completed)
    obtain ⟨file, followed, showsLast⟩ := simulation_run (fun s file => Shows s d file)
      (AlignedStep d) FileSpec (fun _ _ _ _ _ shows aligned done => shows.step aligned done)
      opened last events run CursorFile.empty shows aligned
    exact ⟨file, followed, showsLast, fun call aligned granted => showsLast.step_total aligned granted⟩

/-- A `fs_create` that returns the first descriptor. -/
def createsFirst (creation : Event State Call Reply) : Bool :=
  match creation.call, creation.reply.value with
  | .create .., .ok value => decide (value = 0)
  | _, _ => false

/-- A file is created and three aligned calls follow. -/
def createdAndAligned : List (Event State Call Reply) → Bool
  | creation :: events => decide (StepFits creation.before creation.call) &&
    createsFirst creation && events.length == 3 &&
    events.all fun event => decide (AlignedStep firstDescriptor event.before event.call)
  | [] => false

/-- The law applies to a run that creates the file `a`, writes 1200 bytes, moves
back and reads them. -/
theorem file_contents_of_1200_bytes : ∃ first opened events last, FormattedBy 512 16 16 first ∧
    Run exec opened events last ∧ Meets (AlignedStep 0) events ∧ events.length = 3 ∧
    ∃ file, Follows FileSpec CursorFile.empty events file ∧ Shows last 0 file := by
  obtain ⟨first, events, last, formatted, run, checked⟩ := formatted_trace_exists 512 16 16
    [.create granting fileA oCreat, .write granting 0 (fun _ => 7) 1200,
      .seek granting 0 (-1200), .read granting 0 (fun _ => 0) 1200]
    (fun events _ => createdAndAligned events) (by decide +kernel)
  unfold createdAndAligned at checked
  split at checked
  case h_2 => cases checked
  case h_1 creation rest =>
    simp only [Bool.and_eq_true, decide_eq_true_eq] at checked
    obtain ⟨⟨⟨fits, creates⟩, length⟩, all⟩ := checked
    unfold createsFirst at creates
    split at creates
    case h_2 => cases creates
    case h_1 answers filename mode value isCreate created =>
      obtain ⟨opened, setup, tail⟩ := (run_append first last [creation] rest).mp run
      have aligned : Meets (AlignedStep 0) rest := fun event member =>
        of_decide_eq_true (List.all_eq_true.mp all event member)
      obtain ⟨_, _, region, product⟩ := formatted16_sizes first formatted
      obtain ⟨file, followed, shows, _⟩ := file_contents_follow 16 16 first opened last [] rest
        creation 0 formatted region product setup (by simpa [Meets] using fits)
        ⟨answers, filename, mode, isCreate⟩ (by rw [created, of_decide_eq_true creates]; rfl) tail
        aligned
      exact ⟨first, opened, rest, last, formatted, tail, aligned, by simpa using length, file,
        followed, shows⟩

/-- A transfer of some bytes on a descriptor that does not overflow its file
pointer, or a seek on it. -/
def OnDescriptor (d : Fin 16) (s : State) : Call → Prop
  | .write _ fd _ nbytes | .read _ fd _ nbytes => fd.toInt = d.val ∧ 0 < nbytes.toInt ∧
    (s.oft d).fileptr.toInt + nbytes.toInt < 2 ^ 31
  | .seek _ fd _ => fd.toInt = d.val
  | _ => False

instance (d : Fin 16) (s : State) : DecidablePred (OnDescriptor d s)
  | .write .. => inferInstanceAs (Decidable (_ ∧ _ ∧ _))
  | .read .. => inferInstanceAs (Decidable (_ ∧ _ ∧ _))
  | .seek .. => inferInstanceAs (Decidable (_ = _))
  | .mkdev .. | .mkfs .. | .create .. | .open .. | .close .. => isFalse id

/-- A write of 1024 bytes, a move back by 512, and a read of ten bytes that finds a zero. -/
def writesTwoBlocks (write : Event State Call Reply) : Bool :=
  match write.call, write.reply.value with
  | .write _ _ buf nbytes, .ok _ => decide (OnDescriptor firstDescriptor write.before write.call) &&
    decide (nbytes.toInt = 1024) && decide (buf 512 = 7)
  | _, _ => false

def movesBack (seek : Event State Call Reply) : Bool :=
  match seek.call, seek.reply.value with
  | .seek _ _ offset, .ok _ => decide (OnDescriptor firstDescriptor seek.before seek.call) &&
    decide (offset.toInt = -512)
  | _, _ => false

def readsZero (read : Event State Call Reply) : Bool :=
  match read.call, read.reply.value, read.reply.buf with
  | .read _ _ _ nbytes, .ok _, some after =>
    decide (OnDescriptor firstDescriptor read.before read.call) && decide (nbytes.toInt = 10) &&
    decide (after 0 = 0)
  | _, _, _ => false

/-- The four calls are recorded in this way. -/
def losesSecondBlock : List (Event State Call Reply) → Bool
  | [creation, write, seek, read] => decide (StepFits creation.before creation.call) &&
    createsFirst creation && writesTwoBlocks write && movesBack seek && readsZero read
  | _ => false

/-- A write of two whole blocks to a new file drops the second one: a read at the
start of that block hands out the old bytes of the device. -/
theorem second_block_is_lost :
    ¬ ∀ (count inodes : Int32) (first opened last : State)
      (before events : List (Event State Call Reply)) (creation : Event State Call Reply)
      (d : Fin 16), FormattedBy 512 count inodes first →
      Run exec first (before ++ [creation]) opened → Meets StepFits (before ++ [creation]) →
      (∃ answers filename mode, creation.call = .create answers filename mode) →
      creation.reply.value = .ok (d.val : Int) → Run exec opened events last →
      Meets (OnDescriptor d) events → (∀ event ∈ events, ∃ value, event.reply.value = .ok value) →
      ∃ file, Follows FileSpec CursorFile.empty events file := by
  intro follows
  obtain ⟨first, events, last, formatted, run, checked⟩ := formatted_trace_exists 512 16 16
    [.create granting fileA oCreat, .write granting 0 (fun _ => 7) 1024, .seek granting 0 (-512),
      .read granting 0 (fun _ => 0) 10]
    (fun events _ => losesSecondBlock events) (by decide +kernel)
  unfold losesSecondBlock at checked
  split at checked
  case h_2 => cases checked
  case h_1 creation write seek read =>
    simp only [Bool.and_eq_true, decide_eq_true_eq] at checked
    obtain ⟨⟨⟨⟨fits, creates⟩, writes⟩, seeks⟩, reads⟩ := checked
    unfold createsFirst at creates
    split at creates
    case h_2 => cases creates
    case h_1 answers filename mode value isCreate created =>
    unfold writesTwoBlocks at writes
    split at writes
    case h_2 => cases writes
    case h_1 writeAnswers writeFd buf nbytes writeValue isWrite written =>
    unfold movesBack at seeks
    split at seeks
    case h_2 => cases seeks
    case h_1 seekAnswers seekFd offset seekValue isSeek moved =>
    unfold readsZero at reads
    split at reads
    case h_2 => cases reads
    case h_1 readAnswers readFd target length readValue after isRead readBack stored =>
    simp only [Bool.and_eq_true, decide_eq_true_eq] at creates writes seeks reads
    obtain ⟨opened, setup, tail⟩ := (run_append first last [creation] [write, seek, read]).mp run
    have onDescriptor : Meets (OnDescriptor 0) [write, seek, read] := by
      simp only [Meets, List.forall_mem_cons]
      exact ⟨writes.1.1, seeks.1, reads.1.1, List.forall_mem_nil _⟩
    have completed : ∀ event ∈ [write, seek, read], ∃ value, event.reply.value = .ok value := by
      simp only [List.forall_mem_cons]
      exact ⟨⟨_, written⟩, ⟨_, moved⟩, ⟨_, readBack⟩, List.forall_mem_nil _⟩
    obtain ⟨_, one, wrote, two, sought, three, taken, _⟩ := follows 16 16 first opened last []
      [write, seek, read] creation 0 formatted setup (by simpa [Meets] using fits)
      ⟨answers, filename, mode, isCreate⟩ (by rw [created, creates]; rfl) tail onDescriptor completed
    rw [isWrite] at wrote
    rw [isSeek] at sought
    rw [isRead] at taken
    rcases wrote with ⟨_, rfl⟩ | ⟨⟨_, failed, _⟩, _⟩
    case inr => rw [written] at failed; cases failed
    rcases sought with ⟨_, sameContents, cursor⟩ | ⟨⟨_, failed⟩, _⟩
    case inr => rw [moved] at failed; cases failed
    obtain ⟨_, ⟨other, sameBuffer, bytes⟩, _⟩ := taken
    rw [stored, Option.some.injEq] at sameBuffer
    subst sameBuffer
    have size : (CursorFile.empty.write (bufferBytes buf nbytes.toInt.toNat)).contents.length =
        1024 := by
      rw [CursorFile.write_length, bufferBytes_length, writes.1.2]
      rfl
    have position : two.cursor = 512 := by
      have start : (CursorFile.empty.write (bufferBytes buf nbytes.toInt.toNat)).cursor = 1024 := by
        change 0 + (bufferBytes buf nbytes.toInt.toNat).length = 1024
        rw [bufferBytes_length, writes.1.2]
        rfl
      lia
    have count : (two.peek length.toInt.toNat).length = 10 := by
      rw [CursorFile.peek_length, sameContents, size, position, reads.1.2]
      rfl
    have expected : (two.peek length.toInt.toNat)[0]? = some 7 := by
      rw [CursorFile.peek_getElem _ _ _ (by lia), sameContents, position,
        CursorFile.write_inside _ _ _ (Nat.zero_le _) (by rw [bufferBytes_length, writes.1.2]; decide),
        bufferBytes_getElem _ _ _ (by rw [writes.1.2]; decide)]
      exact congrArg some writes.2
    rw [← bytes, count, bufferBytes_getElem _ _ _ (by decide), reads.2] at expected
    exact absurd expected (by decide)

end Xinu.FileSystem
