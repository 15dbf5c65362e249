import Xinu.FreeMask

/-!
# Geometry of a formatted device

`bs_mkdev` and `fs_mkfs` fix the block size, the block count, the inode count
and the extent of the free mask; no later file-system call changes them. A
geometry is sound when the byte size of the device is an `int`, the memory
behind it has that size, and the inode region ends inside the device. Inside a
sound geometry the address arithmetic of the block store is exact.

The results here say what one block-store call does, that formatting establishes
a sound geometry, and that each later call keeps it.
-/

namespace Xinu.FileSystem

open CIntegers BlockStore Runs

/-- The address of a block-store transfer on the file system's device. -/
def State.addressOf (s : State) (block offset : Int) : Int :=
  wrap (block * s.device.blocksize.toInt) + offset

/-- A read with a good offset copies from the device when both its ends exist. -/
theorem bread_eq (s : State) (block offset : Int) (buf : Memory) (extent : Option Nat) (len : Int)
    (good : offset < s.device.blocksize.toInt) :
    s.bread block offset buf extent len =
      if s.device.blocks.Holds (s.addressOf block offset) len.toNat ∧
          ∀ room ∈ extent, len.toNat ≤ room then
        some (copy buf 0 (shift s.device.blocks.bytes (s.addressOf block offset).toNat) len.toNat,
          { s with transfers := s.transfers ++ [⟨false, block, offset, len⟩] })
      else none := by
  have address : bbase s.device 0 block offset = .ok (s.addressOf block offset) := by
    simp [bbase, State.addressOf, good]
  unfold State.bread bsBread
  rw [address]
  dsimp only
  split <;> rfl

/-- A write with a good offset replaces the bytes of its range. -/
theorem bwrite_eq (s : State) (block offset : Int) (buf : Memory) (extent : Option Nat) (len : Int)
    (good : offset < s.device.blocksize.toInt) :
    s.bwrite block offset buf extent len =
      if s.device.blocks.Holds (s.addressOf block offset) len.toNat ∧
          ∀ room ∈ extent, len.toNat ≤ room then
        some { s with
          device := { s.device with blocks := { s.device.blocks with
            bytes := copy s.device.blocks.bytes (s.addressOf block offset).toNat buf len.toNat } }
          transfers := s.transfers ++ [⟨true, block, offset, len⟩] }
      else none := by
  have address : bbase s.device 0 block offset = .ok (s.addressOf block offset) := by
    simp [bbase, State.addressOf, good]
  unfold State.bwrite bsBwrite
  rw [address]
  dsimp only
  split <;> rfl

/-- With a bad offset the call returns at once; only the record shows it. -/
theorem bread_bad (s : State) (block offset : Int) (buf : Memory) (extent : Option Nat) (len : Int)
    (bad : s.device.blocksize.toInt ≤ offset) :
    s.bread block offset buf extent len =
      some (buf, { s with transfers := s.transfers ++ [⟨false, block, offset, len⟩] }) := by
  simp [State.bread, bsBread, bbase, bad]

theorem bwrite_bad (s : State) (block offset : Int) (buf : Memory) (extent : Option Nat) (len : Int)
    (bad : s.device.blocksize.toInt ≤ offset) :
    s.bwrite block offset buf extent len =
      some { s with transfers := s.transfers ++ [⟨true, block, offset, len⟩] } := by
  simp [State.bwrite, bsBwrite, bbase, bad]

/-- The state with one more recorded transfer. -/
def State.record (s : State) (transfer : Transfer) : State :=
  { s with transfers := s.transfers ++ [transfer] }

/-- The state with other bytes on the device. -/
def State.withBytes (s : State) (bytes : Memory) : State :=
  { s with device := { s.device with blocks := { s.device.blocks with bytes := bytes } } }

/-- The state with other contents of the block cache. -/
def State.withCache (s : State) (cache : Memory) : State := { s with blockCache := cache }

section Updates

variable (s : State) (transfer : Transfer) (bytes cache : Memory)

@[simp] theorem record_fsd : (s.record transfer).fsd = s.fsd := rfl
@[simp] theorem record_device : (s.record transfer).device = s.device := rfl
@[simp] theorem record_oft : (s.record transfer).oft = s.oft := rfl
@[simp] theorem record_transfers :
    (s.record transfer).transfers = s.transfers ++ [transfer] := rfl

@[simp] theorem withBytes_fsd : (s.withBytes bytes).fsd = s.fsd := rfl
@[simp] theorem withBytes_oft : (s.withBytes bytes).oft = s.oft := rfl
@[simp] theorem withBytes_transfers : (s.withBytes bytes).transfers = s.transfers := rfl

@[simp] theorem withCache_fsd : (s.withCache cache).fsd = s.fsd := rfl
@[simp] theorem withCache_oft : (s.withCache cache).oft = s.oft := rfl
@[simp] theorem withCache_transfers : (s.withCache cache).transfers = s.transfers := rfl

end Updates

@[simp] theorem withBytes_bytes (s : State) (bytes : Memory) :
    (s.withBytes bytes).device.blocks.bytes = bytes := rfl

@[simp] theorem record_addressOf (s : State) (transfer : Transfer) (block offset : Int) :
    (s.record transfer).addressOf block offset = s.addressOf block offset := rfl

@[simp] theorem withCache_addressOf (s : State) (cache : Memory) (block offset : Int) :
    (s.withCache cache).addressOf block offset = s.addressOf block offset := rfl

/-- A read whose two ends exist completes. -/
theorem bread_done (s : State) (block offset : Int) (buf : Memory) (extent : Option Nat) (len : Int)
    (good : offset < s.device.blocksize.toInt)
    (memory : s.device.blocks.Holds (s.addressOf block offset) len.toNat)
    (room : ∀ size ∈ extent, len.toNat ≤ size) :
    s.bread block offset buf extent len =
      some (copy buf 0 (shift s.device.blocks.bytes (s.addressOf block offset).toNat) len.toNat,
        s.record ⟨false, block, offset, len⟩) := by
  rw [bread_eq s block offset buf extent len good, if_pos ⟨memory, room⟩]
  rfl

/-- A write whose two ends exist completes. -/
theorem bwrite_done (s : State) (block offset : Int) (buf : Memory) (extent : Option Nat) (len : Int)
    (good : offset < s.device.blocksize.toInt)
    (memory : s.device.blocks.Holds (s.addressOf block offset) len.toNat)
    (room : ∀ size ∈ extent, len.toNat ≤ size) :
    s.bwrite block offset buf extent len =
      some ((s.withBytes (copy s.device.blocks.bytes (s.addressOf block offset).toNat buf
        len.toNat)).record ⟨true, block, offset, len⟩) := by
  rw [bwrite_eq s block offset buf extent len good, if_pos ⟨memory, room⟩]
  rfl

/-- A completed read changes the record of transfers only. -/
theorem bread_frame (s next : State) (block offset : Int) (buf after : Memory)
    (extent : Option Nat) (len : Int)
    (done : s.bread block offset buf extent len = some (after, next)) :
    next = { s with transfers := s.transfers ++ [⟨false, block, offset, len⟩] } := by
  rcases lt_or_ge offset s.device.blocksize.toInt with good | bad
  · rw [bread_eq s block offset buf extent len good] at done
    split at done
    · cases done
      rfl
    · cases done
  · rw [bread_bad s block offset buf extent len bad] at done
    cases done
    rfl

/-- A completed write changes bytes of the device and the record. -/
theorem bwrite_frame (s next : State) (block offset : Int) (buf : Memory)
    (extent : Option Nat) (len : Int) (done : s.bwrite block offset buf extent len = some next) :
    next = { s with
      device := { s.device with blocks := { s.device.blocks with
        bytes := next.device.blocks.bytes } }
      transfers := s.transfers ++ [⟨true, block, offset, len⟩] } := by
  rcases lt_or_ge offset s.device.blocksize.toInt with good | bad
  · rw [bwrite_eq s block offset buf extent len good] at done
    split at done
    · cases done
      rfl
    · cases done
  · rw [bwrite_bad s block offset buf extent len bad] at done
    cases done
    rfl

/-- A device and a superblock that agree, with room for the inode region and
with exact address arithmetic. -/
structure Geometry (s : State) : Prop where
  blocksz : s.device.blocksize = s.fsd.blocksz
  nblocks : s.device.numblocks = s.fsd.nblocks
  positive : 0 < s.fsd.blocksz.toInt
  inodes : 0 < s.fsd.ninodes.toInt
  region : 2 + (s.fsd.numInodeBlocks : Int) ≤ s.fsd.nblocks.toInt
  product : s.fsd.nblocks.toInt * s.fsd.blocksz.toInt < 2 ^ 31
  memory : s.fsd.nblocks.toInt * s.fsd.blocksz.toInt ≤ s.device.blocks.size
  mask : s.fsd.nblocks.toInt ≤ 8 * s.fsd.freemask.size

/-- The first data block is the first one after the inode region. -/
theorem Geometry.firstDataBlock {s : State} (geometry : Geometry s) :
    s.fsd.firstDataBlock = 2 + s.fsd.numInodeBlocks := by
  have bound := toInt_range s.fsd.nblocks
  have region := geometry.region
  exact wrap_of_range _ (by unfold firstInodeBlock; omega) (by unfold firstInodeBlock; omega)

theorem Geometry.regionFits {s : State} (geometry : Geometry s) : RegionFits s.fsd := by
  unfold RegionFits
  rw [geometry.firstDataBlock]
  have region := geometry.region
  omega

/-- The bytes of a block of the device start at its number times the block size. -/
theorem Geometry.addressOf {s : State} (geometry : Geometry s) (block offset : Int)
    (low : 0 ≤ block) (high : block < s.fsd.nblocks.toInt) :
    s.addressOf block offset = block * s.fsd.blocksz.toInt + offset := by
  have positive := geometry.positive
  have below : block * s.fsd.blocksz.toInt < 2 ^ 31 :=
    lt_of_le_of_lt (by nlinarith) geometry.product
  have above : 0 ≤ block * s.fsd.blocksz.toInt := by positivity
  unfold State.addressOf
  rw [geometry.blocksz, wrap_of_range _ (by lia) below]

/-- A whole block lies in the memory of the device. -/
theorem Geometry.blockEnd {s : State} (geometry : Geometry s) (block : Int)
    (high : block < s.fsd.nblocks.toInt) :
    block * s.fsd.blocksz.toInt + s.fsd.blocksz.toInt ≤ s.device.blocks.size := by
  have positive := geometry.positive
  have memory := geometry.memory
  nlinarith

/-- What every call after formatting leaves alone. -/
structure SameGeometry (before after : State) : Prop where
  numblocks : after.device.numblocks = before.device.numblocks
  blocksize : after.device.blocksize = before.device.blocksize
  memory : after.device.blocks.size = before.device.blocks.size
  nblocks : after.fsd.nblocks = before.fsd.nblocks
  blocksz : after.fsd.blocksz = before.fsd.blocksz
  ninodes : after.fsd.ninodes = before.fsd.ninodes
  mask : after.fsd.freemask.size = before.fsd.freemask.size

theorem sameGeometry_refl (s : State) : SameGeometry s s := ⟨rfl, rfl, rfl, rfl, rfl, rfl, rfl⟩

theorem sameGeometry_trans {first second third : State} (left : SameGeometry first second)
    (right : SameGeometry second third) : SameGeometry first third :=
  ⟨right.numblocks.trans left.numblocks, right.blocksize.trans left.blocksize,
    right.memory.trans left.memory, right.nblocks.trans left.nblocks,
    right.blocksz.trans left.blocksz, right.ninodes.trans left.ninodes,
    right.mask.trans left.mask⟩

theorem SameGeometry.inodesPerBlock {before after : State} (same : SameGeometry before after) :
    after.fsd.inodesPerBlock = before.fsd.inodesPerBlock := by
  simp only [Fsystem.inodesPerBlock, same.blocksz]

theorem SameGeometry.numInodeBlocks {before after : State} (same : SameGeometry before after) :
    after.fsd.numInodeBlocks = before.fsd.numInodeBlocks := by
  simp only [Fsystem.numInodeBlocks, same.inodesPerBlock, same.ninodes]

theorem SameGeometry.firstDataBlock {before after : State} (same : SameGeometry before after) :
    after.fsd.firstDataBlock = before.fsd.firstDataBlock := by
  simp only [Fsystem.firstDataBlock, same.numInodeBlocks]

theorem SameGeometry.inodeBlock {before after : State} (same : SameGeometry before after)
    (number : Int) : after.fsd.inodeBlock number = before.fsd.inodeBlock number := by
  simp only [Fsystem.inodeBlock, same.inodesPerBlock]

theorem SameGeometry.inodeOff {before after : State} (same : SameGeometry before after)
    (number : Int) : after.fsd.inodeOff number = before.fsd.inodeOff number := by
  simp only [Fsystem.inodeOff, same.inodesPerBlock]

/-- Soundness of the geometry depends on what stays the same. -/
theorem SameGeometry.sound {before after : State} (same : SameGeometry before after)
    (geometry : Geometry before) : Geometry after where
  blocksz := by rw [same.blocksize, same.blocksz, geometry.blocksz]
  nblocks := by rw [same.numblocks, same.nblocks, geometry.nblocks]
  positive := by rw [same.blocksz]; exact geometry.positive
  inodes := by rw [same.ninodes]; exact geometry.inodes
  region := by rw [same.numInodeBlocks, same.nblocks]; exact geometry.region
  product := by rw [same.nblocks, same.blocksz]; exact geometry.product
  memory := by rw [same.nblocks, same.blocksz, same.memory]; exact geometry.memory
  mask := by rw [same.nblocks, same.mask]; exact geometry.mask

theorem record_same (s : State) (transfer : Transfer) : SameGeometry s (s.record transfer) :=
  ⟨rfl, rfl, rfl, rfl, rfl, rfl, rfl⟩

theorem withCache_same (s : State) (cache : Memory) : SameGeometry s (s.withCache cache) :=
  ⟨rfl, rfl, rfl, rfl, rfl, rfl, rfl⟩

theorem withBytes_same (s : State) (bytes : Memory) : SameGeometry s (s.withBytes bytes) :=
  ⟨rfl, rfl, rfl, rfl, rfl, rfl, rfl⟩

theorem bwrite_same (s next : State) (block offset : Int) (buf : Memory)
    (extent : Option Nat) (len : Int) (done : s.bwrite block offset buf extent len = some next) :
    SameGeometry s next := by
  rw [bwrite_frame s next block offset buf extent len done]
  exact ⟨rfl, rfl, rfl, rfl, rfl, rfl, rfl⟩

/-- A device made by `bs_mkdev` and formatted once by `fs_mkfs` after the start
of the system. -/
def FormattedBy (blocksize numblocks numInodes : Int32) (s : State) : Prop :=
  ∃ mkdevAnswers mkfsAnswers made,
    exec boot (.mkdev mkdevAnswers 0 blocksize numblocks) = some (⟨.ok OK, none⟩, made) ∧
    exec made (.mkfs mkfsAnswers 0 numInodes) = some (⟨.ok 1, none⟩, s)

/-- A request below the top of the address space owns at least its size. -/
theorem roundmb_ge (size : Nat) (small : size + 7 < 2 ^ 32) : size ≤ roundmb size := by
  unfold roundmb
  omega

/-- The rounding loop stops at the next multiple of eight. -/
theorem roundToByte_exact (turns : Nat) (i : Int) (low : 0 ≤ i) (high : i ≤ 2 ^ 31 - 8)
    (enough : 8 * ((i + 7) / 8) ≤ i + turns) : roundToByte turns i = 8 * ((i + 7) / 8) := by
  induction turns generalizing i with
  | zero =>
    simp only [roundToByte]
    omega
  | succ turns inductionHypothesis =>
    simp only [roundToByte]
    rw [Int.tmod_eq_emod_of_nonneg low]
    split
    case isTrue off =>
      rw [wrap_of_range (i + 1) (by lia) (by omega),
        inductionHypothesis (i + 1) (by lia) (by lia) (by push_cast at enough; lia)]
      lia
    case isFalse aligned =>
      omega

/-- The mask of a formatted device covers every block. At the top of the range
the rounding overflows, and the request that results is larger still. -/
theorem mask_covers (nblocks : Int32) (positive : 0 < nblocks.toInt) :
    nblocks.toInt ≤ 8 * roundmb (unsigned
      (Int32.ofInt ((roundToByte 7 nblocks.toInt).tdiv 8)).toInt) := by
  have bound := toInt_range nblocks
  rw [toInt_ofInt]
  rcases le_or_gt nblocks.toInt (2 ^ 31 - 8) with fits | top
  · rw [roundToByte_exact 7 _ (by lia) fits (by omega),
      Int.tdiv_eq_ediv_of_nonneg (by lia), wrap_of_range _ (by lia) (by omega)]
    unfold unsigned roundmb
    omega
  · have rounded : roundToByte 7 nblocks.toInt = -2147483648 := by
      have cases : nblocks.toInt = 2147483641 ∨ nblocks.toInt = 2147483642 ∨
          nblocks.toInt = 2147483643 ∨ nblocks.toInt = 2147483644 ∨ nblocks.toInt = 2147483645 ∨
          nblocks.toInt = 2147483646 ∨ nblocks.toInt = 2147483647 := by lia
      rcases cases with value | value | value | value | value | value | value <;>
        rw [value] <;> decide +kernel
    have request : roundmb (unsigned (wrap ((-2147483648 : Int).tdiv 8))) = 4026531840 := by
      decide +kernel
    rw [rounded, request]
    omega

/-- What a completed `fs_mkfs` does: it sizes the superblock, clears the mask but
for the first two blocks, and issues two writes. The directory, the open-file
table and the next descriptor are those of before. -/
theorem mkfs_exact (s next : State) (answers : Answers) (dev numInodes : Int32) (value : Int)
    (done : fsMkfs s answers dev numInodes = some (.ok value, next)) :
    ∃ chunk marked twice bytes,
      dev = 0 ∧ value = 1 ∧
      fsSetmaskbit ((s.fsd.sized s.device numInodes).formatted chunk) sbBlk = some marked ∧
      fsSetmaskbit marked bmBlk = some twice ∧
      next = { s with
        device := { s.device with blocks := { s.device.blocks with bytes := bytes } }
        fsd := twice
        transfers := s.transfers ++ [⟨true, sbBlk, 0, sizeofFsystem⟩] ++
          [⟨true, bmBlk, 0, twice.freemaskbytes.toInt⟩] } := by
  unfold fsMkfs at done
  split at done
  · cases done
  case isFalse device =>
    dsimp only at done
    split at done
    · cases done
    case h_2 chunk granted =>
      simp only [Option.bind_eq_bind, Option.bind_eq_some_iff] at done
      obtain ⟨marked, firstSet, superblock, superblockDone, twice, secondSet, last, lastDone,
        final⟩ := done
      cases final
      have superblockFrame := bwrite_frame _ _ _ _ _ _ _ superblockDone
      have lastFrame := bwrite_frame _ _ _ _ _ _ _ lastDone
      have sameMask : superblock.fsd = marked := by rw [superblockFrame]
      refine ⟨chunk, marked, twice, next.device.blocks.bytes, by simpa using device, rfl,
        firstSet, sameMask ▸ secondSet, ?_⟩
      rw [lastFrame, superblockFrame]

/-- Marking two blocks keeps the sizes of a formatted superblock. -/
theorem marked_twice_frame (fsd marked twice : Fsystem) (chunk : Chunk)
    (first : fsSetmaskbit (fsd.formatted chunk) sbBlk = some marked)
    (second : fsSetmaskbit marked bmBlk = some twice) :
    twice = { fsd.formatted chunk with
      freemask := { (fsd.formatted chunk).freemask with bytes := twice.freemask.bytes } } := by
  have firstFrame := setmaskbit_frame _ _ _ first
  have secondFrame := setmaskbit_frame _ _ _ second
  rw [secondFrame, firstFrame]

/-- What a successful `bs_mkdev` and `fs_mkfs` leave behind. -/
structure Formatted (size count inodes : Int32) (s : State) : Prop where
  blocksize : s.device.blocksize = size
  numblocks : s.device.numblocks = count
  memory : s.device.blocks.size = roundmb (unsigned (wrap (count.toInt * size.toInt)))
  blocksz : s.fsd.blocksz = size
  nblocks : s.fsd.nblocks = count
  ninodes : s.fsd.ninodes = if inodes.toInt < 1 then defaultNumInodes else inodes
  mask : s.fsd.freemask.size = roundmb (unsigned
    (Int32.ofInt ((roundToByte 7 count.toInt).tdiv 8)).toInt)
  inodesUsed : s.fsd.inodesUsed = 0
  rootDir : s.fsd.rootDir = []
  oft : s.oft = fun _ => zeroTable
  nextOpenFd : s.nextOpenFd = 0
  transfers : s.transfers = [⟨true, sbBlk, 0, sizeofFsystem⟩,
    ⟨true, bmBlk, 0, s.fsd.freemaskbytes.toInt⟩]

/-- The value `bs_mkdev` stores: its argument, or the default for a zero. -/
def orDefault (value default : Int32) : Int32 := if value ≠ 0 then value else default

/-- A successful formatting leaves the chosen sizes behind. -/
theorem formatted_chosen (size count inodes : Int32) (s : State)
    (formatted : FormattedBy size count inodes s) :
    Formatted (orDefault size mdevBlockSize) (orDefault count mdevNumBlocks) inodes s := by
  obtain ⟨mkdevAnswers, mkfsAnswers, made, mkdevDone, mkfsDone⟩ := formatted
  have device : made = { boot with device := ⟨orDefault count mdevNumBlocks,
      orDefault size mdevBlockSize, ⟨roundmb (unsigned (wrap
        ((orDefault count mdevNumBlocks).toInt * (orDefault size mdevBlockSize).toInt))),
        made.device.blocks.address, made.device.blocks.bytes⟩⟩ } := by
    simp only [exec, bsMkdev, ne_eq, not_true_eq_false, if_false] at mkdevDone
    split at mkdevDone
    · simp at mkdevDone
    · simp only [Option.some.injEq, Prod.mk.injEq, true_and] at mkdevDone
      rw [← mkdevDone]
      rfl
  simp only [exec, Option.map_eq_some_iff, Prod.mk.injEq, Reply.mk.injEq, and_true] at mkfsDone
  obtain ⟨⟨value, next⟩, formattedDone, rfl, rfl⟩ := mkfsDone
  obtain ⟨chunk, marked, twice, bytes, _, _, first, second, final⟩ :=
    mkfs_exact made next mkfsAnswers 0 inodes 1 formattedDone
  have frame := marked_twice_frame _ _ _ _ first second
  rw [final]
  constructor <;> dsimp only <;> (try rw [frame]) <;> rw [device] <;> rfl

/-- A device with a nonzero size and count keeps both as given. -/
theorem formatted_exact (size count inodes : Int32) (s : State) (sizeNonzero : size ≠ 0)
    (countNonzero : count ≠ 0) (formatted : FormattedBy size count inodes s) :
    Formatted size count inodes s := by
  have chosen := formatted_chosen size count inodes s formatted
  rwa [orDefault, if_pos sizeNonzero, orDefault, if_pos countNonzero] at chosen

/-- The number of inode blocks as a function of the arguments of formatting. -/
theorem formatted_inodeBlocks (size count inodes : Int32) (s : State) (sizeNonzero : size ≠ 0)
    (countNonzero : count ≠ 0) (formatted : FormattedBy size count inodes s) :
    s.fsd.numInodeBlocks = Fsystem.numInodeBlocks { boot.fsd with
      blocksz := size
      ninodes := if inodes.toInt < 1 then defaultNumInodes else inodes } := by
  have exact := formatted_exact size count inodes s sizeNonzero countNonzero formatted
  unfold Fsystem.numInodeBlocks Fsystem.inodesPerBlock
  rw [exact.ninodes, exact.blocksz]

/-- Making and formatting a device with a granting allocator, when both succeed. -/
def formattedState (blocksize numblocks numInodes : Int32) : Option State :=
  match bsMkdev boot.device granting 0 blocksize numblocks with
  | (.error _, _) => none
  | (.ok _, device) =>
    match fsMkfs { boot with device := device } granting 0 numInodes with
    | some (.ok _, s) => some s
    | _ => none

/-- The computed state is one that formatting leaves behind. -/
theorem formattedState_formatted (blocksize numblocks numInodes : Int32) (s : State)
    (computed : formattedState blocksize numblocks numInodes = some s) :
    FormattedBy blocksize numblocks numInodes s := by
  unfold formattedState at computed
  split at computed
  · cases computed
  case h_2 value device mkdevDone =>
    have answered : value = OK := by
      unfold bsMkdev at mkdevDone
      split at mkdevDone
      · cases mkdevDone
      · dsimp only at mkdevDone
        split at mkdevDone <;> cases mkdevDone
        rfl
    split at computed
    case h_1 answer next mkfsDone =>
      cases computed
      obtain ⟨_, _, _, _, _, succeeded, _⟩ := mkfs_exact _ _ _ _ _ _ mkfsDone
      refine ⟨granting, granting, { boot with device := device }, ?_, ?_⟩
      · simp only [exec, mkdevDone, answered]
      · simp only [exec, mkfsDone, succeeded, Option.map_some]
    case h_2 => cases computed

/-- A check that a list of calls on a formatted device passes holds of some run. -/
theorem formatted_trace_exists (blocksize numblocks numInodes : Int32) (calls : List Call)
    (check : List (Event State Call Reply) → State → Bool)
    (passed : ((formattedState blocksize numblocks numInodes).any fun s =>
      (trace exec s calls).any fun result => check result.1 result.2) = true) :
    ∃ s events last, FormattedBy blocksize numblocks numInodes s ∧ Run exec s events last ∧
      check events last = true := by
  cases computed : formattedState blocksize numblocks numInodes with
  | none => simp [computed] at passed
  | some s =>
    rw [computed] at passed
    obtain ⟨events, last, run, checked⟩ := trace_exists exec s calls check (by simpa using passed)
    exact ⟨s, events, last, formattedState_formatted _ _ _ s computed, run, checked⟩

/-- Formatting a device of positive block size establishes a sound geometry when
its byte size is an `int` and the inode region ends inside it. -/
theorem Formatted.geometry {size count inodes : Int32} {s : State}
    (formatted : Formatted size count inodes s) (positive : 0 < size.toInt)
    (product : count.toInt * size.toInt < 2 ^ 31)
    (region : 2 + (s.fsd.numInodeBlocks : Int) ≤ count.toInt) : Geometry s where
  blocksz := by rw [formatted.blocksize, formatted.blocksz]
  nblocks := by rw [formatted.numblocks, formatted.nblocks]
  positive := by rw [formatted.blocksz]; exact positive
  inodes := by
    rw [formatted.ninodes]
    split
    · decide
    · omega
  region := by rw [formatted.nblocks]; exact region
  product := by rw [formatted.nblocks, formatted.blocksz]; exact product
  memory := by
    have countPositive : 0 < count.toInt := by omega
    have productPositive : 0 < count.toInt * size.toInt := by positivity
    rw [formatted.nblocks, formatted.blocksz, formatted.memory,
      wrap_of_range _ (by lia) product]
    have exactSize := unsigned_of_nonneg (count.toInt * size.toInt) (by lia) (by omega)
    have owned := roundmb_ge (unsigned (count.toInt * size.toInt)) (by lia)
    omega
  mask := by
    rw [formatted.nblocks, formatted.mask]
    exact mask_covers count (by omega)

/-- The same from the sizes the formatted state shows. -/
theorem formatted_geometry (size count inodes : Int32) (s : State)
    (formatted : FormattedBy size count inodes s) (positive : 0 < s.fsd.blocksz.toInt)
    (region : 2 + (s.fsd.numInodeBlocks : Int) ≤ s.fsd.nblocks.toInt)
    (product : s.fsd.nblocks.toInt * s.fsd.blocksz.toInt < 2 ^ 31) : Geometry s := by
  have chosen := formatted_chosen size count inodes s formatted
  apply chosen.geometry
  · rw [← chosen.blocksz]
    exact positive
  · rw [← chosen.nblocks, ← chosen.blocksz]
    exact product
  · rw [← chosen.nblocks]
    exact region

/-- The sizes of the sample device of sixteen blocks and sixteen inodes. -/
theorem formatted16_sizes (s : State) (formatted : FormattedBy 512 16 16 s) :
    s.fsd.blocksz = 512 ∧ s.fsd.ninodes = 16 ∧
      2 + (s.fsd.numInodeBlocks : Int) ≤ s.fsd.nblocks.toInt ∧
      s.fsd.nblocks.toInt * s.fsd.blocksz.toInt < 2 ^ 31 := by
  have exact := formatted_exact 512 16 16 s (by decide) (by decide) formatted
  refine ⟨exact.blocksz, exact.ninodes, ?_, ?_⟩
  · rw [formatted_inodeBlocks 512 16 16 s (by decide) (by decide) formatted, exact.nblocks]
    decide
  · rw [exact.nblocks, exact.blocksz]
    decide

end Xinu.FileSystem
