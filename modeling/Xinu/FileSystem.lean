import Xinu.BlockStore
import Xinu.CStrings

/-!
# The in-memory file system: its data and its formatting

The state collects the globals of `fs.c` and of the block store: the superblock
`fsd`, the block cache, the open-file table and the next descriptor to hand out.
The record of transfers is not part of the program; it lists the block-store
calls issued so far, as their arguments name them.

A step returns no outcome where the source leaves the behaviour undefined: a
division by zero, an index outside an array, a transfer outside the memory of
the device or of the block cache, a use of the pointer that a failed and
unchecked `getmem` returned.

The counters of inodes and of descriptors are natural numbers. Each increment of
`inodes_used` follows a 64-byte `getmem` that is never returned, so the address
space ends before the counter wraps; `next_open_fd` stops at `NUM_FD`. The
directory is the list of its first `numentries` entries.
-/

namespace Xinu.FileSystem

open CIntegers BlockStore

/-- `INODEBLOCKS`, `DIRECTORY_SIZE`, `FILENAMELEN` and `NUM_FD`. -/
def inodeBlocks : Nat := 12
def directorySize : Nat := 16
def filenameLen : Nat := 32
def numFd : Nat := 16

/-- `DEFAULT_NUM_INODES`, a quarter of the default block count. -/
def defaultNumInodes : Int32 := mdevNumBlocks / 4

/-- `SB_BLK`, `BM_BLK` and `FIRST_INODE_BLOCK`. -/
def sbBlk : Int := 0
def bmBlk : Int := 1
def firstInodeBlock : Int := 2

/-- `INODE_TYPE_FILE`. -/
def inodeTypeFile : Int16 := 1

/-- `struct inode`. -/
structure Inode where
  id : Int32
  type : Int16
  nlink : Int16
  device : Int32
  size : Int32
  blocks : Fin 12 → Int32

/-- `sizeof(struct inode)`: four words, two of them split, and twelve blocks. -/
def sizeofInode : Nat := 64

/-- The bytes of an inode as `memcpy` moves them. -/
def Inode.bytes (inode : Inode) : Memory := fun k =>
  if k < 4 then byteOf inode.id.toUInt32.toNat k
  else if k < 6 then byteOf inode.type.toUInt16.toNat (k - 4)
  else if k < 8 then byteOf inode.nlink.toUInt16.toNat (k - 6)
  else if k < 12 then byteOf inode.device.toUInt32.toNat (k - 8)
  else if k < 16 then byteOf inode.size.toUInt32.toNat (k - 12)
  else if h : (k - 16) / 4 < 12 then byteOf (inode.blocks ⟨(k - 16) / 4, h⟩).toUInt32.toNat (k % 4)
  else 0

/-- The inode whose bytes start at an address. -/
def Inode.ofBytes (memory : Memory) (address : Nat) : Inode where
  id := word32 memory address
  type := word16 memory (address + 4)
  nlink := word16 memory (address + 6)
  device := word32 memory (address + 8)
  size := word32 memory (address + 12)
  blocks i := word32 memory (address + 16 + 4 * i.val)

/-- `struct dirent`. -/
structure Dirent where
  inodeNum : Nat
  name : Fin 32 → UInt8

/-- The test both searches of the directory make on an entry. -/
def Dirent.matches (entry : Dirent) (filename : CString) : Bool :=
  strncmp (List.ofFn entry.name) (filename.chars ++ [0]) (filename.chars.length + 1) = 0

/-- The bytes of a directory entry. -/
def Dirent.bytes (entry : Dirent) : List UInt8 :=
  (List.range 4).map (byteOf (entry.inodeNum % 2 ^ 32)) ++ List.ofFn entry.name

/-- The states of an open-file-table entry. -/
inductive FState where
  | closed
  | opened
deriving DecidableEq

/-- `struct filetable`; `de` is the index of the directory entry. -/
structure FileTable where
  state : FState
  fileptr : Int32
  de : Option Nat
  inode : Inode

/-- `struct fsystem`. -/
structure Fsystem where
  nblocks : Int32
  blocksz : Int32
  ninodes : Int32
  inodesUsed : Nat
  freemaskbytes : Int32
  freemask : Region
  rootDir : List Dirent

/-- One call of `bs_bread` or `bs_bwrite`, as its arguments name it. -/
structure Transfer where
  write : Bool
  block : Int
  offset : Int
  len : Int
deriving DecidableEq

/-- The globals of the file system and the record of its transfers. -/
structure State where
  device : Device
  fsd : Fsystem
  blockCache : Memory
  oft : Fin 16 → FileTable
  nextOpenFd : Nat
  transfers : List Transfer

/-- `sizeof(block_cache)`. -/
def blockCacheSize : Nat := 512

/-- Statically allocated memory starts as zeros. -/
def zeroInode : Inode := ⟨0, 0, 0, 0, 0, fun _ => 0⟩

def zeroTable : FileTable := ⟨.closed, 0, none, zeroInode⟩

def boot : State where
  device := ⟨0, 0, ⟨0, 0, fun _ => 0⟩⟩
  fsd := ⟨0, 0, 0, 0, 0, ⟨0, 0, fun _ => 0⟩, []⟩
  blockCache := fun _ => 0
  oft := fun _ => zeroTable
  nextOpenFd := 0
  transfers := []

/-- `bs_bread` as `fs.c` calls it, on the device `dev0`. -/
def State.bread (s : State) (block offset : Int) (buf : Memory) (extent : Option Nat) (len : Int) :
    Option (Memory × State) := do
  let (_, buf) ← bsBread s.device 0 block offset buf extent len
  some (buf, { s with transfers := s.transfers ++ [⟨false, block, offset, len⟩] })

/-- `bs_bwrite` as `fs.c` calls it. Its answer is not looked at. -/
def State.bwrite (s : State) (block offset : Int) (buf : Memory) (extent : Option Nat) (len : Int) :
    Option State := do
  let (_, device) ← bsBwrite s.device 0 block offset buf extent len
  some { s with device := device, transfers := s.transfers ++ [⟨true, block, offset, len⟩] }

/-- `INODES_PER_BLOCK`, an unsigned quotient. -/
def Fsystem.inodesPerBlock (fsd : Fsystem) : Nat := unsigned fsd.blocksz.toInt / sizeofInode

/-- `NUM_INODE_BLOCKS`, where the previous quotient is not zero. -/
def Fsystem.numInodeBlocks (fsd : Fsystem) : Nat :=
  if unsigned fsd.ninodes.toInt % fsd.inodesPerBlock = 0 then
    unsigned fsd.ninodes.toInt / fsd.inodesPerBlock
  else unsigned fsd.ninodes.toInt / fsd.inodesPerBlock + 1

/-- The block number computed for an inode. -/
def Fsystem.inodeBlock (fsd : Fsystem) (number : Int) : Int :=
  wrap (wrap (unsigned number / fsd.inodesPerBlock : Nat) + firstInodeBlock)

/-- The byte offset of an inode inside its block. -/
def Fsystem.inodeOff (fsd : Fsystem) (number : Int) : Int :=
  wrap ((unsigned number % fsd.inodesPerBlock * sizeofInode : Nat) : Int)

/-- An inode copied to or from the block cache stays inside it. -/
def CacheHolds (offset : Int) : Prop := 0 ≤ offset ∧ offset + sizeofInode ≤ blockCacheSize

instance (offset : Int) : Decidable (CacheHolds offset) := inferInstanceAs (Decidable (_ ∧ _))

/-- `fs_get_inode_by_num`. Whether the target pointer is usable is for the caller
to say, since it is used only after the checks. -/
def fsGetInodeByNum (s : State) (dev number : Int) : Option (Except Failure Inode × State) :=
  if dev ≠ 0 then some (.error .unsupportedDevice, s)
  else if s.fsd.ninodes.toInt < number then
    some (.error (.inodeOutOfRange "fs_get_inode_by_num" number), s)
  else if s.fsd.inodesPerBlock = 0 then none
  else do
    let (cache, s) ← s.bread (s.fsd.inodeBlock number) 0 s.blockCache (some blockCacheSize)
      s.fsd.blocksz.toInt
    let s := { s with blockCache := cache }
    if CacheHolds (s.fsd.inodeOff number) then
      some (.ok (Inode.ofBytes s.blockCache (s.fsd.inodeOff number).toNat), s)
    else none

/-- `fs_put_inode_by_num`: read the block, replace the inode in it, write it back. -/
def fsPutInodeByNum (s : State) (dev number : Int) (inode : Inode) :
    Option (Return × State) :=
  if dev ≠ 0 then some (.error .unsupportedDevice, s)
  else if s.fsd.ninodes.toInt < number then
    some (.error (.inodeOutOfRange "fs_put_inode_by_num" number), s)
  else if s.fsd.inodesPerBlock = 0 then none
  else do
    let (cache, s) ← s.bread (s.fsd.inodeBlock number) 0 s.blockCache (some blockCacheSize)
      s.fsd.blocksz.toInt
    if CacheHolds (s.fsd.inodeOff number) then do
      let cache := copy cache (s.fsd.inodeOff number).toNat inode.bytes sizeofInode
      let s := { s with blockCache := cache }
      let s ← s.bwrite (s.fsd.inodeBlock number) 0 s.blockCache (some blockCacheSize)
        s.fsd.blocksz.toInt
      some (.ok OK, s)
    else none

/-- The byte of the mask that holds a block's bit, and the bit's weight there.
The lowest block of a byte is its high-order bit. -/
def maskByte (block : Int) : Int := block.tdiv 8

def maskWeight (block : Int) : UInt8 := 0x80 >>> UInt8.ofNat (block.tmod 8).toNat

/-- Access to a byte of the free mask. -/
def Fsystem.maskHolds (fsd : Fsystem) (block : Int) : Prop := fsd.freemask.Holds (maskByte block) 1

instance (fsd : Fsystem) (block : Int) : Decidable (fsd.maskHolds block) :=
  inferInstanceAs (Decidable (fsd.freemask.Holds _ _))

/-- One byte of the mask replaced. -/
def Fsystem.setMaskByte (fsd : Fsystem) (block : Int) (byte : UInt8) : Fsystem :=
  { fsd with
    freemask := { fsd.freemask with
      bytes := Function.update fsd.freemask.bytes (maskByte block).toNat byte } }

/-- `fs_setmaskbit`. -/
def fsSetmaskbit (fsd : Fsystem) (block : Int) : Option Fsystem :=
  if fsd.maskHolds block then
    some (fsd.setMaskByte block (fsd.freemask.bytes (maskByte block).toNat ||| maskWeight block))
  else none

/-- `fs_getmaskbit`: shift the bit to the top, mask it, shift it down. -/
def fsGetmaskbit (fsd : Fsystem) (block : Int) : Option UInt8 :=
  if fsd.maskHolds block then
    some (((fsd.freemask.bytes (maskByte block).toNat <<< UInt8.ofNat (block.tmod 8).toNat) &&&
      0x80) >>> 7)
  else none

/-- `fs_clearmaskbit`. -/
def fsClearmaskbit (fsd : Fsystem) (block : Int) : Option Fsystem :=
  if fsd.maskHolds block then
    some (fsd.setMaskByte block
      (fsd.freemask.bytes (maskByte block).toNat &&& ~~~ (maskWeight block)))
  else none

/-- The bytes of the superblock image: six words, the entry count, and sixteen
entries, of which those not yet made are zeros. -/
def Fsystem.bytes (fsd : Fsystem) : List UInt8 :=
  let word (value : Nat) : List UInt8 := (List.range 4).map (byteOf value)
  let entries := fsd.rootDir.flatMap Dirent.bytes
  word fsd.nblocks.toUInt32.toNat ++ word fsd.blocksz.toUInt32.toNat ++
    word fsd.ninodes.toUInt32.toNat ++ word (fsd.inodesUsed % 2 ^ 32) ++
    word fsd.freemaskbytes.toUInt32.toNat ++ word fsd.freemask.address.toNat ++
    word (fsd.rootDir.length % 2 ^ 32) ++ entries ++ List.replicate (576 - entries.length) 0

/-- `sizeof(struct fsystem)`. -/
def sizeofFsystem : Nat := 604

/-- `while ((i % 8) != 0) {i++;}`, at most seven times round. -/
def roundToByte : Nat → Int → Int
  | 0, i => i
  | turns + 1, i => if i.tmod 8 ≠ 0 then roundToByte turns (wrap (i + 1)) else i

/-- The sizes `fs_mkfs` enters into the superblock before it asks for the mask. -/
def Fsystem.sized (fsd : Fsystem) (device : Device) (numInodes : Int32) : Fsystem :=
  { fsd with
    nblocks := device.numblocks
    blocksz := device.blocksize
    ninodes := if numInodes.toInt < 1 then defaultNumInodes else numInodes
    freemaskbytes := Int32.ofInt ((roundToByte 7 device.numblocks.toInt).tdiv 8) }

/-- The superblock after the allocation and clearing of the mask. -/
def Fsystem.formatted (fsd : Fsystem) (chunk : Chunk) : Fsystem :=
  { fsd with
    freemask := ⟨roundmb (unsigned fsd.freemaskbytes.toInt), chunk.address,
      fun k => if (k : Int) < fsd.freemaskbytes.toInt then 0 else chunk.bytes k⟩
    inodesUsed := 0 }

/-- `fs_mkfs`. The directory, the open-file table and the next descriptor are
not touched. -/
def fsMkfs (s : State) (answers : Answers) (dev numInodes : Int32) : Option (Return × State) :=
  if dev ≠ 0 then some (.error .unsupportedDevice, s)
  else
    let fsd := s.fsd.sized s.device numInodes
    match getmem answers 0 fsd.freemaskbytes.toInt with
    | none => some (.error .mkfsMemgetFailed, { s with fsd := { fsd with freemask := .failed } })
    | some chunk => do
      let fsd ← fsSetmaskbit (fsd.formatted chunk) sbBlk
      let s := { s with fsd := fsd }
      let s ← s.bwrite sbBlk 0 (fun k => fsd.bytes.getD k 0) (some sizeofFsystem) sizeofFsystem
      let fsd ← fsSetmaskbit s.fsd bmBlk
      let s := { s with fsd := fsd }
      let s ← s.bwrite bmBlk 0 fsd.freemask.bytes (some fsd.freemask.size) fsd.freemaskbytes.toInt
      some (.ok 1, s)

end Xinu.FileSystem
