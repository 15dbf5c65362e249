import Xinu.CIntegers

/-!
# The memory block store

`bs.c` keeps one device in a single allocation. A block is a byte range of that
allocation; reading and writing check the device number and the offset, and
nothing else. A transfer that runs over the end of its block therefore lands in
the next one, and only a transfer that leaves the allocation has no defined
outcome. The block size and the block count may be any `int` values for which
the allocation succeeds, and their product is taken modulo `2 ^ 32`.

`getmem` is represented by its answer: the address and the old contents of the
memory it hands out, or `SYSERR`. A request for zero bytes is always refused,
and a granted request owns its size rounded up as `getmem` rounds it.
-/

namespace Xinu.BlockStore

open CIntegers

/-- The exits with which the calls of `bs.c` and `fs.c` return `SYSERR`. An exit
taken because an inner call failed carries that call's own exit. -/
inductive Failure where
  | unsupportedDevice
  | unsupportedDeviceNumber (dev : Int)
  | mkbsdevMemgetFailed
  | badOffset
  | inodeOutOfRange (caller : String) (number : Int)
  | mkfsMemgetFailed
  | filenameTooLong
  | unsupportedFlag
  | fileNotExists (filename : List UInt8)
  | openedFilesExceedMaximum
  | getInodeFailed (cause : Failure)
  | readOnlyOnEmptyFile
  | invalidDescriptor
  | fileNotOpened
  | fileNotOpen
  | unsupportedMode
  | filenameExists
  | dirEntriesExceedMaximum
  | inodeGetmemFailed
  | putInodeFailed (cause : Failure)
  | direntGetmemFailed
  | openFailed (cause : Failure)
  | invalidOffset
  | noEnoughSpace
  | noBlockEmpty
deriving DecidableEq

/-- The text printed on the way to each exit, spelled as in the source. -/
def Failure.message : Failure → String
  | unsupportedDevice => "Unsupported device\n"
  | unsupportedDeviceNumber dev => "Unsupported device: " ++ toString dev ++ "\n"
  | mkbsdevMemgetFailed => "mkbsdev memgetfailed\n"
  | badOffset => "Bad offset\n"
  | inodeOutOfRange caller number =>
    caller ++ ": inode " ++ toString number ++ " out of range\n"
  | mkfsMemgetFailed => "fs_mkfs memget failed.\n"
  | filenameTooLong => "filename too long!\n"
  | unsupportedFlag => "Unsupported flag!\n"
  | fileNotExists filename =>
    "file not exists: " ++ String.ofList (filename.map fun c => Char.ofNat c.toNat) ++ "\n"
  | openedFilesExceedMaximum => "number of opened files exceeds maximum!\n"
  | getInodeFailed cause => cause.message ++ "fs_get_indode_by_num failed!\n"
  | readOnlyOnEmptyFile => "read only not allowed on empty file!\n"
  | invalidDescriptor => "Invalid file descriptor!\n"
  | fileNotOpened => "file not opened!\n"
  | fileNotOpen => "file not open!"
  | unsupportedMode => "Unsupported mode!\n"
  | filenameExists => "filename already exists!\n"
  | dirEntriesExceedMaximum => "number of dir entries exceeds maximum!\n"
  | inodeGetmemFailed => "inode getmem fialed!\n"
  | putInodeFailed cause => cause.message ++ "fs_put_indode_by_num failed!\n"
  | direntGetmemFailed => "dirent getmem failed!\n"
  | openFailed cause => cause.message ++ "fs_open failed!\n"
  | invalidOffset => "Invalid offset!\n"
  | noEnoughSpace => "no enough space for new content!\n"
  | noBlockEmpty => "no block is empty!\n"

/-- What a call hands back: a value, or `SYSERR` after its diagnostic. -/
abbrev Return := Except Failure Int

/-- `OK` of `kernel.h`. -/
def OK : Int := 1

/-- Memory handed out by `getmem`, with whatever it held before. -/
structure Chunk where
  address : UInt32
  bytes : Memory

/-- The answers `getmem` gives to the successive requests of one call; `none` is
`SYSERR`. -/
abbrev Answers := Nat → Option Chunk

/-- The `k`-th request of a call, for an `int` number of bytes. -/
def getmem (answers : Answers) (k : Nat) (nbytes : Int) : Option Chunk :=
  if unsigned nbytes = 0 then none else answers k

/-- `roundmb` of `memory.h`, on 32-bit sizes. -/
def roundmb (size : Nat) : Nat := (7 + size) % 2 ^ 32 / 8 * 8

/-- An allocation: its usable size, its address and its contents. A pointer that
is `NULL` or `SYSERR` denotes a region without bytes. -/
structure Region where
  size : Nat
  address : UInt32
  bytes : Memory

/-- The bytes a transfer touches belong to the region. An empty transfer touches
none of them. -/
def Region.Holds (region : Region) (address : Int) (len : Nat) : Prop :=
  len = 0 ∨ 0 ≤ address ∧ address + len ≤ region.size

instance (region : Region) (address : Int) (len : Nat) : Decidable (region.Holds address len) :=
  inferInstanceAs (Decidable (_ ∨ _))

/-- The pointer a failed `getmem` leaves behind. -/
def Region.failed : Region := ⟨0, 0xFFFFFFFF, fun _ => 0⟩

/-- `dev0_numblocks`, `dev0_blocksize` and `dev0_blocks`. -/
structure Device where
  numblocks : Int32
  blocksize : Int32
  blocks : Region

/-- `MDEV_BLOCK_SIZE` and `MDEV_NUM_BLOCKS` of `fs.h`. -/
def mdevBlockSize : Int32 := 512
def mdevNumBlocks : Int32 := 512

/-- `bs_mkdev`: a zero size or count selects the default. The geometry is stored
before the allocation is attempted, so it changes on failure as well. -/
def bsMkdev (device : Device) (answers : Answers) (dev blocksize numblocks : Int32) :
    Return × Device :=
  if dev ≠ 0 then (.error (.unsupportedDeviceNumber dev.toInt), device)
  else
    let blocksize := if blocksize ≠ 0 then blocksize else mdevBlockSize
    let numblocks := if numblocks ≠ 0 then numblocks else mdevNumBlocks
    let nbytes := wrap (numblocks.toInt * blocksize.toInt)
    match getmem answers 0 nbytes with
    | none => (.error .mkbsdevMemgetFailed, ⟨numblocks, blocksize, .failed⟩)
    | some chunk =>
      (.ok OK, ⟨numblocks, blocksize, ⟨roundmb (unsigned nbytes), chunk.address, chunk.bytes⟩⟩)

/-- The checks and the address computation shared by `bs_bread` and `bs_bwrite`.
The product of block and block size is an `int`. -/
def bbase (device : Device) (dev block offset : Int) : Except Failure Int :=
  if dev ≠ 0 then .error .unsupportedDevice
  else if device.blocksize.toInt ≤ offset then .error .badOffset
  else .ok (wrap (block * device.blocksize.toInt) + offset)

/-- `bs_bread` into memory of which at most `extent` bytes belong to the target
object; `none` for a caller's buffer, whose extent is not known here. A transfer
outside the device or the target has no outcome. -/
def bsBread (device : Device) (dev block offset : Int) (buf : Memory) (extent : Option Nat)
    (len : Int) : Option (Return × Memory) :=
  match bbase device dev block offset with
  | .error failure => some (.error failure, buf)
  | .ok address =>
    if device.blocks.Holds address len.toNat ∧ ∀ room ∈ extent, len.toNat ≤ room then
      some (.ok OK, copy buf 0 (shift device.blocks.bytes address.toNat) len.toNat)
    else none

/-- `bs_bwrite` from memory of which `extent` bytes belong to the source object. -/
def bsBwrite (device : Device) (dev block offset : Int) (buf : Memory) (extent : Option Nat)
    (len : Int) : Option (Return × Device) :=
  match bbase device dev block offset with
  | .error failure => some (.error failure, device)
  | .ok address =>
    if device.blocks.Holds address len.toNat ∧ ∀ room ∈ extent, len.toNat ≤ room then
      let bytes := copy device.blocks.bytes address.toNat buf len.toNat
      some (.ok OK, { device with blocks := { device.blocks with bytes := bytes } })
    else none

end Xinu.BlockStore
