import Xinu.FileSystem
import Xinu.Runs

/-!
# The file-system calls

Each call takes the state, the answers of the memory allocator and its own
arguments, and returns its value with the next state, or no outcome where the
source has undefined behaviour. The order of the checks is the order of the
source, since some of them come after partial updates.

A caller's buffer is the memory from its pointer on. `fs_write` reads from it
and `fs_read` stores into it at the positions its chunk sizes add up to, inside
the requested length or not.
-/

namespace Xinu.FileSystem

open CIntegers BlockStore

/-- `O_CREAT`, `O_RDONLY`, `O_WRONLY` and `O_RDWR`. -/
def oCreat : Int32 := 11
def oRdonly : Int32 := 0
def oWronly : Int32 := 1
def oRdwr : Int32 := 2

/-- `sizeof(struct dirent)`. -/
def sizeofDirent : Nat := 36

/-- The loop over the directory: the first entry carrying the name, with its
index. -/
def lookup (filename : CString) : Nat → List Dirent → Option (Nat × Dirent)
  | _, [] => none
  | i, entry :: rest =>
    if entry.matches filename then some (i, entry) else lookup filename (i + 1) rest

/-- One entry of the open-file table replaced. -/
def State.setOft (s : State) (d : Fin 16) (entry : FileTable) : State :=
  { s with oft := Function.update s.oft d entry }

/-- `oft[fd]` for a descriptor already known to be below `NUM_FD`; a negative
index lies outside the table. -/
def oftIndex (fd : Int32) : Option (Fin 16) :=
  if h : 0 ≤ fd.toInt ∧ fd.toInt < 16 then some ⟨fd.toInt.toNat, by omega⟩ else none

/-- `fs_open`. The descriptor is taken before the inode is read and is not given
back on the two exits after that. -/
def fsOpen (s : State) (answers : Answers) (filename : CString) (flags : Int32) :
    Option (Return × State) :=
  if filenameLen < filename.chars.length + 1 then some (.error .filenameTooLong, s)
  else if flags ≠ oRdonly ∧ flags ≠ oWronly ∧ flags ≠ oRdwr then
    some (.error .unsupportedFlag, s)
  else
    match lookup filename 0 s.fsd.rootDir with
    | none => some (.error (.fileNotExists filename.chars), s)
    | some (i, entry) =>
      if taken : s.nextOpenFd < 16 then do
        let fd : Fin 16 := ⟨s.nextOpenFd, taken⟩
        let s := { s with nextOpenFd := s.nextOpenFd + 1 }
        let (found, s) ← fsGetInodeByNum s 0 entry.inodeNum
        match found with
        | .error failure => some (.error (.getInodeFailed failure), s)
        | .ok inode => do
          let _ ← getmem answers 0 sizeofInode
          if inode.size = 0 ∧ flags = oRdonly then some (.error .readOnlyOnEmptyFile, s)
          else
            let filePtr := if inode.size ≠ 0 ∧ flags = oWronly then inode.size else 0
            some (.ok fd.val, s.setOft fd ⟨.opened, filePtr, some i, inode⟩)
      else some (.error .openedFilesExceedMaximum, s)

/-- `fs_close`. -/
def fsClose (s : State) (fd : Int32) : Option (Return × State) :=
  if (numFd : Int) ≤ fd.toInt then some (.error .invalidDescriptor, s)
  else do
    let d ← oftIndex fd
    if (s.oft d).state ≠ .opened then some (.error .fileNotOpened, s)
    else some (.ok OK, s.setOft d { s.oft d with state := .closed })

/-- The inode `fs_create` fills in: the fields it does not set keep what the
allocated memory held. -/
def freshInode (chunk : Chunk) (id : Nat) : Inode :=
  { Inode.ofBytes chunk.bytes 0 with
    id := Int32.ofInt id
    type := inodeTypeFile
    device := 0
    size := 0 }

/-- The directory entry `fs_create` fills in: `strncpy` writes the name and its
NUL, the rest of the name field keeps what the memory held. -/
def freshDirent (chunk : Chunk) (id : Nat) (filename : CString) : Dirent where
  inodeNum := id
  name k := (filename.chars ++ [0]).getD k.val (chunk.bytes (4 + k.val))

/-- `fs_create`. -/
def fsCreate (s : State) (answers : Answers) (filename : CString) (mode : Int32) :
    Option (Return × State) :=
  if filenameLen < filename.chars.length + 1 then some (.error .filenameTooLong, s)
  else if mode ≠ oCreat then some (.error .unsupportedMode, s)
  else if (lookup filename 0 s.fsd.rootDir).isSome then some (.error .filenameExists, s)
  else if directorySize ≤ s.fsd.rootDir.length then some (.error .dirEntriesExceedMaximum, s)
  else
    match getmem answers 0 sizeofInode with
    | none => some (.error .inodeGetmemFailed, s)
    | some chunk => do
      let id := s.fsd.inodesUsed
      let s := { s with fsd := { s.fsd with inodesUsed := s.fsd.inodesUsed + 1 } }
      let (put, s) ← fsPutInodeByNum s 0 id (freshInode chunk id)
      match put with
      | .error failure => some (.error (.putInodeFailed failure), s)
      | .ok _ =>
        match getmem answers 1 sizeofDirent with
        | none => some (.error .direntGetmemFailed, s)
        | some chunk => do
          let entry := freshDirent chunk id filename
          let s := { s with fsd := { s.fsd with rootDir := s.fsd.rootDir ++ [entry] } }
          let (fd, s) ← fsOpen s (fun k => answers (k + 2)) filename oRdwr
          match fd with
          | .error failure => some (.error (.openFailed failure), s)
          | .ok fd => some (.ok fd, s)

/-- `fs_seek`, relative to the current position. -/
def fsSeek (s : State) (answers : Answers) (fd offset : Int32) : Option (Return × State) :=
  if (numFd : Int) ≤ fd.toInt then some (.error .invalidDescriptor, s)
  else do
    let d ← oftIndex fd
    if (s.oft d).state ≠ .opened then some (.error .fileNotOpen, s)
    else do
      let _ ← getmem answers 0 sizeofInode
      let filePtr := wrap ((s.oft d).fileptr.toInt + offset.toInt)
      if filePtr < 0 ∨ (s.oft d).inode.size.toInt < filePtr then some (.error .invalidOffset, s)
      else some (.ok OK, s.setOft d { s.oft d with fileptr := Int32.ofInt filePtr })

/-- The index of the last block below a position: the quotient, less one at a
block boundary. -/
def blockBefore (position blocksz : Int) : Int :=
  if position.tmod blocksz = 0 then wrap (position.tdiv blocksz - 1)
  else position.tdiv blocksz

/-- An index inside of the array of blocks. -/
def blockIndex (i : Int) (inside : 0 ≤ i ∧ i < 12) : Fin 12 := ⟨i.toNat, by omega⟩

/-- `inode.blocks[i]`; an index outside the array has no outcome. -/
def Inode.block (inode : Inode) (i : Int) : Option Int32 :=
  if h : 0 ≤ i ∧ i < 12 then some (inode.blocks (blockIndex i h)) else none

/-- `inode.blocks[i] = block`. -/
def Inode.setBlock (inode : Inode) (i : Int) (block : Int) : Option Inode :=
  if h : 0 ≤ i ∧ i < 12 then
    some { inode with
      blocks := Function.update inode.blocks (blockIndex i h) (Int32.ofInt block) }
  else none

/-- Offset and size of the chunk for block `i`, as both transfer loops choose
them. -/
def chunkOf (blocksz fileptr newSize start last i : Int) : Int × Int :=
  if i = start + 1 then (fileptr.tmod blocksz, blocksz - fileptr.tmod blocksz)
  else if i = last then (0, newSize.tmod blocksz)
  else (0, blocksz)

/-- The read loop of `fs_read`, with the number of turns left, the block index
and the position in the caller's buffer. -/
def readBlocks (inode : Inode) (fileptr newSize start last : Int) :
    Nat → Int → Int → Memory → State → Option (Memory × State)
  | 0, _, _, buf, s => some (buf, s)
  | turns + 1, i, pos, buf, s => do
    let block ← inode.block i
    let (offset, size) := chunkOf s.fsd.blocksz.toInt fileptr newSize start last i
    if pos < 0 then none
    else do
      let (chunk, s) ← s.bread block.toInt offset (shift buf pos.toNat) none size
      readBlocks inode fileptr newSize start last turns (i + 1) (pos + size)
        (copy buf pos.toNat chunk size.toNat) s

/-- The write loop of `fs_write`. -/
def writeBlocks (inode : Inode) (fileptr newSize start last : Int) (buf : Memory) :
    Nat → Int → Int → State → Option State
  | 0, _, _, s => some s
  | turns + 1, i, pos, s => do
    let block ← inode.block i
    let (offset, size) := chunkOf s.fsd.blocksz.toInt fileptr newSize start last i
    if pos < 0 then none
    else do
      let s ← s.bwrite block.toInt offset (shift buf pos.toNat) none size
      writeBlocks inode fileptr newSize start last buf turns (i + 1) (pos + size) s

/-- `fs_read`: the value, the caller's buffer afterwards, and the next state. -/
def fsRead (s : State) (answers : Answers) (fd : Int32) (buf : Memory) (nbytes : Int32) :
    Option (Return × Memory × State) :=
  if (numFd : Int) ≤ fd.toInt then some (.error .invalidDescriptor, buf, s)
  else if nbytes.toInt ≤ 0 then some (.ok 0, buf, s)
  else do
    let d ← oftIndex fd
    if (s.oft d).state ≠ .opened then some (.error .fileNotOpened, buf, s)
    else do
      let _ ← getmem answers 0 sizeofInode
      let fileptr := (s.oft d).fileptr.toInt
      let fileSize := (s.oft d).inode.size.toInt
      let sum := wrap (fileptr + nbytes.toInt)
      let count := if fileSize < sum then wrap (fileSize - fileptr) else nbytes.toInt
      let newSize := if fileSize < sum then fileSize else sum
      let blocksz := s.fsd.blocksz.toInt
      if blocksz = 0 then none
      else do
        let start := blockBefore fileptr blocksz
        let last := blockBefore newSize blocksz
        let (buf, s) ← readBlocks (s.oft d).inode fileptr newSize start last
          (last - start).toNat (start + 1) 0 buf s
        some (.ok count, buf, s.setOft d { s.oft d with fileptr := Int32.ofInt newSize })

/-- The search for a free block from `j` on, with the number of blocks left. The
block count itself is the answer when none is free. -/
def findFree (fsd : Fsystem) : Nat → Int → Option Int
  | 0, j => some j
  | left + 1, j => do
    let bit ← fsGetmaskbit fsd j
    if bit = 0 then some j else findFree fsd left (j + 1)

/-- The first data block, where the search starts. -/
def Fsystem.firstDataBlock (fsd : Fsystem) : Int :=
  wrap (firstInodeBlock + fsd.numInodeBlocks)

/-- One search of the mask as `fs_write` makes it. -/
def freeBlock (fsd : Fsystem) : Option Int :=
  if fsd.inodesPerBlock = 0 then none
  else findFree fsd (fsd.nblocks.toInt - fsd.firstDataBlock).toNat fsd.firstDataBlock

/-- The allocation loop of `fs_write`, on the private copy of the inode. The
mask bits of the blocks taken so far stay set when it runs out. -/
def allocBlocks : Nat → Int → Inode → Fsystem → Option (Option Inode × Fsystem)
  | 0, _, inode, fsd => some (some inode, fsd)
  | turns + 1, i, inode, fsd => do
    let j ← freeBlock fsd
    if j = fsd.nblocks.toInt then some (none, fsd)
    else do
      let fsd ← fsSetmaskbit fsd j
      let inode ← inode.setBlock i j
      allocBlocks turns (i + 1) inode fsd

/-- `fs_write`. -/
def fsWrite (s : State) (answers : Answers) (fd : Int32) (buf : Memory) (nbytes : Int32) :
    Option (Return × State) :=
  if (numFd : Int) ≤ fd.toInt then some (.error .invalidDescriptor, s)
  else if nbytes.toInt ≤ 0 then some (.ok 0, s)
  else do
    let d ← oftIndex fd
    if (s.oft d).state ≠ .opened then some (.error .fileNotOpened, s)
    else do
      let _ ← getmem answers 0 sizeofInode
      let inode := (s.oft d).inode
      let fileptr := (s.oft d).fileptr.toInt
      let newSize := wrap (fileptr + nbytes.toInt)
      let blocksz := s.fsd.blocksz.toInt
      if wrap (blocksz * inodeBlocks) ≤ newSize then some (.error .noEnoughSpace, s)
      else if blocksz = 0 then none
      else do
        let start := blockBefore fileptr blocksz
        let last := blockBefore newSize blocksz
        let curr := blockBefore inode.size.toInt blocksz
        let (found, fsd) ← allocBlocks (last - curr).toNat (curr + 1) inode s.fsd
        let s := { s with fsd := fsd }
        match found with
        | none => some (.error .noBlockEmpty, s)
        | some inode => do
          let s ← writeBlocks inode fileptr newSize start last buf
            (last - start).toNat (start + 1) 0 s
          let size := if inode.size.toInt < newSize then Int32.ofInt newSize else inode.size
          some (.ok nbytes.toInt, s.setOft d
            { s.oft d with fileptr := Int32.ofInt newSize, inode := { inode with size := size } })

/-- The calls of the block store and the file system, with the answers of the
allocator during the call. -/
inductive Call where
  | mkdev (answers : Answers) (dev blocksize numblocks : Int32)
  | mkfs (answers : Answers) (dev numInodes : Int32)
  | create (answers : Answers) (filename : CString) (mode : Int32)
  | «open» (answers : Answers) (filename : CString) (flags : Int32)
  | close (fd : Int32)
  | seek (answers : Answers) (fd offset : Int32)
  | read (answers : Answers) (fd : Int32) (buf : Memory) (nbytes : Int32)
  | write (answers : Answers) (fd : Int32) (buf : Memory) (nbytes : Int32)

/-- What a call returns; a read also leaves its buffer behind. -/
structure Reply where
  value : Return
  buf : Option Memory

/-- One call of the system. -/
def exec (s : State) : Call → Option (Reply × State)
  | .mkdev answers dev blocksize numblocks =>
    let (value, device) := bsMkdev s.device answers dev blocksize numblocks
    some (⟨value, none⟩, { s with device := device })
  | .mkfs answers dev numInodes =>
    (fsMkfs s answers dev numInodes).map fun (value, s) => (⟨value, none⟩, s)
  | .create answers filename mode =>
    (fsCreate s answers filename mode).map fun (value, s) => (⟨value, none⟩, s)
  | .open answers filename flags =>
    (fsOpen s answers filename flags).map fun (value, s) => (⟨value, none⟩, s)
  | .close fd => (fsClose s fd).map fun (value, s) => (⟨value, none⟩, s)
  | .seek answers fd offset =>
    (fsSeek s answers fd offset).map fun (value, s) => (⟨value, none⟩, s)
  | .read answers fd buf nbytes =>
    (fsRead s answers fd buf nbytes).map fun (value, buf, s) => (⟨value, some buf⟩, s)
  | .write answers fd buf nbytes =>
    (fsWrite s answers fd buf nbytes).map fun (value, s) => (⟨value, none⟩, s)

/-- An allocator that grants every request with cleared memory. Together with
`fileA` and `device16` it serves the concrete runs recorded next to the general
laws. -/
def granting : Answers := fun _ => some ⟨0x1000, fun _ => 0⟩

/-- The file name `a`. -/
def fileA : CString := ⟨[97], by decide⟩

/-- Make a device of sixteen 512-byte blocks and format it for `numInodes`
inodes. -/
def device16 (numInodes : Int32) : List Call :=
  [.mkdev granting 0 512 16, .mkfs granting 0 numInodes]

end Xinu.FileSystem
