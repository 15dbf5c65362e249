import Xinu.CStrings
import Xinu.WordMemory
import Xinu.Runs

/-!
# The local file system

A disk of 512-byte sectors holds a directory in sector 0, index blocks behind it, seven to a sector,
and data blocks. Free index blocks and free data blocks are linked through the blocks themselves. A
file is a chain of index blocks, each with pointers to sixteen data blocks. An open file keeps one
index block and one data block in memory, with flags that tell whether they have changed, and the
directory is kept in memory from the first open on.

The calls are modelled one after another, so that the semaphores do not appear. Every read of the disk
returns what was last written to the sector. Numbers of blocks are 32-bit words, and the null pointer
is the word of all ones. Where the code calls `panic`, or where a loop does not end, a call fails. The
access mode of an open file is left out: no function reads it. Beside the control blocks the system
records whether a file was added to the directory since the directory was last written.
-/

namespace Xinu.LocalFiles

open CIntegers WordMemory

/-- `Nlfl`, and the device number of the first pseudo-device. -/
def nlfl : Nat := 6

def lfile0 : Nat := 5

/-- The sizes of `lfilesys.h`. -/
def lfBlksiz : Nat := 512

def lfNameLen : Nat := 16

def lfNumDirEnt : Nat := 20

def lfIdata : UInt32 := 8192

def lfImask : UInt32 := 0x1fff

def lfDmask : UInt32 := 0x1ff

/-- `LF_AREA_IB` and `LF_AREA_DIR`. -/
def lfAreaIb : Nat := 1

def lfAreaDir : Nat := 0

/-- `LF_INULL` and `LF_DNULL`. -/
def lfInull : UInt32 := 0xffffffff

def lfDnull : UInt32 := 0xffffffff

/-- `SYSERR`, `OK` and `EOF`, as what the calls return. -/
def syserr : Int := -1

def ok : Int := 1

def eof : Int := -2

/-- The sectors of a disk. -/
abbrev Disk := Nat → Memory

/-- `struct lfiblk`. -/
structure Lfiblk where
  ibNext : UInt32
  ibOffset : UInt32
  ibDba : Fin 16 → UInt32

theorem mod_sixteen_lt (index : Nat) : index % 16 < 16 := Nat.mod_lt index (by decide)

/-- An index into the pointers of an index block. -/
def pointerIndex (index : Nat) : Fin 16 := ⟨index % 16, mod_sixteen_lt index⟩

/-- The words of an index block, in order. -/
def Lfiblk.word (iblock : Lfiblk) : Nat → UInt32
  | 0 => iblock.ibNext
  | 1 => iblock.ibOffset
  | index + 2 => iblock.ibDba (pointerIndex index)

/-- The bytes of an index block. -/
def Lfiblk.bytes (iblock : Lfiblk) : Memory := fun k => byteOf (iblock.word (k / 4)).toNat (k % 4)

/-- `sizeof(struct lfiblk)`. -/
def iblkSize : Nat := 72

/-- `ib2sect` and `ib2disp`. -/
def ib2sect (ib : UInt32) : Nat := ib.toNat / 7 + lfAreaIb

def ib2disp (ib : UInt32) : Nat := ib.toNat % 7 * iblkSize

/-- `lfibclear`. -/
def lfibclear (offset : UInt32) : Lfiblk := ⟨lfInull, offset, fun _ => lfDnull⟩

/-- `lfibget`. -/
def lfibget (disk : Disk) (inum : UInt32) : Lfiblk :=
  let dbuff := disk (ib2sect inum)
  let from_ := ib2disp inum
  ⟨load dbuff from_, load dbuff (from_ + 4), fun i => load dbuff (from_ + 8 + 4 * i)⟩

/-- `lfibput`. -/
def lfibput (disk : Disk) (inum : UInt32) (ibuff : Lfiblk) : Disk :=
  let dbuff := disk (ib2sect inum)
  Function.update disk (ib2sect inum) (copy dbuff (ib2disp inum) ibuff.bytes iblkSize)

/-- `struct lfdir`: the heads of the two free lists, the number of files, and the entries. -/
def lfdDfree (dir : Memory) : UInt32 := load dir 0

def lfdIfree (dir : Memory) : UInt32 := load dir 4

def lfdNfiles (dir : Memory) : Nat := (load dir 8).toNat

/-- The place of an entry of the directory, which is a `struct ldentry`. -/
def lfdFiles (entry : Nat) : Nat := 12 + 24 * entry

def ldSize (dir : Memory) (entry : Nat) : UInt32 := load dir (lfdFiles entry)

def ldIlist (dir : Memory) (entry : Nat) : UInt32 := load dir (lfdFiles entry + 4)

/-- The place of the name of an entry. -/
def ldName (entry : Nat) : Nat := lfdFiles entry + 8

/-- `struct lflcblk`. The position in the data block is 512 if it is not in memory. -/
structure Lflcblk where
  lfused : Bool
  lfdirptr : Nat
  lfpos : UInt32
  lfname : Memory
  lfinum : UInt32
  lfiblock : Lfiblk
  lfdnum : UInt32
  lfdblock : Memory
  lfbyte : Nat
  lfibdirty : Bool
  lfdbdirty : Bool

/-- The disk, `struct lfdata` and the control blocks of the pseudo-devices. -/
structure System where
  disk : Disk
  lfDir : Memory
  lfDirpresent : Bool
  lfDirdirty : Bool
  lfltab : Nat → Lflcblk
  fresh : Bool

/-- Why a call does not return. -/
inductive Failure where
  | panic
  | stuck
deriving DecidableEq

def System.setFile (s : System) (minor : Nat) (file : Lflcblk) : System :=
  { s with lfltab := Function.update s.lfltab minor file }

/-- `write` of the directory to the disk. -/
def System.writeDir (s : System) : System :=
  { s with disk := Function.update s.disk lfAreaDir s.lfDir, fresh := false }

/-- `lfflush`. -/
def lfflush (s : System) (minor : Nat) : System :=
  let file := s.lfltab minor
  if file.lfused = false then s
  else
    let s := if s.lfDirdirty then { s.writeDir with lfDirdirty := false } else s
    let s :=
      if file.lfdbdirty then { s with disk := Function.update s.disk file.lfdnum.toNat file.lfdblock } else s
    let s := if file.lfibdirty then { s with disk := lfibput s.disk file.lfinum file.lfiblock } else s
    s.setFile minor { file with lfdbdirty := false, lfibdirty := false }

/-- `lfiballoc`. -/
def lfiballoc (s : System) : Except Failure (UInt32 × System) :=
  let ibnum := lfdIfree s.lfDir
  if ibnum = lfInull then .error .panic
  else
    let iblock := lfibget s.disk ibnum
    let s := { s with lfDir := store s.lfDir 4 iblock.ibNext }
    .ok (ibnum, { s.writeDir with lfDirdirty := false })

/-- The character that fills a new data block. -/
def dfill : UInt8 := 43

/-- `lfdballoc`, with the buffer that holds the data block. -/
def lfdballoc (s : System) : Except Failure (UInt32 × Memory × System) :=
  let dnum := lfdDfree s.lfDir
  if dnum = lfDnull then .error .panic
  else
    let dbuff := s.disk dnum.toNat
    let s := { s with lfDir := store s.lfDir 0 (load dbuff 0) }
    .ok (dnum, copy dbuff 0 (fun _ => dfill) lfBlksiz, { s.writeDir with lfDirdirty := false })

/-- `lfdbfree`, with a buffer on the stack of which only the first word is set. -/
def lfdbfree (buf : Memory) (s : System) (dnum : UInt32) : System :=
  let buf := store buf 0 (lfdDfree s.lfDir)
  let s := { s with lfDir := store s.lfDir 0 dnum }
  { s with disk := Function.update s.disk dnum.toNat buf }.writeDir

/-- The first part of `lfsetup`: some index block of the file comes into memory. -/
def firstIblock (s : System) (minor : Nat) : Except Failure System :=
  let file := s.lfltab minor
  let ilist := ldIlist s.lfDir file.lfdirptr
  if file.lfinum = lfInull then
    if ilist = lfInull then do
      let (ibnum, s) ← lfiballoc s
      let s := { s with lfDir := store s.lfDir (lfdFiles file.lfdirptr + 4) ibnum }
      return s.setFile minor { file with lfiblock := lfibclear 0, lfibdirty := true, lfinum := ibnum }
    else .ok (s.setFile minor { file with lfiblock := lfibget s.disk ilist, lfinum := ilist })
  else if file.lfpos < file.lfiblock.ibOffset then
    .ok (s.setFile minor { file with lfiblock := lfibget s.disk ilist, lfinum := ilist })
  else .ok s

/-- A turn of the loop of `lfsetup`: the next index block comes into memory. -/
def nextIblock (s : System) (minor : Nat) : Except Failure System :=
  let file := s.lfltab minor
  let ibnum := file.lfiblock.ibNext
  if ibnum = lfInull then do
    let (ibnum, s) ← lfiballoc s
    let s := { s with disk := lfibput s.disk file.lfinum { file.lfiblock with ibNext := ibnum } }
    return s.setFile minor { file with
      lfinum := ibnum
      lfiblock := lfibclear (file.lfiblock.ibOffset + lfIdata)
      lfibdirty := true
      lfdnum := lfDnull }
  else
    .ok (s.setFile minor
      { file with lfiblock := lfibget s.disk ibnum, lfinum := ibnum, lfdnum := lfDnull })

/-- The loop of `lfsetup`. -/
def setupLoop (minor : Nat) : Nat → System → Except Failure System
  | 0, _ => .error .stuck
  | turns + 1, s =>
    if (s.lfltab minor).lfpos &&& ~~~lfImask > (s.lfltab minor).lfiblock.ibOffset then do
      let s ← nextIblock s minor
      setupLoop minor turns s
    else .ok s

/-- The last part of `lfsetup`: the data block comes into memory. -/
def setDblock (s : System) (minor : Nat) : Except Failure System :=
  let file := s.lfltab minor
  let dindex := pointerIndex ((file.lfpos &&& lfImask) >>> 9).toNat
  let dnum := file.lfiblock.ibDba dindex
  let lfbyte := (file.lfpos &&& lfDmask).toNat
  if dnum = lfDnull then do
    let (dnum, dbuff, s) ← lfdballoc s
    return s.setFile minor { file with
      lfiblock := { file.lfiblock with ibDba := Function.update file.lfiblock.ibDba dindex dnum }
      lfibdirty := true
      lfdblock := dbuff
      lfdnum := dnum
      lfbyte := lfbyte }
  else if dnum ≠ file.lfdnum then
    .ok (s.setFile minor
      { file with lfdblock := s.disk dnum.toNat, lfdbdirty := false, lfdnum := dnum, lfbyte := lfbyte })
  else .ok (s.setFile minor { file with lfdnum := dnum, lfbyte := lfbyte })

/-- `lfsetup`. -/
def lfsetup (s : System) (minor : Nat) : Except Failure System := do
  let file := s.lfltab minor
  let s := if file.lfibdirty ∨ file.lfdbdirty then lfflush s minor else s
  let s ← firstIblock s minor
  let s ← setupLoop minor (file.lfpos.toNat / lfIdata.toNat + 1) s
  setDblock s minor

/-- `lfsetup` where the byte pointer is beyond the data block. -/
def ensureBlock (s : System) (minor : Nat) : Except Failure System :=
  if lfBlksiz ≤ (s.lfltab minor).lfbyte then lfsetup s minor else .ok s

/-- `lflputc`. -/
def lflputc (s : System) (minor : Nat) (ch : UInt8) : Except Failure (Int × System) :=
  if (s.lfltab minor).lfused = false then .ok (syserr, s)
  else
    let entry := (s.lfltab minor).lfdirptr
    if (s.lfltab minor).lfpos > ldSize s.lfDir entry then .ok (syserr, s)
    else do
      let s ← ensureBlock s minor
      let file := s.lfltab minor
      let s :=
        if file.lfpos ≥ ldSize s.lfDir entry then
          { s with lfDir := store s.lfDir (lfdFiles entry) (ldSize s.lfDir entry + 1), lfDirdirty := true }
        else s
      return (ok, s.setFile minor { file with
        lfdblock := Function.update file.lfdblock file.lfbyte ch
        lfbyte := file.lfbyte + 1
        lfpos := file.lfpos + 1
        lfdbdirty := true })

/-- `lflgetc`. -/
def lflgetc (s : System) (minor : Nat) : Except Failure (Int × System) :=
  if (s.lfltab minor).lfused = false then .ok (syserr, s)
  else if (s.lfltab minor).lfpos ≥ ldSize s.lfDir (s.lfltab minor).lfdirptr then .ok (eof, s)
  else do
    let s ← ensureBlock s minor
    let file := s.lfltab minor
    return ((file.lfdblock file.lfbyte).toNat,
      s.setFile minor { file with lfbyte := file.lfbyte + 1, lfpos := file.lfpos + 1 })

/-- `lflseek`. -/
def lflseek (s : System) (minor : Nat) (offset : UInt32) : Int × System :=
  let file := s.lfltab minor
  if file.lfused = false then (syserr, s)
  else if offset > ldSize s.lfDir file.lfdirptr then (syserr, s)
  else (ok, s.setFile minor { file with lfpos := offset, lfbyte := lfBlksiz })

/-- The loop of `lflread`, with the bytes that were read before. -/
def readLoop (minor : Nat) : Nat → List UInt8 → System → Except Failure (Int × List UInt8 × System)
  | 0, buff, s => .ok (buff.length, buff, s)
  | left + 1, buff, s => do
    let (nxtbyte, s) ← lflgetc s minor
    if nxtbyte = syserr then return (syserr, buff, s)
    else if nxtbyte = eof then
      if buff.length = 0 then return (eof, buff, s) else return (buff.length, buff, s)
    else readLoop minor left (buff ++ [UInt8.ofNat nxtbyte.toNat]) s

/-- `lflread`, with the bytes that it stored. -/
def lflread (s : System) (minor : Nat) (count : Int) : Except Failure (Int × List UInt8 × System) :=
  if count < 0 then .ok (syserr, [], s) else readLoop minor count.toNat [] s

/-- The loop of `lflwrite`. -/
def writeLoop (minor : Nat) (count : Int) : List UInt8 → System → Except Failure (Int × System)
  | [], s => .ok (count, s)
  | ch :: rest, s => do
    let (retval, s) ← lflputc s minor ch
    if retval = syserr then return (syserr, s) else writeLoop minor count rest s

/-- `lflwrite`. -/
def lflwrite (s : System) (minor : Nat) (buff : Memory) (count : Int) : Except Failure (Int × System) :=
  if count < 0 then .ok (syserr, s)
  else writeLoop minor count ((List.range count.toNat).map buff) s

/-- The data blocks of an index block are freed. -/
def freeDblocks (stack : UInt32 → Memory) (iblock : Lfiblk) (s : System) : System :=
  (List.finRange 16).foldl (fun s i =>
    if iblock.ibDba i ≠ lfDnull then lfdbfree (stack (iblock.ibDba i)) s (iblock.ibDba i) else s) s

/-- The loop of `lftruncate`. The last index block of the file comes to point to the free list. -/
def truncateLoop (stack : UInt32 → Memory) (ifree : UInt32) : Nat → UInt32 → System → Except Failure System
  | 0, _, _ => .error .stuck
  | turns + 1, nextib, s =>
    if nextib = ifree then .ok s
    else
      let iblock := lfibget s.disk nextib
      let s := freeDblocks stack iblock s
      let next := if iblock.ibNext = lfInull then ifree else iblock.ibNext
      truncateLoop stack ifree turns next
        { s with disk := lfibput s.disk nextib ⟨next, 0, fun _ => lfDnull⟩ }

/-- `lftruncate`. A chain of index blocks is no longer than the file. -/
def lftruncate (s : System) (minor : Nat) (stack : UInt32 → Memory) : Except Failure (Int × System) :=
  let entry := (s.lfltab minor).lfdirptr
  let size := ldSize s.lfDir entry
  if size = 0 then .ok (ok, s)
  else do
    let s := if (s.lfltab minor).lfibdirty ∨ (s.lfltab minor).lfdbdirty then lfflush s minor else s
    let s := s.setFile minor { s.lfltab minor with
      lfpos := 0, lfinum := lfInull, lfdnum := lfDnull, lfbyte := lfBlksiz }
    let ifree := lfdIfree s.lfDir
    let firstib := ldIlist s.lfDir entry
    let dir := store (store s.lfDir (lfdFiles entry + 4) lfInull) (lfdFiles entry) 0
    let s ← truncateLoop stack ifree (size.toNat + 1) firstib { s with lfDir := dir, lfDirdirty := true }
    return (ok, { s with lfDir := store s.lfDir 4 firstib, lfDirdirty := true })

/-- `LF_CTL_TRUNC`. -/
def lfCtlTrunc : Int := 2

/-- `lflcontrol`. -/
def lflcontrol (s : System) (minor : Nat) (func : Int) (stack : UInt32 → Memory) :
    Except Failure (Int × System) :=
  if (s.lfltab minor).lfused = false then .ok (syserr, s)
  else if func = lfCtlTrunc then lftruncate s minor stack
  else .ok (syserr, s)

/-- `lflclose`. -/
def lflclose (s : System) (minor : Nat) : Int × System :=
  let file := s.lfltab minor
  if file.lfused = false then (syserr, s)
  else
    let s := if s.lfDirdirty ∨ file.lfdbdirty ∨ file.lfibdirty then lfflush s minor else s
    (ok, s.setFile minor { s.lfltab minor with lfused := false })

/-- The bits of an open mode: read, write, new and old. -/
structure Mbits where
  r : Bool
  w : Bool
  n : Bool
  o : Bool

/-- The loop of `lfgetmode`. -/
def getmodeLoop : List UInt8 → Mbits → Option Mbits
  | [], mbits => some mbits
  | ch :: mode, mbits =>
    if ch = 114 then if mbits.r then none else getmodeLoop mode { mbits with r := true }
    else if ch = 119 then if mbits.w then none else getmodeLoop mode { mbits with w := true }
    else if ch = 111 then if mbits.o ∨ mbits.n then none else getmodeLoop mode { mbits with o := true }
    else if ch = 110 then if mbits.o ∨ mbits.n then none else getmodeLoop mode { mbits with n := true }
    else none

/-- `lfgetmode`. If neither read nor write is asked for, both are allowed. -/
def lfgetmode (mode : CString) : Option Mbits :=
  (getmodeLoop mode.chars ⟨false, false, false, false⟩).map fun mbits =>
    if mbits.r = false ∧ mbits.w = false then { mbits with r := true, w := true } else mbits

/-- The comparison of a name with one in memory. -/
def sameName : List UInt8 → Memory → Nat → Bool
  | [], cmp, at_ => cmp at_ = 0
  | ch :: nam, cmp, at_ => if ch ≠ cmp at_ then false else sameName nam cmp (at_ + 1)

/-- A name is copied with its NUL. -/
def copyName : List UInt8 → Memory → Nat → Memory
  | [], target, at_ => Function.update target at_ 0
  | ch :: from_, target, at_ => copyName from_ (Function.update target at_ ch) (at_ + 1)

/-- The search of `lfsopen` over the pseudo-devices: nothing if the file is open, and the first free
one. -/
def searchDevices (lfltab : Nat → Lflcblk) (name : List UInt8) : List Nat → Option Nat → Option (Option Nat)
  | [], lfnext => some lfnext
  | i :: rest, lfnext =>
    if (lfltab i).lfused = false then searchDevices lfltab name rest (some (lfnext.getD i))
    else if sameName name (lfltab i).lfname 0 then none
    else searchDevices lfltab name rest lfnext

/-- The search of `lfsopen` over the directory. -/
def searchDir (dir : Memory) (name : List UInt8) : Option Nat :=
  (List.range (lfdNfiles dir)).find? fun i => sameName name dir (ldName i)

/-- A new entry of the directory. -/
def addEntry (dir : Memory) (name : List UInt8) : Memory :=
  let entry := lfdNfiles dir
  let dir := store dir 8 (load dir 8 + 1)
  let dir := store dir (lfdFiles entry) 0
  store (copyName name dir (ldName entry)) (lfdFiles entry + 4) lfInull

/-- The control block of a file that is opened. -/
def Lflcblk.opened (file : Lflcblk) (entry : Nat) (name : List UInt8) : Lflcblk :=
  { file with
    lfused := true
    lfdirptr := entry
    lfpos := 0
    lfname := copyName name file.lfname 0
    lfinum := lfInull
    lfdnum := lfDnull
    lfbyte := lfBlksiz
    lfibdirty := false
    lfdbdirty := false }

/-- `lfsopen` behind its `wait`: the directory is read if it is not in memory, and the file is found or
added. -/
def openEntry (s : System) (name : List UInt8) (mbits : Mbits) : Option Nat × System :=
  let s := if s.lfDirpresent then s else { s with lfDir := s.disk lfAreaDir, lfDirpresent := true }
  match searchDir s.lfDir name with
  | none =>
    if mbits.o then (none, s)
    else if lfNumDirEnt ≤ lfdNfiles s.lfDir then (none, s)
    else (some (lfdNfiles s.lfDir), { s with lfDir := addEntry s.lfDir name, fresh := true })
  | some entry => if mbits.n then (none, s) else (some entry, s)

/-- `lfsopen`. -/
def lfsopen (s : System) (name mode : CString) : Int × System :=
  if lfNameLen ≤ name.chars.length then (syserr, s)
  else
    match lfgetmode mode with
    | none => (syserr, s)
    | some mbits =>
      match searchDevices s.lfltab name.chars (List.range nlfl) none with
      | none | some none => (syserr, s)
      | some (some lfnext) =>
        match openEntry s name.chars mbits with
        | (none, s) => (syserr, s)
        | (some entry, s) =>
          ((lfile0 + lfnext : Nat), s.setFile lfnext ((s.lfltab lfnext).opened entry name.chars))

/-- The calls of the file system. -/
inductive Call where
  | open (name mode : CString)
  | close (minor : Nat)
  | getc (minor : Nat)
  | putc (minor : Nat) (ch : UInt8)
  | seek (minor : Nat) (offset : UInt32)
  | read (minor : Nat) (count : Int)
  | write (minor : Nat) (buff : Memory) (count : Int)
  | control (minor : Nat) (func : Int) (stack : UInt32 → Memory)

/-- What a call returns, with the bytes that a read stored. -/
abbrev Reply := Int × List UInt8

/-- A call, which returns or fails. -/
def exec (s : System) : Call → Except Failure (Reply × System)
  | .open name mode => .ok (((lfsopen s name mode).1, []), (lfsopen s name mode).2)
  | .close minor => .ok (((lflclose s minor).1, []), (lflclose s minor).2)
  | .getc minor => (lflgetc s minor).map fun (value, s) => ((value, []), s)
  | .putc minor ch => (lflputc s minor ch).map fun (value, s) => ((value, []), s)
  | .seek minor offset => .ok (((lflseek s minor offset).1, []), (lflseek s minor offset).2)
  | .read minor count => (lflread s minor count).map fun (value, bytes, s) => ((value, bytes), s)
  | .write minor buff count => (lflwrite s minor buff count).map fun (value, s) => ((value, []), s)
  | .control minor func stack => (lflcontrol s minor func stack).map fun (value, s) => ((value, []), s)

/-- The pseudo-device that a call is made on. -/
def Call.minor : Call → Option Nat
  | .open _ _ => none
  | .close minor | .getc minor | .putc minor _ | .seek minor _ | .read minor _ | .write minor _ _
  | .control minor _ _ => some minor

/-- One call, on a pseudo-device that exists. -/
def step (s : System) (call : Call) : Option (Reply × System) :=
  if call.minor.all (· < nlfl) then (exec s call).toOption else none

/-- `lflinit`. -/
def lflinit : Lflcblk where
  lfused := false
  lfdirptr := 0
  lfpos := 0
  lfname := fun _ => 0
  lfinum := lfInull
  lfiblock := ⟨0, 0, fun _ => 0⟩
  lfdnum := 0
  lfdblock := fun _ => 0
  lfbyte := lfBlksiz
  lfibdirty := false
  lfdbdirty := false

/-- `lfsinit` and `lflinit`, on a disk. -/
def lfsinit (disk : Disk) : System where
  disk := disk
  lfDir := fun _ => 0
  lfDirpresent := false
  lfDirdirty := false
  lfltab := fun _ => lflinit
  fresh := false

/-- The loop of `lfscreate` over the index blocks but the last one. -/
def createIblocks : Nat → Nat → Disk → Disk
  | 0, _, disk => disk
  | left + 1, i, disk =>
    createIblocks left (i + 1)
      (lfibput disk (UInt32.ofNat i) { lfibclear 0 with ibNext := UInt32.ofNat (i + 1) })

/-- The loop of `lfscreate` over the data blocks but the last one. -/
def createDblocks (dblock : Memory) : Nat → Nat → Disk → Disk
  | 0, _, disk => disk
  | left + 1, dbindex, disk =>
    createDblocks dblock left (dbindex + 1)
      (Function.update disk dbindex (store dblock 0 (UInt32.ofNat (dbindex + 1))))

/-- The sectors of index blocks, for a number of them. -/
def ibsectors (lfiblks : Nat) : Nat := (lfiblks + 6) / 7

/-- `lfscreate`, on a disk with room for at least one data block. -/
def lfscreate (disk : Disk) (lfiblks dsiz : Nat) : Option Disk :=
  let sectors := dsiz / lfBlksiz
  let ibsectors := ibsectors lfiblks
  if sectors / 2 < ibsectors then none
  else
    let dir := store (fun _ => 0) 0 (UInt32.ofNat (ibsectors + 1))
    let disk := Function.update disk lfAreaDir dir
    let last := ibsectors * 7 - 1
    let disk := lfibput (createIblocks last 0 disk) (UInt32.ofNat last) (lfibclear 0)
    let dblks := sectors - ibsectors - 1
    let dbindex := ibsectors + 1
    some (Function.update (createDblocks (fun _ => 0) (dblks - 1) dbindex disk) (dbindex + (dblks - 1))
      (store (fun _ => 0) 0 lfDnull))

end Xinu.LocalFiles
