import Xinu.HeapIntegrity
import Xinu.Semaphores
import Xinu.WordMemory

/-!
# Buffer pools and the segregated allocator

A pool is a block of the heap that `mkbufpool` cuts into buffers of one size. The free buffers
of a pool are linked through their first words, and a semaphore counts them. A buffer in use
has the id of its pool in its first word, which `getbuf` writes and `freebuf` trusts.

`xmalloc` takes the smallest of ten sizes that is large enough, writes the requested size into
the last word of the buffer and keeps statistics, and `xfree` reads both words back. `kv_init`
reaches the pools through `xmalloc_init` only.

The calls run with interrupts disabled inside of `getbuf` and `freebuf`; another process can run
where `wait` blocks and where `signal` makes a process ready. Which process goes on is left
open. The bytes of the pools are a memory of their own, apart from the headers of the free
blocks of the heap. What lies before or behind an array is some value as well.

Beside the variables of the source the system records the pool in each entry of the table as it
was made, the buffers in use, and those that were in use when `bufinit` forgot their pools.
-/

namespace Xinu.BufferPools

open CIntegers WordMemory Semaphores Runs

/-- `NBPOOLS`, `BP_MINB`, `BP_MAXB` and `BP_MAXN`. -/
def maxPools : Int := 20

def bpMinb : Int := 8

def bpMaxb : Int := 8192

def bpMaxn : Int := 2048

/-- `SYSERR`, `OK` and `NULL`, as what the calls return. -/
def syserr : Int := -1

def ok : Int := 1

def null : Int := 0

/-- `struct bpentry`. -/
structure Bpentry where
  bpnext : Nat
  bpsem : Int
  bpsize : Nat

/-- A pool as it was made. -/
structure Pool where
  serial : Nat
  base : Nat
  size : Nat
  number : Nat
  sem : Int
deriving DecidableEq

/-- A buffer in use: who took it, its address, the id and the pool with which it was taken, and
the size that was asked of `xmalloc`. -/
structure Hold where
  holder : Nat
  pointer : Nat
  poolid : Int
  home : Pool
  request : Option Int32
deriving DecidableEq

/-- Where a process goes on: behind the `wait` of `getbuf`, and behind the `signal` of a
`freebuf` that was called or that `xfree` made. -/
inductive Point where
  | taking (poolid : Int) (home : Pool) (request : Option Int32)
  | freebufEnd
  | xfreeEnd (poolid : Int) (size : Int32)
deriving DecidableEq

/-- The globals, the memory and the processes. -/
structure System where
  heap : HeapMemory.Kernel
  memory : Memory
  kernel : Kernel Point
  buftab : Int → Bpentry
  nbpools : Int
  bufsize : Int → Int32
  bufnumb : Int → Int32
  allocBy : Int → Int32
  allocBf : Int → Int32
  fragmBy : Int → Int32
  home : Int → Pool
  made : Nat
  held : List Hold
  stranded : List Hold

def System.place (s : System) (pid : Nat) (process : Process Point) : System :=
  { s with kernel := s.kernel.place pid process }

def System.setNext (s : System) (poolid : Int) (bpnext : Nat) : System :=
  { s with buftab := Function.update s.buftab poolid { s.buftab poolid with bpnext := bpnext } }

def System.setWord (s : System) (address : Nat) (word : UInt32) : System :=
  { s with memory := store s.memory address word }

/-- `bufinit`. -/
def bufinit (s : System) : System :=
  { s with nbpools := 0, held := [], stranded := s.held ++ s.stranded }

/-- A size rounded up to a multiple of four. -/
def roundBuf (bufsiz : Nat) : Nat := (bufsiz + 3) &&& 0xFFFFFFFC

/-- `mkbufpool`. -/
def mkbufpool (s : System) (bufsiz numbufs : Int32) : Option (Int × System) :=
  if bufsiz.toInt < bpMinb ∨ bpMaxb < bufsiz.toInt ∨ numbufs.toInt < 1 ∨ bpMaxn < numbufs.toInt ∨
      maxPools ≤ s.nbpools then some (syserr, s)
  else do
    let size := roundBuf bufsiz.toInt.toNat
    let number := numbufs.toInt.toNat
    let (buf, heap) ← HeapMemory.step s.heap (.getmem (number * (size + 4)))
    let s := { s with heap := heap }
    if buf = HeapMemory.syserr then some (syserr, s)
    else
      let poolid := s.nbpools
      let (sem, kernel) := semcreate s.kernel number
      let s := { s with
        kernel := kernel, buftab := Function.update s.buftab poolid ⟨buf, sem, size⟩ }
      if sem = Semaphores.syserr then some (syserr, s)
      else
        some (poolid, { s with
          nbpools := poolid + 1
          memory := linkCells (size + 4) (number - 1) buf s.memory
          home := Function.update s.home poolid ⟨s.made, buf, size, number, sem⟩
          made := s.made + 1 })

/-- The statistics of a pool after a buffer of it was taken or given back. -/
def System.tally (s : System) (poolid : Int) (bytes buffers : Int32) : System :=
  { s with
    allocBy := Function.update s.allocBy poolid bytes
    allocBf := Function.update s.allocBf poolid buffers
    fragmBy := Function.update s.fragmBy poolid (s.bufsize poolid * buffers - bytes) }

/-- `xmalloc` behind its `getbuf`. -/
def xmallocRest (s : System) (pid : Nat) (poolid : Int) (bufptr : Nat) (size : Int32) :
    Option Int × System :=
  let s := s.setWord (bufptr + (s.buftab poolid).bpsize - 4) size.toUInt32
  let s := s.tally poolid (s.allocBy poolid + size) (s.allocBf poolid + 1)
  (some bufptr, s.place pid .idle)

/-- A buffer is unlinked and gets the id of the pool. A list that is empty is read through
`NULL`. -/
def System.take (s : System) (pid : Nat) (poolid : Int) (home : Pool) (request : Option Int32) :
    Option (Nat × System) :=
  let bufptr := (s.buftab poolid).bpnext
  if bufptr = 0 then none
  else
    let s := s.setNext poolid (load s.memory bufptr).toNat
    let s := s.setWord bufptr (Int32.ofInt poolid).toUInt32
    some (bufptr + 4, { s with held := ⟨pid, bufptr + 4, poolid, home, request⟩ :: s.held })

/-- `getbuf` behind its `wait`, and the rest of the call that made it. -/
def getbufRest (s : System) (pid : Nat) (poolid : Int) (home : Pool) (request : Option Int32) :
    Option (Option Int × System) := do
  let (bufptr, s) ← s.take pid poolid home request
  match request with
  | none => some (some bufptr, s.place pid .idle)
  | some size => some (xmallocRest s pid poolid bufptr size)

/-- `getbuf` of a pool that exists. -/
def getbufWait (s : System) (pid : Nat) (poolid : Int) (request : Option Int32) :
    Option (Option Int × System) :=
  let home := s.home poolid
  match wait s.kernel pid (.taking poolid home request) (s.buftab poolid).bpsem with
  | (.blocked, kernel) => some (none, { s with kernel := kernel })
  | (.passed, kernel) | (.refused, kernel) =>
    getbufRest { s with kernel := kernel } pid poolid home request

/-- `getbuf`. -/
def getbuf (s : System) (pid : Nat) (poolid : Int) : Option (Option Int × System) :=
  if poolid < 0 ∨ s.nbpools ≤ poolid then some (some syserr, s.place pid .idle)
  else getbufWait s pid poolid none

/-- The id of the pool in front of a buffer. -/
def System.header (s : System) (bufaddr : Nat) : Int := (load s.memory (bufaddr - 4)).toInt32.toInt

/-- A buffer is linked in front of the free ones of a pool. -/
def System.putBack (s : System) (poolid : Int) (bufaddr : Nat) : System :=
  let s := s.setWord (bufaddr - 4) (UInt32.ofNat (s.buftab poolid).bpnext)
  let s := s.setNext poolid (bufaddr - 4)
  { s with
    held := s.held.filter fun hold => hold.pointer ≠ bufaddr
    stranded := s.stranded.filter fun hold => hold.pointer ≠ bufaddr }

/-- `xfree` behind its `freebuf`. -/
def xfreeRest (s : System) (pid : Nat) (poolid : Int) (size : Int32) : Option Int × System :=
  let s := s.tally poolid (s.allocBy poolid - size) (s.allocBf poolid - 1)
  (some null, s.place pid .idle)

/-- `freebuf` behind its `signal`. -/
def freebufRest (s : System) (pid : Nat) : Point → Option Int × System
  | .xfreeEnd poolid size => xfreeRest s pid poolid size
  | .taking _ _ _ | .freebufEnd => (some ok, s.place pid .idle)

/-- The list and the semaphore of `freebuf`. -/
def freebufSignal (s : System) (pid : Nat) (poolid : Int) (bufaddr : Nat) (point : Point) :
    Option Int × System :=
  let s := s.putBack poolid bufaddr
  match signal s.kernel (s.buftab poolid).bpsem with
  | (true, kernel) => (none, { s with kernel := kernel.place pid (.ready point) })
  | (false, kernel) => freebufRest { s with kernel := kernel } pid point

/-- `freebuf`. -/
def freebuf (s : System) (pid : Nat) (bufaddr : Nat) : Option Int × System :=
  let poolid := s.header bufaddr
  if poolid < 0 ∨ s.nbpools ≤ poolid then (some syserr, s.place pid .idle)
  else freebufSignal s pid poolid bufaddr .freebufEnd

/-- The number of pools, the sizes and the numbers of buffers that `xmalloc_init` sets up. -/
def poolnum : Int := 10

def initSize (poolid : Int) : Int32 := Int32.ofInt (16 * 2 ^ poolid.toNat - 4)

def initNumb (poolid : Int) : Int32 :=
  if (initSize poolid).toInt ≤ 128 then 2048
  else if (initSize poolid).toInt ≤ 2048 then 2048
  else 2

/-- The first loop of `xmalloc_init`. -/
def initArrays (s : System) : System :=
  { s with
    bufsize := fun poolid => if 0 ≤ poolid ∧ poolid < poolnum then initSize poolid else s.bufsize poolid
    bufnumb := fun poolid => if 0 ≤ poolid ∧ poolid < poolnum then initNumb poolid else s.bufnumb poolid
    allocBy := fun poolid => if 0 ≤ poolid ∧ poolid < poolnum then 0 else s.allocBy poolid
    allocBf := fun poolid => if 0 ≤ poolid ∧ poolid < poolnum then 0 else s.allocBf poolid }

/-- The second loop of `xmalloc_init`. -/
def makePools : Nat → Int → System → Option System
  | 0, _, s => some s
  | turns + 1, poolid, s => do
    let (pid, s) ← mkbufpool s (s.bufsize poolid + 4) (s.bufnumb poolid)
    if pid = syserr then some s else makePools turns (poolid + 1) s

/-- `xmalloc_init`. -/
def xmallocInit (s : System) : Option System :=
  makePools poolnum.toNat 0 (initArrays (bufinit s))

/-- The loop of `findClosestIndex`. -/
def closestLoop (s : System) (size : Int32) : Nat → Int → Int → Int × Int
  | 0, start, end_ => (start, end_)
  | turns + 1, start, end_ =>
    if start + 1 < end_ then
      let mid := start + (end_ - start) / 2
      if (s.bufsize mid).toInt < size.toInt then closestLoop s size turns mid end_
      else closestLoop s size turns start mid
    else (start, end_)

/-- `findClosestIndex`. -/
def findClosestIndex (s : System) (size : Int32) : Int :=
  if size.toInt ≤ 0 ∨ (s.bufsize (s.nbpools - 1)).toInt < size.toInt then syserr
  else if size.toInt ≤ (s.bufsize 0).toInt then 0
  else
    let (start, end_) := closestLoop s size s.nbpools.toNat 0 (s.nbpools - 1)
    if size.toInt ≤ (s.bufsize start).toInt then start
    else if size.toInt ≤ (s.bufsize end_).toInt then end_
    else syserr

/-- `xmalloc`. -/
def xmalloc (s : System) (pid : Nat) (size : Int32) : Option (Option Int × System) :=
  if size.toInt ≤ 0 ∨ (s.bufsize (s.nbpools - 1)).toInt < size.toInt then
    some (some null, s.place pid .idle)
  else
    let poolid := findClosestIndex s size
    if poolid = syserr then some (some null, s.place pid .idle)
    else if (s.buftab poolid).bpnext = 0 then some (some null, s.place pid .idle)
    -- `getbuf` checks the id again
    else if poolid < 0 ∨ s.nbpools ≤ poolid then some (some null, s.place pid .idle)
    else getbufWait s pid poolid (some size)

/-- `xfree`. -/
def xfree (s : System) (pid : Nat) (bufaddr : Nat) : Option Int × System :=
  if bufaddr = 0 then (some null, s.place pid .idle)
  else
    let poolid := s.header bufaddr
    if poolid < 0 ∨ s.nbpools ≤ poolid then (some null, s.place pid .idle)
    else
      let size := (load s.memory (bufaddr + (s.buftab poolid).bpsize - 4)).toInt32
      -- `freebuf` reads and checks the id again
      freebufSignal s pid poolid bufaddr (.xfreeEnd poolid size)

/-- A line of `xheap_snapshot`. -/
structure Line where
  poolId : Int
  bufferSize : Int32
  totalBuffers : Int32
  allocatedBytes : Int32
  allocatedBuffers : Int32
  fragmentedBytes : Int32

/-- The lines of `xheap_snapshot`. -/
def xheapSnapshot (s : System) : List Line :=
  (List.range s.nbpools.toNat).map fun poolid : Nat =>
    ⟨poolid, s.bufsize poolid, s.bufnumb poolid, s.allocBy poolid, s.allocBf poolid, s.fragmBy poolid⟩

inductive Call where
  | mkbufpool (bufsiz numbufs : Int32)
  | getbuf (poolid : Int32)
  | freebuf (bufaddr : Nat)
  | xmallocInit
  | xmalloc (size : Int32)
  | xfree (bufaddr : Nat)
deriving DecidableEq

/-- A process makes a call or goes on in one, and somebody writes a byte. -/
inductive Move where
  | call (pid : Nat) (call : Call)
  | goOn (pid : Nat)
  | write (address : Nat) (byte : UInt8)
deriving DecidableEq

/-- A call up to its first switch, or up to its end. -/
def exec (s : System) (pid : Nat) : Call → Option (Option Int × System)
  | .mkbufpool bufsiz numbufs => (mkbufpool s bufsiz numbufs).map fun (poolid, s) => (some poolid, s)
  | .getbuf poolid => getbuf s pid poolid.toInt
  | .freebuf bufaddr => some (freebuf s pid bufaddr)
  | .xmallocInit => (xmallocInit s).map fun s => (some null, s)
  | .xmalloc size => xmalloc s pid size
  | .xfree bufaddr => some (xfree s pid bufaddr)

/-- A process goes on. -/
def proceed (s : System) (pid : Nat) : Point → Option (Option Int × System)
  | .taking poolid home request => getbufRest (s.place pid .idle) pid poolid home request
  | .freebufEnd => some (freebufRest s pid .freebufEnd)
  | .xfreeEnd poolid size => some (freebufRest s pid (.xfreeEnd poolid size))

/-- One move, with what the call returns if it is over. -/
def step (s : System) : Move → Option (Option Int × System)
  | .call pid call => if s.kernel.process pid = .idle then exec s pid call else none
  | .goOn pid => match s.kernel.process pid with
    | .ready point => proceed s pid point
    | .idle | .waiting _ _ => none
  | .write address byte => some (none, { s with memory := Function.update s.memory address byte })

/-- The system at the start, with a heap, bytes of memory, and semaphores that others use. -/
def boot (heap : HeapMemory.Kernel) (memory : Memory) (used : Int → Processes.Sstate) : System where
  heap := heap
  memory := memory
  kernel := ⟨fun sem => ⟨used sem, 0, []⟩, 0, fun _ => .idle⟩
  buftab := fun _ => ⟨0, 0, 0⟩
  nbpools := 0
  bufsize := fun _ => 0
  bufnumb := fun _ => 0
  allocBy := fun _ => 0
  allocBf := fun _ => 0
  fragmBy := fun _ => 0
  home := fun _ => ⟨0, 0, 0, 0, 0⟩
  made := 0
  held := []
  stranded := []

end Xinu.BufferPools
