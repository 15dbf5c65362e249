import Xinu.Runs

/-!
# The kernel's heap

The free memory between `minheap` and `maxheap` is a list of blocks, each of which holds
its own header: the address of the next block and its length. `getmem` takes memory from
the bottom of the first block that is long enough and `getstk` from the top of the last
one; `freemem` puts memory back in the order of the addresses and joins it with its
neighbours.

The memory of the heap is a function from an address to the `memblk` that stands there;
all blocks begin at multiples of eight, so headers do not overlap. `memlist` is outside of
the heap. Addresses and lengths are 32-bit words. The calls run with interrupts disabled.

A loop through the list that makes more turns than there are addresses goes round in a
circle. The model gives up there; the source does not return.
-/

namespace Xinu.HeapMemory

/-- The 32-bit word of a sum. -/
def word (value : Nat) : Nat := value % 2 ^ 32

/-- The 32-bit word of a difference. -/
def minus (left right : Nat) : Nat := (left + 2 ^ 32 - right) % 2 ^ 32

/-- `roundmb`. -/
def roundmb (value : Nat) : Nat := word (7 + value) &&& 0xFFFFFFF8

/-- `NULL`. -/
def null : Nat := 0

/-- `SYSERR` and `OK`, as words. -/
def syserr : Nat := 0xFFFFFFFF

def ok : Nat := 1

/-- `struct memblk`. -/
structure MemBlk where
  mnext : Nat
  mlength : Nat
deriving DecidableEq

/-- A pointer to `memlist` or to a block of the heap. -/
inductive Pointer where
  | memlist
  | block (address : Nat)
deriving DecidableEq

/-- The globals, the address of `memlist`, and the memory of the heap. -/
structure Heap where
  minheap : Nat
  maxheap : Nat
  memlistAt : Nat
  memlist : MemBlk
  cells : Nat → MemBlk

/-- The structure behind a pointer. -/
def Heap.read (h : Heap) : Pointer → MemBlk
  | .memlist => h.memlist
  | .block address => h.cells address

def Heap.write (h : Heap) (contents : MemBlk) : Pointer → Heap
  | .memlist => { h with memlist := contents }
  | .block address => { h with cells := Function.update h.cells address contents }

/-- The two fields of a structure. -/
def Heap.setNext (h : Heap) (pointer : Pointer) (next : Nat) : Heap :=
  h.write { h.read pointer with mnext := next } pointer

def Heap.setLength (h : Heap) (pointer : Pointer) (length : Nat) : Heap :=
  h.write { h.read pointer with mlength := length } pointer

/-- A pointer as a number. -/
def Heap.address (h : Heap) : Pointer → Nat
  | .memlist => h.memlistAt
  | .block address => address

/-- `memlist.mlength`, from which memory is taken or to which it is added. -/
def Heap.lessen (h : Heap) (nbytes : Nat) : Heap :=
  h.setLength .memlist (minus h.memlist.mlength nbytes)

def Heap.raise (h : Heap) (nbytes : Nat) : Heap :=
  h.setLength .memlist (word (h.memlist.mlength + nbytes))

/-- More turns of a loop than there are addresses. -/
def turns : Nat := 2 ^ 32 + 1

/-- `meminit`, with the values of `end` and `MAXADDR`. -/
def meminit (h : Heap) (first last : Nat) : Heap :=
  let h := { h with minheap := first, maxheap := last }
  let h := h.setNext .memlist first
  (h.setNext (.block first) null).setLength (.block first) (minus last first)

/-- A block that is long enough is taken as a whole or from its bottom. -/
def Heap.takeBottom (h : Heap) (nbytes : Nat) (prev : Pointer) (curr : Nat) : Nat × Heap :=
  if (h.cells curr).mlength = nbytes then
    (curr, (h.setNext prev (h.cells curr).mnext).lessen nbytes)
  else
    let leftover := word (curr + nbytes)
    let h := h.setNext prev leftover
    let h := h.setNext (.block leftover) (h.cells curr).mnext
    let h := h.setLength (.block leftover) (minus (h.cells curr).mlength nbytes)
    (curr, h.lessen nbytes)

/-- The loop of `getmem`. -/
def Heap.search (h : Heap) (nbytes : Nat) : Nat → Pointer → Nat → Option (Nat × Heap)
  | 0, _, _ => none
  | turns + 1, prev, curr =>
    if curr = null then some (syserr, h)
    else if (h.cells curr).mlength = nbytes ∨ nbytes < (h.cells curr).mlength then
      some (h.takeBottom nbytes prev curr)
    else h.search nbytes turns (.block curr) (h.cells curr).mnext

/-- `getmem`. -/
def getmem (h : Heap) (nbytes : Nat) : Option (Nat × Heap) :=
  if nbytes = 0 then some (syserr, h)
  else h.search (roundmb nbytes) turns .memlist h.memlist.mnext

/-- The loop of `getstk`. -/
def Heap.scan (h : Heap) (nbytes : Nat) :
    Nat → Pointer → Nat → Nat → Pointer → Option (Nat × Pointer)
  | 0, _, _, _, _ => none
  | turns + 1, prev, curr, fits, fitsprev =>
    if curr = null then some (fits, fitsprev)
    else if nbytes ≤ (h.cells curr).mlength then
      h.scan nbytes turns (.block curr) (h.cells curr).mnext curr prev
    else h.scan nbytes turns (.block curr) (h.cells curr).mnext fits fitsprev

/-- A block is taken as a whole or from its top. -/
def Heap.takeTop (h : Heap) (nbytes fits : Nat) (fitsprev : Pointer) : Nat × Heap :=
  if nbytes = (h.cells fits).mlength then
    (fits, h.setNext fitsprev (h.cells fits).mnext)
  else
    let h := h.setLength (.block fits) (minus (h.cells fits).mlength nbytes)
    (word (fits + (h.cells fits).mlength), h)

/-- `getstk`. -/
def getstk (h : Heap) (nbytes : Nat) : Option (Nat × Heap) :=
  if nbytes = 0 then some (syserr, h)
  else do
    let nbytes := roundmb nbytes
    let (fits, fitsprev) ← h.scan nbytes turns .memlist h.memlist.mnext null (.block null)
    if fits = null then some (syserr, h)
    else
      let (fits, h) := h.takeTop nbytes fits fitsprev
      some (minus (word (fits + nbytes)) 4, h.lessen nbytes)

/-- The loop of `freemem`. -/
def Heap.walk (h : Heap) (block : Nat) : Nat → Pointer → Nat → Option (Pointer × Nat)
  | 0, _, _ => none
  | turns + 1, prev, next =>
    if next ≠ null ∧ next < block then h.walk block turns (.block next) (h.cells next).mnext
    else some (prev, next)

/-- The end of the block before. -/
def Heap.top (h : Heap) : Pointer → Nat
  | .memlist => null
  | .block address => word (address + (h.cells address).mlength)

/-- The new block is joined with the one before or linked in. -/
def Heap.link (h : Heap) (prev : Pointer) (next top block nbytes : Nat) : Pointer × Heap :=
  if top = block then
    (prev, h.setLength prev (word ((h.read prev).mlength + nbytes)))
  else
    (.block block,
      ((h.setNext (.block block) next).setLength (.block block) nbytes).setNext prev block)

/-- It is joined with the one behind. -/
def Heap.merge (h : Heap) (block : Pointer) (next : Nat) : Heap :=
  if word (h.address block + (h.read block).mlength) = next then
    let h := h.setLength block (word ((h.read block).mlength + (h.cells next).mlength))
    h.setNext block (h.cells next).mnext
  else h

/-- `freemem`. -/
def freemem (h : Heap) (blkaddr nbytes : Nat) : Option (Nat × Heap) :=
  if nbytes = 0 ∨ blkaddr < h.minheap ∨ h.maxheap < blkaddr then some (syserr, h)
  else do
    let nbytes := roundmb nbytes
    let (prev, next) ← h.walk blkaddr turns .memlist h.memlist.mnext
    let top := h.top prev
    if (prev ≠ .memlist ∧ blkaddr < top) ∨ (next ≠ null ∧ next < word (blkaddr + nbytes)) then
      some (syserr, h)
    else
      let h := h.raise nbytes
      let (block, h) := h.link prev next top blkaddr nbytes
      some (ok, h.merge block next)

/-- `freestk`. -/
def freestk (h : Heap) (pointer length : Nat) : Option (Nat × Heap) :=
  freemem h (word (minus pointer (roundmb length) + 4)) (roundmb length)

end Xinu.HeapMemory
