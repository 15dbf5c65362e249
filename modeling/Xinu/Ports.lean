import Xinu.Semaphores

/-!
# Ports

A port is a queue of one-word messages with two semaphores: one counts the places that are left
for senders, the other one the messages for receivers. All ports take the nodes of their queues
from one free list, which `ptinit` makes. A port that is reset or deleted is in a limbo state while
its processes are released. Its sequence number tells a process that was released whether the port
is still the one that it called.

The calls run with interrupts disabled, so that another process can run only where `wait` blocks and
where `signal`, `semreset` or `semdelete` make a process ready. A process then goes on at a `Point`.
The function that disposes of messages is given the messages of the queue in their order and does
nothing with the ports. Without a free node `ptsend` panics; that has no outcome, nor has following a
null pointer.

A node is its address. `changes` is not part of the program: it counts how often the sequence number
of each port was changed, and a process remembers the count at the begin of its call. Each step reports
its effects in the order in which they happen.
-/

namespace Xinu.Ports

open Semaphores Runs

/-- `NPORTS`. -/
def nports : Int := 30

/-- `SYSERR` and `OK`, as what the calls return. -/
def syserr : Int := -1

def ok : Int := 1

/-- `NULL`, and more turns of a loop than there are addresses. -/
def null : Nat := 0

def turns : Nat := 2 ^ 32

/-- `PT_FREE`, `PT_LIMBO` and `PT_ALLOC`. -/
inductive Ptstate where
  | free
  | limbo
  | alloc
deriving DecidableEq

/-- `struct ptnode`. -/
structure Ptnode where
  ptmsg : UInt32
  ptnext : Nat

/-- `struct ptentry`. -/
structure Ptentry where
  ptssem : Int
  ptrsem : Int
  ptstate : Ptstate
  ptmaxcnt : UInt16
  ptseq : Int32
  pthead : Nat
  pttail : Nat

/-- Where a process goes on: behind the `wait` and the `signal` of `ptsend` and of `ptrecv`, and
behind the first and the second semaphore of `_ptclear`, with the local variables it uses there. -/
inductive Point where
  | sending (portid : Int) (seq : Int32) (msg : UInt32) (began : Nat)
  | sent
  | receiving (portid : Int) (seq : Int32) (began : Nat)
  | received (msg : UInt32)
  | clearing (portid : Int) (newstate : Ptstate)
  | cleared (portid : Int) (newstate : Ptstate)
deriving DecidableEq

/-- The globals and the processes. -/
structure System where
  node : Nat → Ptnode
  ptfree : Nat
  porttab : Int → Ptentry
  ptnextid : Int
  kernel : Kernel Point
  changes : Int → Nat

/-- What a step does: a port is made, a message is put into the queue of a port or taken from it, a
port is cleared of its messages or leaves the limbo state, and a call returns. -/
inductive Effect where
  | created (portid : Int) (count : Int32)
  | sent (portid : Int) (msg : UInt32)
  | received (portid : Int) (msg : UInt32)
  | cleared (portid : Int) (disposed : List UInt32)
  | settled (portid : Int) (newstate : Ptstate)
  | returned (pid : Nat) (value : Int)
deriving DecidableEq

/-- `isbadport`. -/
def isbadport (portid : Int) : Bool := portid < 0 ∨ nports ≤ portid

/-- The value that a `uint32` result is returned as. -/
def word (value : UInt32) : Int := value.toNat

def System.place (s : System) (pid : Nat) (process : Process Point) : System :=
  { s with kernel := s.kernel.place pid process }

def System.setPort (s : System) (portid : Int) (entry : Ptentry) : System :=
  { s with porttab := Function.update s.porttab portid entry }

def System.setNode (s : System) (address : Nat) (contents : Ptnode) : System :=
  { s with node := Function.update s.node address contents }

/-- `node->ptnext = next`. -/
def System.setNext (s : System) (address next : Nat) : System :=
  s.setNode address { s.node address with ptnext := next }

/-- `ptseq++`. -/
def System.countChange (s : System) (portid : Int) : System :=
  { s with changes := Function.update s.changes portid (s.changes portid + 1) }

/-- A call that returns. -/
def System.finish (s : System) (pid : Nat) (value : Int) : List Effect × System :=
  ([.returned pid value], s.place pid .idle)

/-- The loop of `ptinit`, from the node at an address. -/
def linkNodes : Nat → Nat → System → System
  | 0, curr, s => s.setNext curr null
  | turns + 1, curr, s => linkNodes turns (curr + 8) (s.setNext curr (curr + 8))

/-- `ptinit`, with the memory that it gets for its nodes. -/
def ptinit (s : System) (maxmsgs memory : Nat) : System :=
  let entry (portid : Int) := { s.porttab portid with ptstate := .free, ptseq := 0 }
  linkNodes (maxmsgs - 1) memory { s with
    ptfree := memory
    porttab := fun portid => if isbadport portid then s.porttab portid else entry portid
    ptnextid := 0
    changes := fun _ => 0 }

/-- The body of `ptcreate` for a free entry. -/
def System.makePort (s : System) (ptnum : Int) (count : Int32) : System :=
  let (ptssem, kernel) := semcreate s.kernel count.toInt
  let (ptrsem, kernel) := semcreate kernel 0
  let s := { s with kernel := kernel }
  let entry := s.porttab ptnum
  let entry := { entry with
    ptssem := ptssem, ptrsem := ptrsem, ptstate := .alloc, pthead := null, pttail := null
    ptseq := entry.ptseq + 1, ptmaxcnt := count.toUInt32.toUInt16 }
  (s.setPort ptnum entry).countChange ptnum

/-- The loop of `ptcreate`. -/
def ptcreateLoop (count : Int32) : Nat → System → Int × System
  | 0, s => (syserr, s)
  | turns + 1, s =>
    let ptnum := s.ptnextid
    let s := { s with ptnextid := if nports ≤ ptnum + 1 then 0 else ptnum + 1 }
    if (s.porttab ptnum).ptstate = .free then (ptnum, s.makePort ptnum count)
    else ptcreateLoop count turns s

/-- `ptcreate`. -/
def ptcreate (s : System) (count : Int32) : Int × System :=
  if count.toInt < 0 then (syserr, s) else ptcreateLoop count nports.toNat s

/-- A node of the free list goes behind the queue of a port. -/
def System.link (s : System) (portid : Int) (msg : UInt32) : System :=
  let msgnode := s.ptfree
  let s := { s with ptfree := (s.node msgnode).ptnext }
  let s := s.setNode msgnode ⟨msg, null⟩
  let entry := s.porttab portid
  let tailnode := entry.pttail
  if tailnode = null then s.setPort portid { entry with pttail := msgnode, pthead := msgnode }
  else (s.setNext tailnode msgnode).setPort portid { entry with pttail := msgnode }

/-- `ptsend` behind its `wait`. -/
def ptsendRest (s : System) (pid : Nat) (portid : Int) (seq : Int32) (msg : UInt32) :
    Option (List Effect × System) :=
  if (s.porttab portid).ptstate ≠ .alloc ∨ (s.porttab portid).ptseq ≠ seq then
    some (s.finish pid syserr)
  else if s.ptfree = null then none
  else
    let s := s.link portid msg
    match signal s.kernel (s.porttab portid).ptrsem with
    | (true, kernel) => some ([.sent portid msg], { s with kernel := kernel.place pid (.ready .sent) })
    | (false, kernel) =>
      let (effects, s) := { s with kernel := kernel }.finish pid ok
      some (.sent portid msg :: effects, s)

/-- `ptsend`. -/
def ptsend (s : System) (pid : Nat) (portid : Int) (msg : UInt32) : Option (List Effect × System) :=
  if isbadport portid ∨ (s.porttab portid).ptstate ≠ .alloc then some (s.finish pid syserr)
  else
    let entry := s.porttab portid
    match wait s.kernel pid (.sending portid entry.ptseq msg (s.changes portid)) entry.ptssem with
    | (.refused, kernel) => some ({ s with kernel := kernel }.finish pid syserr)
    | (.blocked, kernel) => some ([], { s with kernel := kernel })
    | (.passed, kernel) => ptsendRest { s with kernel := kernel } pid portid entry.ptseq msg

/-- The first node of a queue goes to the free list. -/
def System.unlink (s : System) (portid : Int) : System :=
  let entry := s.porttab portid
  let msgnode := entry.pthead
  let entry := if entry.pthead = entry.pttail then { entry with pthead := null, pttail := null }
    else { entry with pthead := (s.node msgnode).ptnext }
  let s := s.setPort portid entry
  { s.setNext msgnode s.ptfree with ptfree := msgnode }

/-- `ptrecv` behind its `wait`. -/
def ptrecvRest (s : System) (pid : Nat) (portid : Int) (seq : Int32) :
    Option (List Effect × System) :=
  if (s.porttab portid).ptstate ≠ .alloc ∨ (s.porttab portid).ptseq ≠ seq then
    some (s.finish pid syserr)
  else if (s.porttab portid).pthead = null then none
  else
    let msg := (s.node (s.porttab portid).pthead).ptmsg
    let s := s.unlink portid
    match signal s.kernel (s.porttab portid).ptssem with
    | (true, kernel) =>
      some ([.received portid msg], { s with kernel := kernel.place pid (.ready (.received msg)) })
    | (false, kernel) =>
      let (effects, s) := { s with kernel := kernel }.finish pid (word msg)
      some (.received portid msg :: effects, s)

/-- `ptrecv`. -/
def ptrecv (s : System) (pid : Nat) (portid : Int) : Option (List Effect × System) :=
  if isbadport portid ∨ (s.porttab portid).ptstate ≠ .alloc then some (s.finish pid syserr)
  else
    let entry := s.porttab portid
    match wait s.kernel pid (.receiving portid entry.ptseq (s.changes portid)) entry.ptrsem with
    | (.refused, kernel) => some ({ s with kernel := kernel }.finish pid syserr)
    | (.blocked, kernel) => some ([], { s with kernel := kernel })
    | (.passed, kernel) => ptrecvRest { s with kernel := kernel } pid portid entry.ptseq

/-- The walk of `_ptclear` along the messages. -/
def walk (s : System) : Nat → Nat → Option (List UInt32)
  | 0, _ => none
  | turns + 1, curr =>
    if curr = null then some []
    else (walk s turns (s.node curr).ptnext).map fun messages => (s.node curr).ptmsg :: messages

/-- `_ptclear` up to the semaphores, behind its walk. -/
def System.empty (s : System) (portid : Int) (newstate : Ptstate) : System :=
  let entry := s.porttab portid
  let entry := { entry with ptstate := .limbo, ptseq := entry.ptseq + 1 }
  let spliced := if entry.pthead = null then s
    else { s.setNext entry.pttail s.ptfree with ptfree := entry.pthead }
  let entry := if newstate = .alloc then { entry with pthead := null, pttail := null } else entry
  (spliced.setPort portid entry).countChange portid

/-- The end of `_ptclear` and of the call that made it, `ptreset` or `ptdelete`. -/
def clearEnd (s : System) (pid : Nat) (portid : Int) (newstate : Ptstate) : List Effect × System :=
  let s := s.setPort portid { s.porttab portid with ptstate := newstate }
  let s := if newstate = .free then { s with ptnextid := portid } else s
  let (effects, s) := s.finish pid ok
  (.settled portid newstate :: effects, s)

/-- The second semaphore of `_ptclear`. -/
def clearSecond (s : System) (pid : Nat) (portid : Int) (newstate : Ptstate) : List Effect × System :=
  let entry := s.porttab portid
  match if newstate = .alloc then semreset s.kernel entry.ptrsem 0 else semdelete s.kernel entry.ptrsem with
  | (true, kernel) => ([], { s with kernel := kernel.place pid (.ready (.cleared portid newstate)) })
  | (false, kernel) => clearEnd { s with kernel := kernel } pid portid newstate

/-- The first semaphore of `_ptclear`. -/
def clearFirst (s : System) (pid : Nat) (portid : Int) (newstate : Ptstate) : List Effect × System :=
  let entry := s.porttab portid
  match if newstate = .alloc then semreset s.kernel entry.ptssem entry.ptmaxcnt.toNat
    else semdelete s.kernel entry.ptssem with
  | (true, kernel) => ([], { s with kernel := kernel.place pid (.ready (.clearing portid newstate)) })
  | (false, kernel) => clearSecond { s with kernel := kernel } pid portid newstate

/-- `ptreset` and `ptdelete`, which differ in the new state. -/
def ptclear (s : System) (pid : Nat) (portid : Int) (newstate : Ptstate) :
    Option (List Effect × System) :=
  if isbadport portid ∨ (s.porttab portid).ptstate ≠ .alloc then some (s.finish pid syserr)
  else do
    let disposed ← walk s turns (s.porttab portid).pthead
    let (effects, s) := clearFirst (s.empty portid newstate) pid portid newstate
    some (.cleared portid disposed :: effects, s)

/-- `ptreset`. -/
def ptreset (s : System) (pid : Nat) (portid : Int) : Option (List Effect × System) :=
  ptclear s pid portid .alloc

/-- `ptdelete`. -/
def ptdelete (s : System) (pid : Nat) (portid : Int) : Option (List Effect × System) :=
  ptclear s pid portid .free

inductive Call where
  | ptcreate (count : Int32)
  | ptsend (portid : Int) (msg : UInt32)
  | ptrecv (portid : Int)
  | ptreset (portid : Int)
  | ptdelete (portid : Int)
deriving DecidableEq

/-- A process makes a call, or goes on in one. -/
inductive Move where
  | call (pid : Nat) (call : Call)
  | goOn (pid : Nat)
deriving DecidableEq

/-- A call up to its first switch, or up to its end. -/
def exec (s : System) (pid : Nat) : Call → Option (List Effect × System)
  | .ptcreate count =>
    let (ptnum, s) := ptcreate s count
    some (if ptnum = syserr then [.returned pid syserr]
      else [.created ptnum count, .returned pid ptnum], s)
  | .ptsend portid msg => ptsend s pid portid msg
  | .ptrecv portid => ptrecv s pid portid
  | .ptreset portid => ptreset s pid portid
  | .ptdelete portid => ptdelete s pid portid

/-- A process goes on. -/
def proceed (s : System) (pid : Nat) : Point → Option (List Effect × System)
  | .sending portid seq msg _ => ptsendRest s pid portid seq msg
  | .sent => some (s.finish pid ok)
  | .receiving portid seq _ => ptrecvRest s pid portid seq
  | .received msg => some (s.finish pid (word msg))
  | .clearing portid newstate => some (clearSecond s pid portid newstate)
  | .cleared portid newstate => some (clearEnd s pid portid newstate)

/-- One move. A process that runs waits nowhere. -/
def step (s : System) : Move → Option (List Effect × System)
  | .call pid call => if s.kernel.process pid = .idle then exec s pid call else none
  | .goOn pid => match s.kernel.process pid with
    | .ready point => proceed (s.place pid .idle) pid point
    | .idle | .waiting _ _ => none

end Xinu.Ports
