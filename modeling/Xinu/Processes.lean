import Xinu.CIntegers
import Xinu.Runs

/-!
# Processes and their queues

The process manager keeps a table of processes, a table of semaphores and one table of
queue entries that holds the ready list, the list of sleeping processes and the queue of
every semaphore. A queue is a doubly linked list between two entries of its own; an entry
below `NPROC` belongs to the process with that number and is in one list at most.

All calls run with interrupts disabled, so that another process can run only where
`resched` switches to it. A process that is switched away from goes on later inside of its
call: the place is kept where the source keeps the saved stack. One step of the model is
what the current process does up to the next such place. It is the only process that can
take the next step, whether `resched` has switched or not, and interrupts stay disabled
until its call ends.

Indices are integers. An entry outside of the tables is some memory as well, except that
the model gives up where `resched` takes a process from an empty ready list and where a
loop goes round in a circle. What `getstk` answers is part of `create`. Closing the
descriptors of a process that ends, its name, and the counters of seconds are left out.
The log is no part of the source: it records what happens, the latest first.
-/

namespace Xinu.Processes

/-- The sizes of the tables. -/
def nproc : Int := 100

def nsem : Int := 100

def nqent : Int := nproc + 4 + nsem + nsem

/-- Return values. -/
def ok : Int := 1

def syserr : Int := -1

def timeout : UInt32 := 0xFFFFFFFD

/-- `EMPTY`, `MAXKEY` and `MINKEY`. -/
def empty : Int := -1

def maxkey : Int32 := 0x7FFFFFFF

def minkey : Int32 := -0x80000000

/-- `NULLPROC`, `MINSTK` and `QUANTUM`. -/
def nullproc : Int := 0

def minstk : UInt32 := 400

def quantum : UInt32 := 2

/-- More turns than a loop through a queue can take. -/
def queueTurns : Nat := 305

/-- The states of a process. -/
inductive Prstate where
  | free
  | curr
  | ready
  | recv
  | sleep
  | susp
  | wait
  | rectim
deriving DecidableEq

/-- Where a process goes on: in its own code, before a return, or behind the `resched` of a
call. -/
inductive Point where
  | user
  | answer (value : Int)
  | suspendEnd (pid : Int)
  | receiveEnd
  | recvtimeEnd
  | killSent (pid : Int)
  | suicideEnd (pid : Int)
  | clkWoken
deriving DecidableEq

/-- `struct procent`, with the saved place instead of the saved stack pointer. -/
structure Procent where
  prstate : Prstate
  prprio : Int16
  prstkptr : Point
  prstkbase : UInt32
  prstklen : UInt32
  prsem : Int
  prparent : Int
  prmsg : UInt32
  prhasmsg : Bool

/-- `struct qentry`. -/
structure Qentry where
  qkey : Int32
  qnext : Int
  qprev : Int

/-- `S_FREE` and `S_USED`. -/
inductive Sstate where
  | free
  | used
deriving DecidableEq

/-- `struct sentry`. -/
structure Sentry where
  sstate : Sstate
  scount : Int32
  squeue : Int

/-- What the log records. -/
inductive Entry where
  | returned (pid value : Int)
  | readied (pid : Int)
  | semSet (sem : Int) (count : Int32)
  | semGone (sem : Int)
  | signalled (sem : Int)
  | passed (pid sem : Int)
  | blocked (pid sem : Int)
  | released (pid sem : Int)
  | discharged (pid sem : Int)
  | withdrawn (pid sem : Int)
  | ticked
  | slept (pid : Int) (ticks : Int32)
  | woken (pid : Int)
  | roused (pid : Int)
  | sent (pid : Int) (msg : UInt32)
  | took (pid : Int) (msg : UInt32)
  | timed (pid : Int)
  | timedOut (pid : Int)
  | created (pid : Int) (base len : UInt32)
  | leaked (base len : UInt32)
  | killBegun (pid : Int)
  | stackFreed (pid : Int) (base len : UInt32)
  | slotFreed (pid : Int)
deriving DecidableEq

/-- The globals of the process manager. -/
structure Kernel where
  proctab : Int → Procent
  queuetab : Int → Qentry
  semtab : Int → Sentry
  currpid : Int
  prcount : Int
  readylist : Int
  sleepq : Int
  ndefers : Int
  attempt : Bool
  preempt : UInt32
  nextpid : Nat
  nextsem : Nat
  halted : Bool
  log : List Entry

/-- One more entry of the log. -/
def Kernel.note (k : Kernel) (entry : Entry) : Kernel := { k with log := entry :: k.log }

/-- An entry of the process table, its state, and where it goes on. -/
def Kernel.setProc (k : Kernel) (pid : Int) (entry : Procent) : Kernel :=
  { k with proctab := Function.update k.proctab pid entry }

def Kernel.setState (k : Kernel) (pid : Int) (state : Prstate) : Kernel :=
  k.setProc pid { k.proctab pid with prstate := state }

/-- The current process goes on here. -/
def Kernel.goOnAt (k : Kernel) (point : Point) : Kernel :=
  k.setProc k.currpid { k.proctab k.currpid with prstkptr := point }

/-- The current process returns from its call. -/
def Kernel.answer (k : Kernel) (value : Int) : Kernel :=
  (k.goOnAt .user).note (.returned k.currpid value)

/-- The fields of a queue entry. -/
def Kernel.setNext (k : Kernel) (index next : Int) : Kernel :=
  { k with queuetab := Function.update k.queuetab index { k.queuetab index with qnext := next } }

def Kernel.setPrev (k : Kernel) (index prev : Int) : Kernel :=
  { k with queuetab := Function.update k.queuetab index { k.queuetab index with qprev := prev } }

def Kernel.setKey (k : Kernel) (index : Int) (key : Int32) : Kernel :=
  { k with queuetab := Function.update k.queuetab index { k.queuetab index with qkey := key } }

/-- The count of a semaphore. -/
def Kernel.setCount (k : Kernel) (sem : Int) (count : Int32) : Kernel :=
  { k with semtab := Function.update k.semtab sem { k.semtab sem with scount := count } }

/-- The macros of `queue.h`. -/
def queuehead (q : Int) : Int := q

def queuetail (q : Int) : Int := q + 1

def Kernel.firstid (k : Kernel) (q : Int) : Int := (k.queuetab (queuehead q)).qnext

def Kernel.firstkey (k : Kernel) (q : Int) : Int32 := (k.queuetab (k.firstid q)).qkey

def Kernel.isempty (k : Kernel) (q : Int) : Bool := decide (nproc ≤ k.firstid q)

def Kernel.nonempty (k : Kernel) (q : Int) : Bool := decide (k.firstid q < nproc)

def isbadqid (q : Int) : Bool := decide (q < 0 ∨ nqent - 1 ≤ q)

/-- `isbadpid` and `isbadsem`. -/
def Kernel.isbadpid (k : Kernel) (pid : Int) : Bool :=
  decide (pid < 0 ∨ nproc ≤ pid ∨ (k.proctab pid).prstate = .free)

def isbadsem (sem : Int) : Bool := decide (sem < 0 ∨ nsem ≤ sem)

/-- `enqueue`. -/
def enqueue (k : Kernel) (pid q : Int) : Int × Kernel :=
  if isbadqid q ∨ k.isbadpid pid then (syserr, k)
  else
    let tail := queuetail q
    let prev := (k.queuetab tail).qprev
    let k := k.setNext pid tail
    let k := k.setPrev pid prev
    let k := k.setNext prev pid
    let k := k.setPrev tail pid
    (pid, k)

/-- `getitem`. -/
def getitem (k : Kernel) (pid : Int) : Int × Kernel :=
  let next := (k.queuetab pid).qnext
  let prev := (k.queuetab pid).qprev
  let k := k.setNext prev next
  let k := k.setPrev next prev
  (pid, k)

/-- `getfirst`. -/
def getfirst (k : Kernel) (q : Int) : Int × Kernel :=
  if k.isempty q then (empty, k)
  else getitem k (k.queuetab (queuehead q)).qnext

/-- `dequeue`. -/
def dequeue (k : Kernel) (q : Int) : Int × Kernel :=
  if isbadqid q then (syserr, k)
  else if k.isempty q then (empty, k)
  else
    let (pid, k) := getfirst k q
    let k := k.setPrev pid empty
    let k := k.setNext pid empty
    (pid, k)

/-- The loop of `insert`. -/
def Kernel.insertPlace (k : Kernel) (key : Int32) : Nat → Int → Option Int
  | 0, _ => none
  | turns + 1, curr =>
    if key.toInt ≤ (k.queuetab curr).qkey.toInt then
      k.insertPlace key turns (k.queuetab curr).qnext
    else some curr

/-- `insert`. -/
def insert (k : Kernel) (pid q : Int) (key : Int32) : Option (Int × Kernel) :=
  if isbadqid q ∨ k.isbadpid pid then some (syserr, k)
  else do
    let curr ← k.insertPlace key queueTurns (k.firstid q)
    let prev := (k.queuetab curr).qprev
    let k := k.setNext pid curr
    let k := k.setPrev pid prev
    let k := k.setKey pid key
    let k := k.setNext prev pid
    let k := k.setPrev curr pid
    some (ok, k)

/-- The loop of `insertd`. -/
def Kernel.insertdPlace (k : Kernel) (q : Int) :
    Nat → Int → Int → Int32 → Option (Int × Int × Int32)
  | 0, _, _, _ => none
  | turns + 1, prev, next, key =>
    if next ≠ queuetail q ∧ (k.queuetab next).qkey.toInt ≤ key.toInt then
      k.insertdPlace q turns next (k.queuetab next).qnext (key - (k.queuetab next).qkey)
    else some (prev, next, key)

/-- `insertd`. -/
def insertd (k : Kernel) (pid q : Int) (key : Int32) : Option (Int × Kernel) :=
  if isbadqid q ∨ k.isbadpid pid then some (syserr, k)
  else do
    let (prev, next, key) ← k.insertdPlace q queueTurns (queuehead q)
      (k.queuetab (queuehead q)).qnext key
    let k := k.setNext pid next
    let k := k.setPrev pid prev
    let k := k.setKey pid key
    let k := k.setNext prev pid
    let k := k.setPrev next pid
    if next ≠ queuetail q then
      some (ok, k.setKey next ((k.queuetab next).qkey - key))
    else some (ok, k)

/-- The lines of `ready` and `resched` that put a process on the ready list. -/
def Kernel.becomeReady (k : Kernel) (pid : Int) : Option Kernel := do
  let k := k.setState pid .ready
  let (_, k) ← insert k pid k.readylist (k.proctab pid).prprio.toInt32
  some (k.note (.readied pid))

/-- The lines of `resched` that switch to the first ready process. -/
def Kernel.switch (k : Kernel) : Option Kernel :=
  let (pid, k) := dequeue k k.readylist
  if pid < 0 then none
  else some ({ k with currpid := pid, preempt := quantum }.setState pid .curr)

/-- `resched`. -/
def resched (k : Kernel) : Option Kernel :=
  if 0 < k.ndefers then some { k with attempt := true }
  else
    let ptold := k.proctab k.currpid
    if ptold.prstate = .curr then
      if (k.firstkey k.readylist).toInt < ptold.prprio.toInt then some k
      else do
        let k ← k.becomeReady k.currpid
        k.switch
    else k.switch

/-- `resched_cntl` with `DEFER_START` and with `DEFER_STOP`. -/
def deferStart (k : Kernel) : Kernel :=
  { k with ndefers := k.ndefers + 1, attempt := if k.ndefers = 0 then false else k.attempt }

def deferStop (k : Kernel) : Option Kernel :=
  if k.ndefers ≤ 0 then some k
  else
    let k := { k with ndefers := k.ndefers - 1 }
    if k.ndefers = 0 ∧ k.attempt = true then resched k else some k

/-- `ready`. -/
def ready (k : Kernel) (pid : Int) : Option Kernel :=
  if k.isbadpid pid then some k
  else do
    let k ← k.becomeReady pid
    resched k

/-- `unsleep`. -/
def unsleep (k : Kernel) (pid : Int) : Int × Kernel :=
  if k.isbadpid pid then (syserr, k)
  else if (k.proctab pid).prstate ≠ .sleep ∧ (k.proctab pid).prstate ≠ .rectim then (syserr, k)
  else
    let pidnext := (k.queuetab pid).qnext
    let k := if pidnext < nproc then
        k.setKey pidnext ((k.queuetab pidnext).qkey + (k.queuetab pid).qkey)
      else k
    (ok, (getitem k pid).2)

/-- The loop of `wakeup`. -/
def wakeupLoop : Nat → Kernel → Option Kernel
  | 0, _ => none
  | turns + 1, k =>
    if k.nonempty k.sleepq ∧ (k.firstkey k.sleepq).toInt ≤ 0 then do
      let (pid, k) := dequeue k k.sleepq
      let k ← ready (k.note (.woken pid)) pid
      wakeupLoop turns k
    else some k

/-- `wakeup`. -/
def wakeup (k : Kernel) : Option Kernel := do
  let k ← wakeupLoop queueTurns (deferStart k)
  deferStop k

/-- The loop of `newpid`. -/
def newpidLoop : Nat → Kernel → Int × Kernel
  | 0, k => (syserr, k)
  | turns + 1, k =>
    let nextpid := k.nextpid % nproc.toNat
    if (k.proctab nextpid).prstate = .free then (nextpid, { k with nextpid := nextpid + 1 })
    else newpidLoop turns { k with nextpid := nextpid + 1 }

/-- `newpid`. -/
def newpid (k : Kernel) : Int × Kernel := newpidLoop nproc.toNat k

/-- The size of the stack that `create` asks for. -/
def stackSize (ssize : UInt32) : UInt32 :=
  let ssize := if ssize < minstk then minstk else ssize
  (ssize + 3) &&& 0xFFFFFFFC

/-- `create`, with what `getstk` answers. -/
def create (k : Kernel) (ssize : UInt32) (priority : Int16) (stack : Option UInt32) : Kernel :=
  let ssize := stackSize ssize
  match stack with
  | none => k.answer syserr
  | some saddr =>
    let (pid, k) := newpid k
    if pid = syserr ∨ priority.toInt < 1 then (k.note (.leaked saddr ssize)).answer syserr
    else
      let k := { k with prcount := k.prcount + 1 }
      let k := k.setProc pid { k.proctab pid with
        prstate := .susp, prprio := priority, prstkbase := saddr, prstklen := ssize, prsem := -1,
        prparent := k.currpid, prhasmsg := false, prstkptr := .user }
      (k.note (.created pid saddr ssize)).answer pid

/-- `resume`. -/
def resume (k : Kernel) (pid : Int) : Option Kernel :=
  if k.isbadpid pid then some (k.answer syserr)
  else if (k.proctab pid).prstate ≠ .susp then some (k.answer syserr)
  else
    let prio := (k.proctab pid).prprio
    ready (k.goOnAt (.answer prio.toInt)) pid

/-- `suspend`. -/
def suspend (k : Kernel) (pid : Int) : Option Kernel :=
  if k.isbadpid pid ∨ pid = nullproc then some (k.answer syserr)
  else if (k.proctab pid).prstate ≠ .curr ∧ (k.proctab pid).prstate ≠ .ready then
    some (k.answer syserr)
  else if (k.proctab pid).prstate = .ready then
    let k := (getitem k pid).2.setState pid .susp
    some (k.answer (k.proctab pid).prprio.toInt)
  else resched ((k.setState pid .susp).goOnAt (.suspendEnd pid))

/-- `wait`. -/
def wait (k : Kernel) (sem : Int) : Option Kernel :=
  if isbadsem sem then some (k.answer syserr)
  else if (k.semtab sem).sstate = .free then some (k.answer syserr)
  else
    let k := k.setCount sem ((k.semtab sem).scount - 1)
    if (k.semtab sem).scount.toInt < 0 then
      let k := k.setProc k.currpid { k.proctab k.currpid with prstate := .wait, prsem := sem }
      let k := (enqueue k k.currpid (k.semtab sem).squeue).2
      resched ((k.note (.blocked k.currpid sem)).goOnAt (.answer ok))
    else some ((k.note (.passed k.currpid sem)).answer ok)

/-- One round of `signal` or `signaln`. -/
def signalOnce (k : Kernel) (sem : Int) : Option Kernel :=
  let count := (k.semtab sem).scount
  let k := (k.setCount sem (count + 1)).note (.signalled sem)
  if count.toInt < 0 then
    let (pid, k) := dequeue k (k.semtab sem).squeue
    ready (if 0 ≤ pid then k.note (.released pid sem) else k) pid
  else some k

/-- `signal`. -/
def signal (k : Kernel) (sem : Int) : Option Kernel :=
  if isbadsem sem then some (k.answer syserr)
  else if (k.semtab sem).sstate = .free then some (k.answer syserr)
  else signalOnce (k.goOnAt (.answer ok)) sem

/-- The loop of `signaln`. -/
def signalLoop (sem : Int) : Nat → Kernel → Option Kernel
  | 0, k => some k
  | count + 1, k => do
    let k ← signalOnce k sem
    signalLoop sem count k

/-- `signaln`. -/
def signaln (k : Kernel) (sem : Int) (count : Int32) : Option Kernel :=
  if isbadsem sem ∨ count.toInt < 0 then some (k.answer syserr)
  else if (k.semtab sem).sstate = .free then some (k.answer syserr)
  else do
    let k ← signalLoop sem count.toInt.toNat (deferStart (k.goOnAt (.answer ok)))
    deferStop k

/-- The loop of `newsem`. -/
def newsemLoop : Nat → Kernel → Int × Kernel
  | 0, k => (syserr, k)
  | turns + 1, k =>
    let sem := k.nextsem
    let k := { k with nextsem := if nsem ≤ (sem + 1 : Nat) then 0 else sem + 1 }
    if (k.semtab sem).sstate = .free then
      (sem, { k with semtab := Function.update k.semtab sem { k.semtab sem with sstate := .used } })
    else newsemLoop turns k

/-- `newsem`. -/
def newsem (k : Kernel) : Int × Kernel := newsemLoop nsem.toNat k

/-- `semcreate`. -/
def semcreate (k : Kernel) (count : Int32) : Kernel :=
  if count.toInt < 0 then k.answer syserr
  else
    let (sem, k) := newsem k
    if sem = syserr then k.answer syserr
    else ((k.setCount sem count).note (.semSet sem count)).answer sem

/-- The loop of `semreset`. -/
def semresetLoop (sem : Int) : Nat → Kernel → Option Kernel
  | 0, _ => none
  | turns + 1, k =>
    let (pid, k) := getfirst k (k.semtab sem).squeue
    if pid = empty then some k
    else do
      let k ← ready (k.note (.discharged pid sem)) pid
      semresetLoop sem turns k

/-- `semreset`. -/
def semreset (k : Kernel) (sem : Int) (count : Int32) : Option Kernel :=
  if count.toInt < 0 ∨ isbadsem sem ∨ (k.semtab sem).sstate = .free then some (k.answer syserr)
  else do
    let k ← semresetLoop sem queueTurns (deferStart (k.goOnAt (.answer ok)))
    let k := (k.setCount sem count).note (.semSet sem count)
    deferStop k

/-- The loop of `semdelete`. -/
def semdeleteLoop (sem : Int) : Nat → Kernel → Option Kernel
  | 0, _ => none
  | turns + 1, k =>
    let count := (k.semtab sem).scount
    let k := k.setCount sem (count + 1)
    if count.toInt < 0 then do
      let (pid, k) := getfirst k (k.semtab sem).squeue
      let k ← ready (if 0 ≤ pid then k.note (.discharged pid sem) else k) pid
      semdeleteLoop sem turns k
    else some k

/-- `semdelete`. -/
def semdelete (k : Kernel) (sem : Int) : Option Kernel :=
  if isbadsem sem then some (k.answer syserr)
  else if (k.semtab sem).sstate = .free then some (k.answer syserr)
  else do
    let k := { k with
      semtab := Function.update k.semtab sem { k.semtab sem with sstate := .free } }
    let k := (k.goOnAt (.answer ok)).note (.semGone sem)
    let k ← semdeleteLoop sem ((-(k.semtab sem).scount.toInt).toNat + 1) (deferStart k)
    deferStop k

/-- The checks of `send`. -/
def Kernel.refuses (k : Kernel) (pid : Int) : Bool :=
  k.isbadpid pid || (k.proctab pid).prhasmsg

/-- The rest of `send`. -/
def deliver (k : Kernel) (pid : Int) (msg : UInt32) : Option Kernel :=
  let k := (k.setProc pid { k.proctab pid with prmsg := msg, prhasmsg := true }).note (.sent pid msg)
  if (k.proctab pid).prstate = .recv then ready k pid
  else if (k.proctab pid).prstate = .rectim then
    ready ((unsleep k pid).2.note (.roused pid)) pid
  else some k

/-- `send`. -/
def send (k : Kernel) (pid : Int) (msg : UInt32) : Option Kernel :=
  if k.refuses pid then some (k.answer syserr)
  else deliver (k.goOnAt (.answer ok)) pid msg

/-- A message is retrieved and returned. -/
def Kernel.take (k : Kernel) : Kernel :=
  let entry := k.proctab k.currpid
  let k := k.setProc k.currpid { entry with prhasmsg := false }
  (k.note (.took k.currpid entry.prmsg)).answer entry.prmsg.toNat

/-- `receive`. -/
def receive (k : Kernel) : Option Kernel :=
  if (k.proctab k.currpid).prhasmsg = false then
    resched ((k.setState k.currpid .recv).goOnAt .receiveEnd)
  else some k.take

/-- The end of `recvtime`. -/
def recvtimeEnd (k : Kernel) : Kernel :=
  if (k.proctab k.currpid).prhasmsg then k.take
  else (k.note (.timedOut k.currpid)).answer timeout.toNat

/-- `recvtime`. -/
def recvtime (k : Kernel) (maxwait : Int32) : Option Kernel :=
  if maxwait.toInt < 0 then some (k.answer syserr)
  else
    let k := k.note (.timed k.currpid)
    if (k.proctab k.currpid).prhasmsg = false then do
      let (status, k) ← insertd k k.currpid k.sleepq maxwait
      if status = syserr then some (k.answer syserr)
      else
        let k := (k.setState k.currpid .rectim).note (.slept k.currpid maxwait)
        resched (k.goOnAt .recvtimeEnd)
    else some (recvtimeEnd k)

/-- `recvclr`. -/
def recvclr (k : Kernel) : Kernel :=
  if (k.proctab k.currpid).prhasmsg then k.take else k.answer ok

/-- `yield`. -/
def yield (k : Kernel) : Option Kernel := resched (k.goOnAt (.answer ok))

/-- `sleepms`. -/
def sleepms (k : Kernel) (delay : UInt32) : Option Kernel :=
  if delay = 0 then yield k
  else do
    let (status, k) ← insertd k k.currpid k.sleepq delay.toInt32
    if status = syserr then some (k.answer syserr)
    else
      let k := (k.setState k.currpid .sleep).note (.slept k.currpid delay.toInt32)
      resched (k.goOnAt (.answer ok))

/-- `chprio`. -/
def chprio (k : Kernel) (pid : Int) (newprio : Int16) : Kernel :=
  if k.isbadpid pid then k.answer syserr
  else
    let oldprio := (k.proctab pid).prprio
    (k.setProc pid { k.proctab pid with prprio := newprio }).answer oldprio.toInt

/-- `kill` up to its `send`. The processor halts where the last user process ends. -/
def kill (k : Kernel) (pid : Int) : Option Kernel :=
  if k.isbadpid pid ∨ pid = nullproc then some (k.answer syserr)
  else
    let k := ({ k with prcount := k.prcount - 1 }.note (.killBegun pid)).goOnAt (.killSent pid)
    if k.prcount ≤ 1 then some { k with halted := true }
    else
      let parent := (k.proctab pid).prparent
      if k.refuses parent then some k
      else deliver k parent (Int32.ofInt pid).toUInt32

/-- An entry of the process table is given up. -/
def Kernel.freeSlot (k : Kernel) (pid : Int) : Kernel :=
  (k.setState pid .free).note (.slotFreed pid)

/-- `kill` behind its `send`. -/
def killRest (k : Kernel) (pid : Int) : Option Kernel :=
  let entry := k.proctab pid
  let k := k.note (.stackFreed pid entry.prstkbase entry.prstklen)
  match entry.prstate with
  | .curr => resched ((k.freeSlot pid).goOnAt (.suicideEnd pid))
  | .sleep | .rectim =>
    some ((((unsleep k pid).2.note (.roused pid)).freeSlot pid).answer ok)
  | .wait =>
    let k := (k.setCount entry.prsem ((k.semtab entry.prsem).scount + 1)).note
      (.withdrawn pid entry.prsem)
    some (((getitem k pid).2.freeSlot pid).answer ok)
  | .ready => some (((getitem k pid).2.freeSlot pid).answer ok)
  | .free | .recv | .susp => some ((k.freeSlot pid).answer ok)

/-- `kill` behind the `resched` of a process that ended itself. -/
def suicideRest (k : Kernel) (pid : Int) : Kernel :=
  ((unsleep k pid).2.setState pid .free).answer ok

/-- The two platforms. -/
inductive Platform where
  | armQemu
  | armBbb
deriving DecidableEq

/-- The end of `clkhandler` on arm-bbb. -/
def clkPreempt (k : Kernel) : Option Kernel :=
  let k := { k with preempt := k.preempt - 1 }
  if k.preempt = 0 then resched { k with preempt := quantum } else some k

/-- The first key of the sleep queue is lowered. -/
def Kernel.lowerFirst (k : Kernel) : Kernel :=
  k.setKey (k.firstid k.sleepq) (k.firstkey k.sleepq - 1)

/-- `clkhandler`, on an interrupt of the timer. -/
def clkhandler (k : Kernel) : Platform → Option Kernel
  | .armQemu =>
    let k := k.note .ticked
    if k.nonempty k.sleepq then
      let k := k.lowerFirst
      if (k.firstkey k.sleepq).toInt ≤ 0 then wakeup k else resched k
    else resched k
  | .armBbb =>
    let k := k.note .ticked
    if k.isempty k.sleepq = false then
      let k := k.lowerFirst
      if (k.firstkey k.sleepq).toInt = 0 then wakeup (k.goOnAt .clkWoken) else clkPreempt k
    else clkPreempt k

/-- The calls. -/
inductive Call where
  | create (ssize : UInt32) (priority : Int16) (stack : Option UInt32)
  | resume (pid : Int)
  | suspend (pid : Int)
  | wait (sem : Int)
  | signal (sem : Int)
  | signaln (sem : Int) (count : Int32)
  | semcreate (count : Int32)
  | semreset (sem : Int) (count : Int32)
  | semdelete (sem : Int)
  | send (pid : Int) (msg : UInt32)
  | receive
  | recvtime (maxwait : Int32)
  | recvclr
  | sleepms (delay : UInt32)
  | yield
  | chprio (pid : Int) (newprio : Int16)
  | kill (pid : Int)

/-- A call of the current process. -/
def exec (k : Kernel) : Call → Option Kernel
  | .create ssize priority stack => some (create k ssize priority stack)
  | .resume pid => resume k pid
  | .suspend pid => suspend k pid
  | .wait sem => wait k sem
  | .signal sem => signal k sem
  | .signaln sem count => signaln k sem count
  | .semcreate count => some (semcreate k count)
  | .semreset sem count => semreset k sem count
  | .semdelete sem => semdelete k sem
  | .send pid msg => send k pid msg
  | .receive => receive k
  | .recvtime maxwait => recvtime k maxwait
  | .recvclr => some (recvclr k)
  | .sleepms delay => sleepms k delay
  | .yield => yield k
  | .chprio pid newprio => some (chprio k pid newprio)
  | .kill pid => kill k pid

/-- The current process goes on inside of a call. -/
def proceed (k : Kernel) : Point → Option Kernel
  | .user => none
  | .answer value => some (k.answer value)
  | .suspendEnd pid => some (k.answer (k.proctab pid).prprio.toInt)
  | .receiveEnd => some k.take
  | .recvtimeEnd => some (recvtimeEnd k)
  | .killSent pid => killRest k pid
  | .suicideEnd pid => some (suicideRest k pid)
  | .clkWoken => clkPreempt (k.goOnAt .user)

/-- What happens next: the current process makes a call, the clock interrupts it, or it goes
on inside of a call. -/
inductive Move where
  | call (call : Call)
  | tick (platform : Platform)
  | goOn

/-- One step. Calls and ticks come while the current process is in its own code. -/
def step (k : Kernel) : Move → Option (Unit × Kernel)
  | .call call =>
    if k.halted = false ∧ (k.proctab k.currpid).prstkptr = .user then
      (exec k call).map (Prod.mk ())
    else none
  | .tick platform =>
    if k.halted = false ∧ (k.proctab k.currpid).prstkptr = .user then
      (clkhandler k platform).map (Prod.mk ())
    else none
  | .goOn =>
    if k.halted = false ∧ (k.proctab k.currpid).prstkptr ≠ .user then
      (proceed k (k.proctab k.currpid).prstkptr).map (Prod.mk ())
    else none

/-- A process table entry as `sysinit` leaves it: free, except that of the null process. -/
def bootProc (pid : Int) : Procent :=
  ⟨if pid = nullproc then .curr else .free, 0, .user, 0, 0, 0, 0, 0, false⟩

/-- Behind the entries of the processes come the heads and tails of the queues. -/
def bootQueue (index : Int) : Qentry :=
  if index < nproc then ⟨0, 0, 0⟩
  else if index % 2 = 0 then ⟨maxkey, index + 1, empty⟩
  else ⟨minkey, empty, index - 1⟩

/-- The system after `sysinit`: the queues of the semaphores, the ready list and the sleep
queue were allocated in this order. -/
def boot : Kernel where
  proctab := bootProc
  queuetab := bootQueue
  semtab := fun sem => ⟨.free, 0, nproc + 2 * sem⟩
  currpid := nullproc
  prcount := 1
  readylist := nproc + 2 * nsem
  sleepq := nproc + 2 * nsem + 2
  ndefers := 0
  attempt := false
  preempt := quantum
  nextpid := 1
  nextsem := 0
  halted := false
  log := []

end Xinu.Processes
