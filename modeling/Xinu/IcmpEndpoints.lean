import Xinu.Messages
import Xinu.PacketQueues

/-!
# ICMP endpoints

`icmptab` has ten slots, each with a circular queue of eight echo replies. `icmp_in` stores a reply
without a look at the counter, and the index of the first packet is wrapped at the number of slots and
not at the size of the queue. A place behind the queue is never read: such a call has no result.

As for UDP, another process can run where `recvtime` waits. Beside the table the system records for each
slot the replies that were accepted and those that were freed by `icmp_recv` or `icmp_release`.
-/

namespace Xinu.IcmpEndpoints

open Messages Packets

/-- `ICMP_SLOTS` and `ICMP_QSIZ`. -/
def icmpSlots : Nat := 10

def icmpQsiz : Nat := 8

/-- `SYSERR`, `OK` and `TIMEOUT`, as what the calls return. -/
def syserr : Int := -1

def ok : Int := 1

def timeout : Int := -3

/-- `ICMP_FREE`, `ICMP_USED` and `ICMP_RECV`. -/
inductive Icstate where
  | free
  | used
  | recv
deriving DecidableEq

/-- `struct icmpentry`. -/
structure Icmpentry where
  icstate : Icstate
  icremip : UInt32
  ichead : Nat
  ictail : Nat
  iccount : Int
  icpid : Int
  icqueue : Nat → NetPacket

/-- A process in `icmp_recv`: its slot and its room. -/
structure Point where
  slot : Nat
  len : Int
deriving DecidableEq

/-- The table, the processes and the records. -/
structure System where
  kernel : Kernel Point
  icmptab : Nat → Icmpentry
  accepted : Nat → List Nat
  freed : Nat → List Nat
  discarded : List Nat

/-- What a call comes to. -/
inductive Reply where
  | goesOn
  | returns (value : Int)
  | delivers (value : Int) (data : List UInt8)
deriving DecidableEq

def System.setEntry (s : System) (slot : Nat) (entry : Icmpentry) : System :=
  { s with icmptab := Function.update s.icmptab slot entry }

/-- A packet that is not wanted. -/
def discard (s : System) (pkt : NetPacket) : System := { s with discarded := s.discarded ++ [pkt.buffer] }

/-- A reply is stored behind the others of an entry, and a process that waits is told. -/
def acceptReply (s : System) (slot : Nat) (pkt : NetPacket) : System :=
  let entry := s.icmptab slot
  let stored := { entry with
    iccount := entry.iccount + 1
    icqueue := Function.update entry.icqueue entry.ictail pkt
    ictail := if icmpQsiz ≤ entry.ictail + 1 then 0 else entry.ictail + 1
    icstate := if entry.icstate = .recv then .used else entry.icstate }
  { s.setEntry slot stored with
    kernel := if entry.icstate = .recv then send s.kernel entry.icpid Messages.ok else s.kernel
    accepted := Function.update s.accepted slot (s.accepted slot ++ [pkt.buffer]) }

/-- A slot that an echo reply is for. -/
def replySlot (s : System) (pkt : NetPacket) : Option Nat :=
  let slot := pkt.netIcident.toNat
  if icmpSlots ≤ slot then none
  else if (s.icmptab slot).icstate = .free ∨ pkt.netIpsrc ≠ (s.icmptab slot).icremip then none
  else some slot

/-- `icmp_in` for an echo reply. -/
def icmpReply (s : System) (pkt : NetPacket) : System :=
  match replySlot s pkt with
  | none => discard s pkt
  | some slot => acceptReply s slot pkt

/-- `icmp_register`. -/
def icmpRegister (s : System) (remip : UInt32) : Int × System :=
  let registered := (List.range icmpSlots).any fun slot =>
    (s.icmptab slot).icstate ≠ .free && (s.icmptab slot).icremip = remip
  if registered then (syserr, s)
  else match (List.range icmpSlots).find? fun slot => (s.icmptab slot).icstate = .free with
    | none => (syserr, s)
    | some slot => (slot, s.setEntry slot { s.icmptab slot with
        icstate := .used, icremip := remip, iccount := 0, ichead := 0, ictail := 0, icpid := -1 })

/-- The first packet of a queue is removed. -/
def dequeue (entry : Icmpentry) : Option (NetPacket × Icmpentry) :=
  if icmpQsiz ≤ entry.ichead then none
  else some (entry.icqueue entry.ichead, { entry with
    ichead := if icmpSlots ≤ entry.ichead + 1 then 0 else entry.ichead + 1, iccount := entry.iccount - 1 })

/-- `icmp_recv` when a packet has arrived. -/
def takeReply (s : System) (point : Point) : Option (Reply × System) :=
  (dequeue (s.icmptab point.slot)).bind fun removed =>
    (icmpCopy removed.1 point.len).map fun copied =>
      (.delivers copied.1 copied.2, { s.setEntry point.slot removed.2 with
        freed := Function.update s.freed point.slot (s.freed point.slot ++ [removed.1.buffer]) })

/-- `icmp_recv` behind `recvtime`. -/
def afterWait (s : System) (point : Point) (msg : UInt32) : Option (Reply × System) :=
  let s := s.setEntry point.slot { s.icmptab point.slot with icstate := .used }
  if msg = Messages.timeout then some (.returns timeout, s)
  else if msg ≠ Messages.ok then some (.returns syserr, s)
  else takeReply s point

/-- `icmp_recv`. -/
def icmpRecv (s : System) (pid icmpid len : Int) (wait : UInt32) : Option (Reply × System) :=
  if icmpid < 0 ∨ icmpSlots ≤ icmpid then some (.returns syserr, s)
  else
    let point : Point := ⟨icmpid.toNat, len⟩
    let entry := s.icmptab point.slot
    if entry.icstate ≠ .used then some (.returns syserr, s)
    else if entry.iccount = 0 then
      let s := s.setEntry point.slot { entry with icstate := .recv, icpid := pid }
      match recvtime (recvclr s.kernel pid) pid point wait.toInt32 with
      | (none, kernel) => some (.goesOn, { s with kernel := kernel })
      | (some msg, kernel) => afterWait { s with kernel := kernel } point msg
    else takeReply s point

/-- The loop of `icmp_release`, with the buffers that it frees. -/
def releaseLoop : Nat → Icmpentry → Option (List Nat × Icmpentry)
  | 0, entry => some ([], entry)
  | left + 1, entry => (dequeue entry).bind fun removed =>
    (releaseLoop left removed.2).map fun rest => (removed.1.buffer :: rest.1, rest.2)

/-- `icmp_release`. -/
def icmpRelease (s : System) (icmpid : Int) : Option (Int × System) :=
  if icmpid < 0 ∨ icmpSlots ≤ icmpid then some (syserr, s)
  else
    let entry := s.icmptab icmpid.toNat
    if entry.icstate ≠ .used then some (syserr, s)
    else (releaseLoop entry.iccount.toNat entry).map fun released =>
      (ok, { s.setEntry icmpid.toNat { released.2 with icstate := .free } with
        freed := Function.update s.freed icmpid.toNat (s.freed icmpid.toNat ++ released.1) })

/-- A process makes a call, an echo reply arrives, a clock tick ends a wait, or a process goes on. -/
inductive Move where
  | register (remip : UInt32)
  | arrive (pkt : NetPacket)
  | recv (pid icmpid len : Int) (wait : UInt32)
  | release (icmpid : Int)
  | tick (pid : Int)
  | goOn (pid : Int)

/-- One move, with what the call comes to. -/
def step (s : System) : Move → Option (Reply × System)
  | .register remip => some (.returns (icmpRegister s remip).1, (icmpRegister s remip).2)
  | .arrive pkt => some (.goesOn, icmpReply s pkt)
  | .recv pid icmpid len wait =>
    if 0 ≤ pid ∧ s.kernel.process pid = .idle then icmpRecv s pid icmpid len wait else none
  | .release icmpid => (icmpRelease s icmpid).map fun released => (.returns released.1, released.2)
  | .tick pid => some (.goesOn, { s with kernel := tick s.kernel pid })
  | .goOn pid => match s.kernel.process pid with
    | .ready point =>
      afterWait { s with kernel := (recvtimeEnd s.kernel pid).2 } point (recvtimeEnd s.kernel pid).1
    | .idle | .waiting _ => none

/-- The table as the loader and `icmp_init` leave it, with messages that others sent before. -/
def icmpInit (prmsg : Int → Option UInt32) (nothing : NetPacket) : System where
  kernel := ⟨fun _ => .idle, prmsg⟩
  icmptab := fun _ => ⟨.free, 0, 0, 0, 0, 0, fun _ => nothing⟩
  accepted := fun _ => []
  freed := fun _ => []
  discarded := []

section Entries

variable {s : System} {slot other : Nat} {entry : Icmpentry}

@[simp] theorem setEntry_self : (s.setEntry slot entry).icmptab slot = entry := Function.update_self _ _ _

@[simp] theorem setEntry_kernel : (s.setEntry slot entry).kernel = s.kernel := rfl

@[simp] theorem setEntry_accepted : (s.setEntry slot entry).accepted = s.accepted := rfl

@[simp] theorem setEntry_freed : (s.setEntry slot entry).freed = s.freed := rfl

end Entries

end Xinu.IcmpEndpoints
