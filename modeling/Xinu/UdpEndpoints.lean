import Xinu.Messages
import Xinu.PacketQueues

/-!
# UDP endpoints

`udptab` has six slots, each with a circular queue of packets that came for it. A process that finds
no packet waits for a message, which `udp_in` sends it together with the next packet; the state of
the slot says that somebody waits. The process takes a packet when it runs again.

The calls run with interrupts disabled; another process can run where `recvtime` waits. Nothing
follows the `send` of `udp_in`, so that a switch there is not seen. A call that reads outside of a
packet has no result. Beside the table the system records the packets that were accepted and taken,
those that `udp_in` and `udp_release` discarded, the buffers that were freed, and a number that is
another one after each registration and each release of a slot.
-/

namespace Xinu.UdpEndpoints

open Messages Packets

/-- `UDP_SLOTS` and `UDP_QSIZ`. -/
def udpSlots : Nat := 6

def udpQsiz : Nat := 8

/-- `SYSERR`, `OK` and `TIMEOUT`, as what the calls return. -/
def syserr : Int := -1

def ok : Int := 1

def timeout : Int := -3

/-- `UDP_FREE`, `UDP_USED` and `UDP_RECV`. -/
inductive Udstate where
  | free
  | used
  | recv
deriving DecidableEq

/-- `struct udpentry`. -/
structure Udpentry where
  udstate : Udstate
  udremip : UInt32
  udremport : UInt16
  udlocport : UInt16
  udhead : Nat
  udtail : Nat
  udcount : Int
  udpid : Int
  udqueue : Nat → NetPacket

/-- A process in `udp_recv` or `udp_recvaddr`: its slot, its room, whether it wants the address of the
sender, and the number of the slot when it began to wait. -/
structure Point where
  slot : Nat
  len : Int
  sender : Bool
  number : Nat
deriving DecidableEq

/-- A packet that a process took from a slot. -/
structure Taken where
  slot : Nat
  pid : Int
  buffer : Nat
deriving DecidableEq

/-- The table, the processes and the records. -/
structure System where
  kernel : Kernel Point
  udptab : Nat → Udpentry
  number : Nat → Nat
  accepted : Nat → List Nat
  taken : List Taken
  discarded : List Nat
  freed : List Nat

/-- What a call comes to: it goes on, it returns a value, or it returns with the data of a packet. -/
inductive Reply where
  | goesOn
  | returns (value : Int)
  | delivers (value : Int) (data : List UInt8) (sender : Option (UInt32 × UInt16))
deriving DecidableEq

def System.setEntry (s : System) (slot : Nat) (entry : Udpentry) : System :=
  { s with udptab := Function.update s.udptab slot entry }

/-- The index behind another one. -/
def following (index : Nat) : Nat := if udpQsiz ≤ index + 1 then 0 else index + 1

/-- An entry of the table matches a packet. -/
def Udpentry.matches (entry : Udpentry) (pkt : NetPacket) : Bool :=
  pkt.netUdpdport = entry.udlocport && (entry.udremport = 0 || pkt.netUdpsport = entry.udremport) &&
    (entry.udremip = 0 || pkt.netIpsrc = entry.udremip)

/-- An entry that takes a packet in the loop of `udp_in`. -/
def Udpentry.accepts (entry : Udpentry) (pkt : NetPacket) : Bool :=
  entry.udstate ≠ .free && entry.matches pkt && entry.udcount < udpQsiz

/-- A packet is stored behind the others of an entry, and a process that waits is told. -/
def acceptPacket (s : System) (slot : Nat) (pkt : NetPacket) : System :=
  let entry := s.udptab slot
  let stored := { entry with
    udcount := entry.udcount + 1
    udqueue := Function.update entry.udqueue entry.udtail pkt
    udtail := following entry.udtail
    udstate := if entry.udstate = .recv then .used else entry.udstate }
  { s.setEntry slot stored with
    kernel := if entry.udstate = .recv then send s.kernel entry.udpid Messages.ok else s.kernel
    accepted := Function.update s.accepted slot (s.accepted slot ++ [pkt.buffer]) }

/-- `udp_in`. -/
def udpIn (s : System) (pkt : NetPacket) : System :=
  match (List.range udpSlots).find? fun slot => (s.udptab slot).accepts pkt with
  | some slot => acceptPacket s slot pkt
  | none => { s with discarded := s.discarded ++ [pkt.buffer], freed := s.freed ++ [pkt.buffer] }

/-- `udp_register`. -/
def udpRegister (s : System) (remip : UInt32) (remport locport : UInt16) : Int × System :=
  let registered := (List.range udpSlots).any fun slot =>
    (s.udptab slot).udstate ≠ .free && remport = (s.udptab slot).udremport &&
      locport = (s.udptab slot).udlocport && remip = (s.udptab slot).udremip
  if registered then (syserr, s)
  else match (List.range udpSlots).find? fun slot => (s.udptab slot).udstate = .free with
    | none => (syserr, s)
    | some slot =>
      let entry := { s.udptab slot with
        udlocport := locport, udremport := remport, udremip := remip, udcount := 0, udhead := 0, udtail := 0
        udpid := -1, udstate := .used }
      (slot, { s.setEntry slot entry with number := Function.update s.number slot (s.number slot + 1) })

/-- `udp_recv` and `udp_recvaddr` when a packet has arrived. -/
def takePacket (s : System) (pid : Int) (point : Point) : Option (Reply × System) :=
  let entry := s.udptab point.slot
  let pkt := entry.udqueue entry.udhead
  let left := { entry with udhead := following entry.udhead, udcount := entry.udcount - 1 }
  let sender := if point.sender then some (pkt.netIpsrc, pkt.netUdpsport) else none
  (udpCopy pkt point.len).map fun copied =>
    (.delivers copied.1 copied.2 sender, { s.setEntry point.slot left with
      taken := s.taken ++ [⟨point.slot, pid, pkt.buffer⟩], freed := s.freed ++ [pkt.buffer] })

/-- `udp_recv` and `udp_recvaddr` behind `recvtime`. -/
def afterWait (s : System) (pid : Int) (point : Point) (msg : UInt32) : Option (Reply × System) :=
  let s := s.setEntry point.slot { s.udptab point.slot with udstate := .used }
  if msg = Messages.timeout then some (.returns timeout, s)
  else if msg ≠ Messages.ok then some (.returns syserr, s)
  else takePacket s pid point

/-- `udp_recv` and `udp_recvaddr`, which differ in the address of the sender. -/
def receive (sender : Bool) (s : System) (pid slot len : Int) (wait : UInt32) : Option (Reply × System) :=
  if slot < 0 ∨ udpSlots ≤ slot then some (.returns syserr, s)
  else
    let point : Point := ⟨slot.toNat, len, sender, s.number slot.toNat⟩
    let entry := s.udptab point.slot
    if entry.udstate ≠ .used then some (.returns syserr, s)
    else if entry.udcount = 0 then
      let s := s.setEntry point.slot { entry with udstate := .recv, udpid := pid }
      match recvtime (recvclr s.kernel pid) pid point wait.toInt32 with
      | (none, kernel) => some (.goesOn, { s with kernel := kernel })
      | (some msg, kernel) => afterWait { s with kernel := kernel } pid point msg
    else takePacket s pid point

/-- `udp_recv`. -/
def udpRecv (s : System) (pid slot len : Int) (wait : UInt32) : Option (Reply × System) :=
  receive false s pid slot len wait

/-- `udp_recvaddr`. -/
def udpRecvaddr (s : System) (pid slot len : Int) (wait : UInt32) : Option (Reply × System) :=
  receive true s pid slot len wait

/-- The loop of `udp_release`, with the buffers that it frees. -/
def releaseLoop : Nat → Udpentry → List Nat × Udpentry
  | 0, entry => ([], entry)
  | left + 1, entry =>
    let pkt := entry.udqueue entry.udhead
    let (freed, entry) := releaseLoop left
      { entry with udhead := following entry.udhead, udcount := entry.udcount - 1 }
    (pkt.buffer :: freed, entry)

/-- `udp_release`. -/
def udpRelease (s : System) (slot : Int) : Int × System :=
  if slot < 0 ∨ udpSlots ≤ slot then (syserr, s)
  else
    let entry := s.udptab slot.toNat
    if entry.udstate = .free then (syserr, s)
    else
      let (freed, entry) := releaseLoop entry.udcount.toNat entry
      (ok, { s.setEntry slot.toNat { entry with udstate := .free } with
        discarded := s.discarded ++ freed, freed := s.freed ++ freed
        number := Function.update s.number slot.toNat (s.number slot.toNat + 1) })

/-- A process makes a call, a packet arrives, a clock tick ends a wait, or a process goes on. -/
inductive Move where
  | register (remip : UInt32) (remport locport : UInt16)
  | recv (pid slot len : Int) (wait : UInt32)
  | recvaddr (pid slot len : Int) (wait : UInt32)
  | arrive (pkt : NetPacket)
  | release (slot : Int)
  | tick (pid : Int)
  | goOn (pid : Int)

/-- A call by a process outside of all calls. -/
def begin_ (s : System) (pid : Int) (call : Option (Reply × System)) : Option (Reply × System) :=
  if 0 ≤ pid ∧ s.kernel.process pid = .idle then call else none

/-- One move, with what the call comes to. -/
def step (s : System) : Move → Option (Reply × System)
  | .register remip remport locport =>
    let (value, s) := udpRegister s remip remport locport
    some (.returns value, s)
  | .recv pid slot len wait => begin_ s pid (udpRecv s pid slot len wait)
  | .recvaddr pid slot len wait => begin_ s pid (udpRecvaddr s pid slot len wait)
  | .arrive pkt => some (.goesOn, udpIn s pkt)
  | .release slot =>
    let (value, s) := udpRelease s slot
    some (.returns value, s)
  | .tick pid => some (.goesOn, { s with kernel := tick s.kernel pid })
  | .goOn pid => match s.kernel.process pid with
    | .ready point =>
      let (msg, kernel) := recvtimeEnd s.kernel pid
      afterWait { s with kernel := kernel } pid point msg
    | .idle | .waiting _ => none

/-- The table as `udp_init` leaves it, with messages that others sent before. -/
def udpInit (prmsg : Int → Option UInt32) (udptab : Nat → Udpentry) : System where
  kernel := ⟨fun _ => .idle, prmsg⟩
  udptab := fun slot => { udptab slot with udstate := .free }
  number := fun _ => 0
  accepted := fun _ => []
  taken := []
  discarded := []
  freed := []

section Entries

variable {s : System} {slot other : Nat} {entry : Udpentry}

@[simp] theorem setEntry_self : (s.setEntry slot entry).udptab slot = entry := Function.update_self _ _ _

theorem setEntry_of_ne (apart : other ≠ slot) : (s.setEntry slot entry).udptab other = s.udptab other :=
  Function.update_of_ne apart _ _

@[simp] theorem setEntry_kernel : (s.setEntry slot entry).kernel = s.kernel := rfl

@[simp] theorem setEntry_taken : (s.setEntry slot entry).taken = s.taken := rfl

end Entries

end Xinu.UdpEndpoints
