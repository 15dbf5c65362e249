import Xinu.Messages
import Xinu.Packets
import Xinu.RunConditions

/-!
# The ARP cache

`arp_resolve` looks for an address in a cache of sixteen entries. If there is none, it takes a free entry or
one that is resolved, marks it as pending, sends a request and waits for a message; `arp_in` fills the entry
in and sends the message. The process that waits keeps the place of its entry in between.

Other processes run where `write` sends the request and where `recvtime` waits. `arp_in` does not use the
cache behind its `send`. Fields are read in network order, which `arp_ntoh` converts in place. The system
records the sender addresses of the packets that `arp_in` accepts.
-/

namespace Xinu.Arp

open CIntegers NetworkOrder Packets Messages Runs

/-- `ARP_SIZ`, `ARP_RETRY`, `ARP_TIMEOUT` and `ARP_HALEN`. -/
def arpSiz : Nat := 16

def arpRetry : Nat := 3

def arpTimeout : Int32 := 300

def arpHalen : Nat := 6

/-- `ARP_HTYPE`, `ARP_PTYPE` and `ARP_OP_RPLY`. -/
def arpHtype : UInt16 := 1

def arpPtype : UInt16 := 0x0800

def arpOpRply : UInt16 := 2

/-- `SYSERR` and `TIMEOUT`, as what `arp_resolve` returns. -/
def syserr : Int := -1

def timeout : Int := -3

/-- `AR_FREE`, `AR_PENDING` and `AR_RESOLVED`. -/
inductive Arstate where
  | free
  | pending
  | resolved
deriving DecidableEq

/-- `struct arpentry`. -/
structure Arpentry where
  arstate : Arstate
  arpaddr : UInt32
  arpid : Int
  arhaddr : List UInt8
deriving DecidableEq

/-- A process in `arp_resolve`: its entry, the address it resolves, the requests it has sent, and whether it
goes on behind `recvtime` or behind `write`. -/
structure Point where
  slot : Nat
  nxthop : UInt32
  sent : Nat
  waited : Bool
deriving DecidableEq

/-- The cache, the processes, and the sender addresses that were received. -/
structure System where
  netData : NetData
  kernel : Kernel Point
  arpcache : Nat → Arpentry
  received : List (UInt32 × List UInt8)

/-- What a call comes to: it goes on, it returns a value, or it returns `OK` with an address. -/
inductive Reply where
  | goesOn
  | returns (value : Int)
  | resolves (nxthop : UInt32) (mac : List UInt8)
deriving DecidableEq

/-- A hardware address that lies in memory. -/
def hardware (memory : Memory) (at_ : Nat) : List UInt8 := (List.range arpHalen).map fun k => memory (at_ + k)

/-- An entry that `memset` cleared. -/
def cleared : Arpentry := ⟨.free, 0, 0, List.replicate arpHalen 0⟩

def System.setEntry (s : System) (slot : Nat) (entry : Arpentry) : System :=
  { s with arpcache := Function.update s.arpcache slot entry }

/-- The search of the cache for an address. -/
def search (s : System) (address : UInt32) : Option Nat :=
  (List.range arpSiz).find? fun slot => (s.arpcache slot).arstate ≠ .free && (s.arpcache slot).arpaddr = address

/-- `arp_alloc`. -/
def arpAlloc (s : System) : Option (Nat × System) :=
  let found := match (List.range arpSiz).find? fun slot => (s.arpcache slot).arstate = Arstate.free with
    | some slot => some slot
    | none => (List.range arpSiz).find? fun slot => (s.arpcache slot).arstate = Arstate.resolved
  found.map fun slot => (slot, s.setEntry slot cleared)

/-- `arp_resolve` up to its first request. -/
def arpResolve (s : System) (pid : Int) (nxthop : UInt32) : Reply × System :=
  if nxthop = ipBcast ∨ nxthop = s.netData.ipbcast then (.resolves nxthop (hardware s.netData.ethbcast 0), s)
  else match search s nxthop with
    | some slot =>
      -- an entry that was found is resolved or pending
      if (s.arpcache slot).arstate = .resolved then (.resolves nxthop (s.arpcache slot).arhaddr, s)
      else (.returns syserr, s)
    | none => match arpAlloc s with
      | none => (.returns syserr, s)
      | some (slot, s) =>
        let entry := { s.arpcache slot with arstate := .pending, arpaddr := nxthop, arpid := pid }
        (.goesOn, { s.setEntry slot entry with
          kernel := (recvclr s.kernel pid).place pid (.ready ⟨slot, nxthop, 1, false⟩) })

/-- `arp_resolve` with the message that `recvtime` returned. -/
def answered (s : System) (pid : Int) (point : Point) (msg : UInt32) : Reply × System :=
  if msg = Messages.timeout then
    if point.sent < arpRetry then
      (.goesOn, { s with
        kernel := s.kernel.place pid (.ready { point with sent := point.sent + 1, waited := false }) })
    else (.returns timeout, { s.setEntry point.slot { s.arpcache point.slot with arstate := .free } with
      kernel := s.kernel.place pid .idle })
  else
    let s := { s with kernel := s.kernel.place pid .idle }
    if msg = Messages.syserr then (.returns syserr, s)
    else (.resolves point.nxthop (s.arpcache point.slot).arhaddr, s)

/-- `arp_resolve` behind `write`, where it waits, and behind `recvtime`. -/
def proceed (s : System) (pid : Int) (point : Point) : Reply × System :=
  if point.waited then
    answered { s with kernel := (recvtimeEnd s.kernel pid).2 } pid point (recvtimeEnd s.kernel pid).1
  else match recvtime s.kernel pid { point with waited := true } arpTimeout with
    | (none, kernel) => (.goesOn, { s with kernel := kernel })
    | (some msg, kernel) => answered { s with kernel := kernel } pid point msg

/-- The fields of `struct arppacket` that `arp_in` reads. -/
def arpHtypeOf (pkt : NetPacket) : UInt16 := ntohs pkt.bytes 14

def arpPtypeOf (pkt : NetPacket) : UInt16 := ntohs pkt.bytes 16

def arpOp (pkt : NetPacket) : UInt16 := ntohs pkt.bytes 20

def arpSndha (pkt : NetPacket) : List UInt8 := hardware pkt.bytes 22

def arpSndpa (pkt : NetPacket) : UInt32 := ntohl pkt.bytes 28

def arpTarpa (pkt : NetPacket) : UInt32 := ntohl pkt.bytes 38

/-- `arp_in` for a sender whose address is in the cache. -/
def updateSender (s : System) (slot : Nat) (pkt : NetPacket) : System :=
  let entry := { s.arpcache slot with arhaddr := arpSndha pkt }
  if entry.arstate = .pending then
    { s.setEntry slot { entry with arstate := .resolved } with kernel := send s.kernel entry.arpid Messages.ok }
  else s.setEntry slot entry

/-- `arp_in` for a sender whose address is not in the cache, when the request is for the local address. -/
def addSender (s : System) (pkt : NetPacket) : System :=
  match arpAlloc s with
  | none => s
  | some (slot, s) => s.setEntry slot
    { s.arpcache slot with arpaddr := arpSndpa pkt, arhaddr := arpSndha pkt, arstate := .resolved }

/-- `arp_in`, without the reply that it sends. -/
def arpIn (s : System) (pkt : NetPacket) : System :=
  if arpHtypeOf pkt ≠ arpHtype ∨ arpPtypeOf pkt ≠ arpPtype then s
  else
    let s := { s with received := s.received ++ [(arpSndpa pkt, arpSndha pkt)] }
    match search s (arpSndpa pkt) with
    | some slot => updateSender s slot pkt
    | none =>
      if arpOp pkt = arpOpRply then s
      else if !s.netData.ipvalid ∨ arpTarpa pkt ≠ s.netData.ipucast then s
      else addSender s pkt

/-- A process calls `arp_resolve`, a packet arrives, a process is sent a message by others, a clock tick ends
a wait, or a process goes on. -/
inductive Move where
  | resolve (pid : Int) (nxthop : UInt32)
  | arrive (pkt : NetPacket)
  | message (pid : Int) (msg : UInt32)
  | tick (pid : Int)
  | goOn (pid : Int)

/-- One move, with what the call comes to. -/
def step (s : System) : Move → Option (Reply × System)
  | .resolve pid nxthop =>
    if 0 ≤ pid ∧ s.kernel.process pid = .idle then some (arpResolve s pid nxthop) else none
  | .arrive pkt => some (.goesOn, arpIn s pkt)
  | .message pid msg => some (.goesOn, { s with kernel := send s.kernel pid msg })
  | .tick pid => some (.goesOn, { s with kernel := tick s.kernel pid })
  | .goOn pid => match s.kernel.process pid with
    | .ready point => some (proceed s pid point)
    | .idle | .waiting _ => none

/-- An empty cache, with messages that were sent before. -/
def arpInit (netData : NetData) (prmsg : Int → Option UInt32) : System where
  netData := netData
  kernel := ⟨fun _ => .idle, prmsg⟩
  arpcache := fun _ => cleared
  received := []

/-- No address has two entries that are not free. -/
def Unique (s : System) : Prop :=
  ∀ slot < arpSiz, ∀ other < arpSiz, (s.arpcache slot).arstate ≠ .free → (s.arpcache other).arstate ≠ .free →
    (s.arpcache slot).arpaddr = (s.arpcache other).arpaddr → slot = other

/-- An address that is returned for one that is not a broadcast address was received with it. -/
def Right (event : Event System Move Reply) : Prop :=
  ∀ nxthop mac, event.reply = .resolves nxthop mac → nxthop ≠ ipBcast → nxthop ≠ event.before.netData.ipbcast →
    (nxthop, mac) ∈ event.after.received

/-- A process that goes on with an answer finds its entry resolved for the address that it asked for. -/
def FindsAnswer (s : System) : Move → Prop
  | .goOn pid => ∀ point ∈ (s.kernel.process pid).point, ∀ msg ∈ s.kernel.prmsg pid,
      msg ≠ Messages.timeout → msg ≠ Messages.syserr →
      (s.arpcache point.slot).arstate = .resolved ∧ (s.arpcache point.slot).arpaddr = point.nxthop
  | _ => True

instance (s : System) (move : Move) : Decidable (FindsAnswer s move) :=
  match move with
  | .goOn pid => match place : (s.kernel.process pid).point, sent : s.kernel.prmsg pid with
    | some point, some msg => decidable_of_iff (msg ≠ Messages.timeout → msg ≠ Messages.syserr →
        (s.arpcache point.slot).arstate = .resolved ∧ (s.arpcache point.slot).arpaddr = point.nxthop)
      (by simp [FindsAnswer, place, sent])
    | none, _ => isTrue (by simp [FindsAnswer, place])
    | some _, none => isTrue (by simp [FindsAnswer, sent])
  | .resolve _ _ | .arrive _ | .message _ _ | .tick _ => isTrue trivial

end Xinu.Arp
