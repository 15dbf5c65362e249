import Xinu.Arp
import Xinu.IpInput
import Xinu.IpOutput
import Xinu.UdpOwnership

/-!
# The network stack

Frames come in through `netin`; datagrams go out through `ip_send`, or through the output queue and the
process `ipout`. A packet stays in the hands of a process where this process can be switched away from: in
`arp_resolve`, in the `write` of `ip_out`, and in `icmp_in` and `arp_in` before the last `freebuf`.

A buffer has a new number each time that it is taken from the pool. No slot of `icmptab` is registered. A
message is for the call that waits: no others are sent. The frames that are written to the Ethernet, and the
hardware addresses in them, are left out.
-/

namespace Xinu.NetStack

open CIntegers Packets IpInput

/-- What a process has to do with a packet in its hands. -/
inductive Task where
  | resolving (buffer : Nat)
  | transmitting (buffer : Nat)
  | updating (buffer : Nat)
  | answering (buffer : Nat)
deriving DecidableEq

def Task.buffer : Task → Nat
  | .resolving buffer | .transmitting buffer | .updating buffer | .answering buffer => buffer

/-- The tables, the queue, the contents of the buffers and the packets in the hands of processes; the number
of buffers taken so far, and those freed outside of `udp.c` and `ip_enqueue`. -/
structure Stack where
  udp : UdpEndpoints.System
  arp : Arp.System
  output : IpOutput.System
  memory : Nat → Memory
  tasks : List (Nat × Task)
  next : Nat
  freed : List Nat
  ipident : UInt32
  udpIdent : UInt16
  udptoIdent : UInt16

def Stack.net (s : Stack) : NetData := s.arp.netData

/-- A process outside of all calls. -/
def Stack.Idle (s : Stack) (pid : Nat) : Prop :=
  s.udp.kernel.process pid = .idle ∧ s.output.kernel.process pid = .idle ∧ pid ∉ s.tasks.map Prod.fst

instance (s : Stack) (pid : Nat) : Decidable (s.Idle pid) :=
  inferInstanceAs (Decidable (s.udp.kernel.process pid = .idle ∧ s.output.kernel.process pid = .idle ∧
    pid ∉ s.tasks.map Prod.fst))

/-- `getbuf(netbufpool)`. -/
def Stack.getbuf (s : Stack) : NetPacket × Stack := (⟨s.next, s.memory s.next⟩, { s with next := s.next + 1 })

/-- `freebuf`. -/
def Stack.freebuf (s : Stack) (buffer : Nat) : Stack := { s with freed := s.freed ++ [buffer] }

/-- A packet stays in the hands of a process. -/
def Stack.hold (s : Stack) (pid : Nat) (task : Task) : Stack := { s with tasks := (pid, task) :: s.tasks }

/-- A packet leaves the hands of a process. -/
def Stack.drop (s : Stack) (pid : Nat) (task : Task) : Stack := { s with tasks := s.tasks.erase (pid, task) }

/-- `icmp_in`. -/
def icmpIn (s : Stack) (pid : Nat) (p : NetPacket) : Option Stack :=
  if p.netIctype ≠ icmpEchoreqst.toUInt8 then some (s.freebuf p.buffer)
  else
    (echoReply s.net s.getbuf.1 s.ipident p).map fun reply =>
      let s := { s.getbuf.2 with
        memory := Function.update s.memory reply.buffer reply.bytes, ipident := s.ipident + 1 }
      match IpOutput.ipEnqueue s.output pid reply.buffer with
      | (none, output) => { s with output := output }.hold pid (.answering p.buffer)
      | (some _, output) => { s with output := output }.freebuf p.buffer

/-- A packet is given to a routine. -/
def give (s : Stack) (pid : Nat) : Handler → NetPacket → Option Stack
  | .freebuf, p => some (s.freebuf p.buffer)
  | .udpIn, p => some { s with udp := UdpEndpoints.udpIn s.udp p }
  | .icmpIn, p => icmpIn s pid p

/-- `ip_out` up to its `write`. -/
def ipOut (s : Stack) (pid : Nat) (p : NetPacket) : Option Stack :=
  if p.netIpproto = ipIcmp ∧ (icmpCksum p (p.netIplen.toNat - ipHdrLen)).isNone = true then none
  else some (s.hold pid (.transmitting p.buffer))

/-- The next hop for a destination. -/
def nextHop (net : NetData) (dest : UInt32) : UInt32 :=
  if dest &&& net.ipmask = net.ipprefix then dest else net.iprouter

/-- The last parts of `ip_send` and `ipout`: the next hop is resolved, and the packet is transmitted. -/
def resolve (s : Stack) (pid : Nat) (p : NetPacket) : Option Stack :=
  if nextHop s.net p.netIpdst = 0 then some (s.freebuf p.buffer)
  else match Arp.arpResolve s.arp pid (nextHop s.net p.netIpdst) with
    | (.goesOn, arp) => some ({ s with
        arp := arp, memory := Function.update s.memory p.buffer p.bytes }.hold pid (.resolving p.buffer))
    | (.resolves _ _, arp) => ipOut { s with arp := arp } pid p
    | (.returns _, arp) => some ({ s with arp := arp }.freebuf p.buffer)

/-- What a move comes to: it is done, or it gives a packet to a routine. -/
inductive Route where
  | done (s : Stack)
  | given (s : Stack) (pid : Nat) (handler : Handler) (p : NetPacket)

/-- `ip_send`. -/
def ipSend (s : Stack) (pid : Nat) (p : NetPacket) : Option Route :=
  if p.netIpdst &&& 0xff000000 = 0x7f000000 then some (.given s pid (ipLocal p) p)
  else if p.netIpdst = s.net.ipucast then some (.given s pid (ipLocal p) p)
  else if p.netIpdst = ipBcast ∨ p.netIpdst = s.net.ipbcast then (ipOut s pid p).map .done
  else (resolve s pid p).map .done

/-- `ipout` with the packet that it took. -/
def ipoutSend (s : Stack) (pid : Nat) (p : NetPacket) : Option Route :=
  if p.netIpdst = ipBcast ∨ p.netIpdst = s.net.ipbcast then some (.done (s.freebuf p.buffer))
  else if p.netIpdst = s.net.ipucast then some (.given s pid (ipLocal p) p)
  else (resolve s pid p).map .done

/-- The packet at the head of the output queue, when `ipout` takes it. -/
def ipoutTake (s : Stack) (output : IpOutput.System) : Option Route :=
  let buffer := output.iqbuf output.iqhead
  ipoutSend { s with output := IpOutput.takeNext output } output.ipout ⟨buffer, s.memory buffer⟩

/-- A turn of `ipout`. -/
def ipoutTurn (s : Stack) : Option Route :=
  match Semaphores.wait s.output.kernel s.output.ipout .taking s.output.iqsem with
  | (.blocked, kernel) => some (.done { s with output := { s.output with kernel := kernel } })
  | (.passed, kernel) | (.refused, kernel) => ipoutTake s { s.output with kernel := kernel }

/-- `ETH_ARP` and `ETH_IP`. -/
def ethArp : UInt16 := 0x0806

def ethIp : UInt16 := 0x0800

/-- A turn of `netin`, with the frame that it reads. -/
def netin (s : Stack) (pid : Nat) (bytes : Memory) : Option Route :=
  let p := ethNtoh ⟨s.getbuf.1.buffer, bytes⟩
  let s := s.getbuf.2
  if p.netEthtype = ethArp then some (.done ({ s with arp := Arp.arpIn s.arp p }.hold pid (.updating p.buffer)))
  else if p.netEthtype = ethIp then
    (ipIn s.net p).map fun handled => .given s pid handled.1 handled.2
  else some (.done (s.freebuf p.buffer))

/-- The bytes that a caller hands over: none for a negative number. -/
def callerData (buff : Memory) (len : Int) : List UInt8 := (List.range len.toNat).map buff

/-- The last parts of `udp_send` and `udp_sendto`: the datagram is made and sent. -/
def sendDatagram (s : Stack) (pid : Nat) (ident : UInt16) (remip : UInt32) (remport locport : UInt16)
    (buff : Memory) (len : Int) : Option Route :=
  let headers := ipHeaders s.net s.getbuf.1.bytes (ipHdrLen + udpHdrLen + len) ident ipUdp remip
  let headers := put16 (put16 headers 34 locport) 36 remport
  let headers := put16 (put16 headers 38 (UInt16.ofInt (udpHdrLen + len))) 40 0
  let data := callerData buff len
  if packlen < dataAt + data.length then none
  else ipSend s.getbuf.2 pid ⟨s.next, copy headers dataAt (fun k => data.getD k 0) data.length⟩

/-- `udp_send`. -/
def udpSend (s : Stack) (pid : Nat) (slot : Int) (buff : Memory) (len : Int) : Option Route :=
  if slot < 0 ∨ UdpEndpoints.udpSlots ≤ slot then some (.done s)
  else
    let entry := s.udp.udptab slot.toNat
    if entry.udstate = .free then some (.done s)
    else if entry.udremip = 0 then some (.done s)
    else sendDatagram { s with udpIdent := s.udpIdent + 1 } pid s.udpIdent entry.udremip entry.udremport
      entry.udlocport buff len

/-- `udp_sendto`. -/
def udpSendto (s : Stack) (pid : Nat) (slot : Int) (remip : UInt32) (remport : UInt16) (buff : Memory)
    (len : Int) : Option Route :=
  if slot < 0 ∨ UdpEndpoints.udpSlots ≤ slot then some (.done s)
  else
    let entry := s.udp.udptab slot.toNat
    if entry.udstate = .free then some (.done s)
    else sendDatagram { s with udptoIdent := s.udptoIdent + 1 } pid s.udptoIdent remip remport
      entry.udlocport buff len

/-- `icmp_send`. -/
def icmpSend (s : Stack) (pid : Nat) (remip : UInt32) (type ident seq : UInt16) (buff : Memory)
    (len : Int) : Option Route :=
  (icmpMkpkt s.net s.getbuf.1 s.ipident remip type ident seq (callerData buff len) len).bind fun p =>
    ipSend { s.getbuf.2 with ipident := s.ipident + 1 } pid p

/-- The end of a call that a process went on in. -/
def finish (s : Stack) (pid : Nat) (task : Task) : Option Route :=
  if (pid, task) ∉ s.tasks then none
  else match task with
    | .resolving _ => none
    | .transmitting buffer | .updating buffer => some (.done ((s.drop pid task).freebuf buffer))
    | .answering buffer =>
      if s.output.kernel.process pid = .ready .enqueued then
        some (.done ({ s.drop pid task with output := (IpOutput.proceed s.output pid .enqueued).2 }.freebuf buffer))
      else none

/-- A process goes on in `arp_resolve`, called by `ip_send` or `ipout`. -/
def resolveOn (s : Stack) (pid buffer : Nat) : Option Route :=
  if (pid, .resolving buffer) ∉ s.tasks then none
  else match s.arp.kernel.process pid with
    | .ready point =>
      let left := s.drop pid (.resolving buffer)
      match Arp.proceed s.arp pid point with
      | (.goesOn, arp) => some (.done { s with arp := arp })
      | (.resolves _ _, arp) => (ipOut { left with arp := arp } pid ⟨buffer, s.memory buffer⟩).map .done
      | (.returns _, arp) => some (.done ({ left with arp := arp }.freebuf buffer))
    | .idle | .waiting _ => none

/-- The moves of the stack: those of its calls and processes, the clock ticks, and the processes that go on. -/
inductive Move where
  | frame (pid : Nat) (bytes : Memory)
  | udpSend (pid : Nat) (slot : Int) (buff : Memory) (len : Int)
  | udpSendto (pid : Nat) (slot : Int) (remip : UInt32) (remport : UInt16) (buff : Memory) (len : Int)
  | icmpSend (pid : Nat) (remip : UInt32) (type ident seq : UInt16) (buff : Memory) (len : Int)
  | udp (move : UdpEndpoints.Move)
  | turn
  | take
  | finish (pid : Nat) (task : Task)
  | resolveOn (pid buffer : Nat)
  | arpTick (pid : Nat)

/-- A call of `udp_recv` or `udp_recvaddr` is made by a process outside of all calls; packets arrive through
`ip_local` only. -/
def Stack.Allows (s : Stack) : UdpEndpoints.Move → Bool
  | .recv pid _ _ _ | .recvaddr pid _ _ _ => decide (s.Idle pid.toNat)
  | .arrive _ => false
  | .register _ _ _ | .release _ | .tick _ | .goOn _ => true

/-- A move up to the routine that it gives a packet to. -/
def route (s : Stack) : Move → Option Route
  | .frame pid bytes => if s.Idle pid then netin s pid bytes else none
  | .udpSend pid slot buff len => if s.Idle pid then NetStack.udpSend s pid slot buff len else none
  | .udpSendto pid slot remip remport buff len =>
    if s.Idle pid then NetStack.udpSendto s pid slot remip remport buff len else none
  | .icmpSend pid remip type ident seq buff len =>
    if s.Idle pid then NetStack.icmpSend s pid remip type ident seq buff len else none
  | .udp move =>
    if s.Allows move then (UdpEndpoints.step s.udp move).map fun result => .done { s with udp := result.2 } else none
  | .turn => if s.Idle s.output.ipout then ipoutTurn s else none
  | .take =>
    if s.output.kernel.process s.output.ipout = .ready .taking then
      ipoutTake s { s.output with kernel := s.output.kernel.place s.output.ipout .idle }
    else none
  | .finish pid task => NetStack.finish s pid task
  | .resolveOn pid buffer => NetStack.resolveOn s pid buffer
  | .arpTick pid => some (.done { s with arp := { s.arp with kernel := Messages.tick s.arp.kernel pid } })

/-- One move. -/
def step (s : Stack) (move : Move) : Option (Unit × Stack) :=
  (route s move).bind fun result => match result with
    | .done s => some ((), s)
    | .given s pid handler p => (give s pid handler p).map fun s => ((), s)

/-- The stack as `net_init` makes it, with semaphores that others use and messages that were sent before. -/
def netInit (netData : NetData) (udpmsg arpmsg : Int → Option UInt32) (nothing : NetPacket)
    (memory : Nat → Memory) (used : Int → Processes.Sstate) (ipout : Nat) : Stack where
  udp := UdpEndpoints.udpInit udpmsg fun _ => ⟨.free, 0, 0, 0, 0, 0, 0, 0, fun _ => nothing⟩
  arp := Arp.arpInit netData arpmsg
  output := IpOutput.netInit used ipout
  memory := memory
  tasks := []
  next := 0
  freed := []
  ipident := 32767
  udpIdent := 1
  udptoIdent := 1

end Xinu.NetStack
