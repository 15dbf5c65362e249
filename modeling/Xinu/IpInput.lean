import Xinu.IcmpEndpoints
import Xinu.UdpDelivery

/-!
# Frames and buffers

`ip_in` checks the header of a datagram, converts its fields and hands it to `udp_in` or `icmp_in`, or
discards it. The lengths that the sender stated are used as they are: the IP length by the checksum of an
ICMP message and by the copies of its data, the UDP length by the copies to a receiver. A read or a write
outside of a buffer has no result.
-/

namespace Xinu.IpInput

open CIntegers NetworkOrder Packets

/-- `IP_ICMP` and `IP_UDP`. -/
def ipIcmp : UInt8 := 1

def ipUdp : UInt8 := 17

/-- `ICMP_ECHOREPLY` and `ICMP_ECHOREQST`. -/
def icmpEchoreply : UInt16 := 0

def icmpEchoreqst : UInt16 := 8

/-- The routine that a packet is given to. -/
inductive Handler where
  | freebuf
  | udpIn
  | icmpIn
deriving DecidableEq

/-- `ip_local`. -/
def ipLocal (p : NetPacket) : Handler :=
  if p.netIpproto = ipUdp then .udpIn else if p.netIpproto = ipIcmp then .icmpIn else .freebuf

/-- The addresses as `net_init` leaves them. -/
def netUnset : NetData := ⟨0, 0, 0, 0, 0, false, fun _ => 0, fun _ => 0xff⟩

/-- The second half of `ip_in`, by the destination of the packet. -/
def deliver (net : NetData) (p : NetPacket) : Handler :=
  if p.netIpdst = ipBcast then ipLocal p
  else if !net.ipvalid then if p.netIpproto = ipUdp then ipLocal p else .freebuf
  else if p.netIpdst = net.ipucast ∨ p.netIpdst = net.ipbcast ∨ p.netIpdst = ipBcast then ipLocal p
  else .freebuf

/-- The protocol checksum of `ip_in`: the packet with its transport header in host order, unless the
checksum is wrong. -/
def checkProtocol (p : NetPacket) : Option (Option NetPacket) :=
  if p.netIpproto = ipUdp then some (some (udpNtoh p))
  else if p.netIpproto = ipIcmp then
    (icmpCksum p (p.netIplen.toNat - ipHdrLen)).map fun cksum => if cksum ≠ 0 then none else some (icmpNtoh p)
  else some (some p)

/-- `ip_in`: the routine that the packet is given to, and the packet as it then is. -/
def ipIn (net : NetData) (p : NetPacket) : Option (Handler × NetPacket) :=
  if ipcksum p ≠ 0 then some (.freebuf, p)
  else
    let p := ipNtoh p
    if p.netIpvh ≠ 0x45 then some (.freebuf, p)
    else (checkProtocol p).map fun checked => match checked with
      | none => (.freebuf, p)
      | some p => (deliver net p, p)

/-- A byte of a header is stored. -/
def put8 (memory : Memory) (at_ : Nat) (value : UInt8) : Memory := Function.update memory at_ value

/-- The Ethernet and IP headers of a datagram that the local stack makes. -/
def ipHeaders (net : NetData) (memory : Memory) (iplen : Int) (ident : UInt16) (proto : UInt8)
    (remip : UInt32) : Memory :=
  let memory := put16 (copy memory 6 net.ethucast 6) 12 0x800
  let memory := put16 (put8 (put8 memory 14 0x45) 15 0) 16 (UInt16.ofInt iplen)
  let memory := put16 (put16 memory 18 ident) 20 0
  let memory := put16 (put8 (put8 memory 22 0xff) 23 proto) 24 0
  put32 (put32 memory 26 net.ipucast) 30 remip

/-- The headers that `icmp_mkpkt` writes. -/
def icmpHeaders (net : NetData) (memory : Memory) (ipident : UInt32) (remip : UInt32)
    (type ident seq : UInt16) (len : Int) : Memory :=
  let memory := ipHeaders net memory (ipHdrLen + icmpHdrLen + len) ipident.toUInt16 ipIcmp remip
  let memory := put16 (put8 (put8 memory 34 type.toUInt8) 35 0) 36 0
  put16 (put16 memory 38 ident) 40 seq

/-- `icmp_mkpkt` in a new buffer, with the data that it copies: `len` bytes, and none for a negative number. -/
def icmpMkpkt (net : NetData) (pkt : NetPacket) (ipident : UInt32) (remip : UInt32) (type ident seq : UInt16)
    (data : List UInt8) (len : Int) : Option NetPacket :=
  let headers := icmpHeaders net pkt.bytes ipident remip type ident seq len
  if packlen < dataAt + data.length then none
  else some { pkt with bytes := copy headers dataAt (fun k => data.getD k 0) data.length }

/-- The reply that `icmp_in` makes for an echo request. -/
def echoReply (net : NetData) (pkt : NetPacket) (ipident : UInt32) (p : NetPacket) : Option NetPacket :=
  let len : Int := p.netIplen.toNat - ipHdrLen - icmpHdrLen
  (copyBytes p len.toNat dataAt).bind fun data =>
    icmpMkpkt net pkt ipident p.netIpsrc icmpEchoreply p.netIcident p.netIcseq data len

/-- Every receive call with room for at least zero bytes that takes the packet returns a number of bytes
between zero and its room, and stores no more than that. -/
def ReceivedByUdp (p : NetPacket) : Prop :=
  ∀ (s : UdpEndpoints.System) pid (point : UdpEndpoints.Point), 0 ≤ point.len →
    (s.udptab point.slot).udqueue (s.udptab point.slot).udhead = p →
    ∃ value data sender after, UdpEndpoints.takePacket s pid point = some (.delivers value data sender, after) ∧
      0 ≤ value ∧ value ≤ point.len ∧ (data.length : Int) ≤ point.len

/-- The same for `icmp_recv`, whose room may be negative, when it takes the packet from the queue. -/
def ReceivedByIcmp (p : NetPacket) : Prop :=
  ∀ (s : IcmpEndpoints.System) (point : IcmpEndpoints.Point),
    (s.icmptab point.slot).ichead < IcmpEndpoints.icmpQsiz →
    (s.icmptab point.slot).icqueue (s.icmptab point.slot).ichead = p →
    ∃ value data after, IcmpEndpoints.takeReply s point = some (.delivers value data, after) ∧
      0 ≤ value ∧ value ≤ max 0 point.len ∧ (data.length : Int) ≤ max 0 point.len

/-- Whatever the addresses are, `ip_in` handles the frame, and what comes of the packet stays inside of the
buffers: the receive calls that take it, and the reply to an echo request. -/
def Contained (pkt : NetPacket) : Prop :=
  ∀ net, ∃ handler p, ipIn net pkt = some (handler, p) ∧
    (handler = .udpIn → ReceivedByUdp p) ∧
    (handler = .icmpIn → ReceivedByIcmp p ∧ ∀ reply ipident, (echoReply net reply ipident p).isSome = true)

/-- The lengths that a frame states lie within the buffer, if its header is accepted. -/
def Truthful (pkt : NetPacket) : Prop :=
  ipcksum pkt = 0 → pkt.netIpvh = 0x45 →
    (pkt.netIpproto = ipUdp → udpHdrLen ≤ (ntohs pkt.bytes 38).toNat ∧
      ethHdrLen + ipHdrLen + (ntohs pkt.bytes 38).toNat ≤ packlen) ∧
    (pkt.netIpproto = ipIcmp → ethHdrLen + (ntohs pkt.bytes 16).toNat ≤ packlen)

section Fields

variable {p : NetPacket} {net : NetData}

theorem bytes_convert16_of_ne {memory : Memory} {at_ place : Nat} (apart : place < at_ ∨ at_ + 2 ≤ place) :
    convert16 memory at_ place = memory place :=
  copy_outside _ _ at_ 2 _ apart

theorem bytes_convert32_of_ne {memory : Memory} {at_ place : Nat} (apart : place < at_ ∨ at_ + 4 ≤ place) :
    convert32 memory at_ place = memory place :=
  copy_outside _ _ at_ 4 _ apart

/-- `ip_ntoh` leaves the version and the protocol, and the transport header. -/
theorem ipNtoh_byte {place : Nat} (apart : place < 16 ∨ place = 22 ∨ place = 23 ∨ 34 ≤ place) :
    (ipNtoh p).bytes place = p.bytes place := by
  unfold ipNtoh
  dsimp only
  rw [bytes_convert32_of_ne (by lia), bytes_convert32_of_ne (by lia), bytes_convert16_of_ne (by lia),
    bytes_convert16_of_ne (by lia), bytes_convert16_of_ne (by lia)]

theorem ipNtoh_netIpvh : (ipNtoh p).netIpvh = p.netIpvh := ipNtoh_byte (by omega)

theorem ipNtoh_netIpproto : (ipNtoh p).netIpproto = p.netIpproto := ipNtoh_byte (by omega)

/-- The IP length is converted. -/
theorem ipNtoh_netIplen : (ipNtoh p).netIplen = ntohs p.bytes 16 := by
  unfold NetPacket.netIplen ipNtoh
  dsimp only
  rw [host16_convert32_of_ne (by omega), host16_convert32_of_ne (by omega), host16_convert16_of_ne (by omega),
    host16_convert16_of_ne (by omega), host16_convert16]

/-- The UDP length is converted. -/
theorem udpNtoh_netUdplen : (udpNtoh (ipNtoh p)).netUdplen = ntohs p.bytes 38 := by
  unfold NetPacket.netUdplen udpNtoh
  dsimp only
  rw [host16_convert16, ntohs_convert16_of_ne (by omega), ntohs_convert16_of_ne (by omega)]
  exact ntohs_congr fun k below => ipNtoh_byte (by omega)

theorem icmpNtoh_netIplen : (icmpNtoh p).netIplen = p.netIplen := by
  unfold NetPacket.netIplen icmpNtoh
  dsimp only
  rw [host16_convert16_of_ne (by omega), host16_convert16_of_ne (by omega), host16_convert16_of_ne (by omega)]

theorem udpNtoh_netIpproto : (udpNtoh p).netIpproto = p.netIpproto := by
  unfold NetPacket.netIpproto udpNtoh
  dsimp only
  rw [bytes_convert16_of_ne (by omega), bytes_convert16_of_ne (by omega), bytes_convert16_of_ne (by omega)]

theorem icmpNtoh_netIpproto : (icmpNtoh p).netIpproto = p.netIpproto := by
  unfold NetPacket.netIpproto icmpNtoh
  dsimp only
  rw [bytes_convert16_of_ne (by omega), bytes_convert16_of_ne (by omega), bytes_convert16_of_ne (by omega)]

/-- A packet is discarded or given to the routine of its protocol. -/
theorem deliver_cases (net : NetData) (p : NetPacket) : deliver net p = .freebuf ∨ deliver net p = ipLocal p := by
  unfold deliver
  split
  · exact Or.inr rfl
  · split
    · split
      · exact Or.inr rfl
      · exact Or.inl rfl
    · split
      · exact Or.inr rfl
      · exact Or.inl rfl

theorem protocol_of_udpIn (given : deliver net p = .udpIn) : p.netIpproto = ipUdp := by
  rcases deliver_cases net p with discarded | isLocal
  · rw [given] at discarded
    cases discarded
  · rw [given] at isLocal
    by_contra other
    unfold ipLocal at isLocal
    rw [if_neg other] at isLocal
    split at isLocal <;> cases isLocal

theorem protocol_of_icmpIn (given : deliver net p = .icmpIn) : p.netIpproto = ipIcmp := by
  rcases deliver_cases net p with discarded | isLocal
  · rw [given] at discarded
    cases discarded
  · rw [given] at isLocal
    by_contra other
    unfold ipLocal at isLocal
    rw [if_neg other] at isLocal
    split at isLocal <;> cases isLocal

/-- Without a valid address every UDP packet is accepted. -/
theorem deliver_of_udp (unset : net.ipvalid = false) (isUdp : p.netIpproto = ipUdp) : deliver net p = .udpIn := by
  unfold deliver ipLocal
  rw [unset, isUdp]
  split <;> rfl

/-- `ip_in` behind the tests of the header. -/
theorem ipIn_accepted (valid : ipcksum p = 0) (version : p.netIpvh = 0x45) :
    ipIn net p = (checkProtocol (ipNtoh p)).map fun checked => match checked with
      | none => (.freebuf, ipNtoh p)
      | some p => (deliver net p, p) := by
  unfold ipIn
  rw [if_neg (not_not.mpr valid)]
  dsimp only
  rw [if_neg (not_not.mpr (ipNtoh_netIpvh.trans version))]

/-- `ip_in` handles the packet in its buffer. -/
theorem buffer_of_ipIn {handler : Handler} {q : NetPacket} (result : ipIn net p = some (handler, q)) :
    q.buffer = p.buffer := by
  unfold ipIn at result
  split at result
  · cases result
    rfl
  dsimp only at result
  split at result
  · cases result
    rfl
  obtain ⟨checked, isChecked, same⟩ := Option.map_eq_some_iff.mp result
  unfold checkProtocol at isChecked
  split at isChecked
  · cases isChecked
    cases same
    rfl
  split at isChecked
  · obtain ⟨cksum, _, rfl⟩ := Option.map_eq_some_iff.mp isChecked
    by_cases wrong : cksum ≠ 0
    · rw [if_pos wrong] at same
      cases same
      rfl
    · rw [if_neg wrong] at same
      cases same
      rfl
  · cases isChecked
    cases same
    rfl

end Fields

section Buffers

variable {net : NetData} {pkt p q : NetPacket} {ipident remip : UInt32} {type ident seq : UInt16}
  {data : List UInt8} {len : Int}

theorem buffer_of_icmpMkpkt (result : icmpMkpkt net pkt ipident remip type ident seq data len = some q) :
    q.buffer = pkt.buffer := by
  unfold icmpMkpkt at result
  dsimp only at result
  split at result
  · cases result
  · cases result
    rfl

theorem buffer_of_echoReply (result : echoReply net pkt ipident p = some q) : q.buffer = pkt.buffer := by
  obtain ⟨data, _, made⟩ := Option.bind_eq_some_iff.mp result
  exact buffer_of_icmpMkpkt made

end Buffers

section Receivers

variable {p : NetPacket} {len : Int}

theorem udpCopy_eq : udpCopy p len = (copyBytes p (min len (p.netUdplen.toNat - udpHdrLen)).toNat dataAt).map
    fun data => (min len (p.netUdplen.toNat - udpHdrLen), data) := by
  have least : (if len < (p.netUdplen.toNat : Int) - udpHdrLen then len else p.netUdplen.toNat - udpHdrLen) =
      min len (p.netUdplen.toNat - udpHdrLen) := by
    split <;> lia
  unfold udpCopy
  dsimp only
  rw [least]

/-- A system whose slots hold a packet. -/
def filled (p : NetPacket) : UdpEndpoints.System where
  kernel := ⟨fun _ => .idle, fun _ => none⟩
  udptab := fun _ => ⟨.used, 0, 0, 0, 0, 1, 1, 0, fun _ => p⟩
  number := fun _ => 0
  accepted := fun _ => []
  taken := []
  discarded := []
  freed := []

/-- A UDP packet is received within the buffers just when its length covers the header and lies within the
packet. -/
theorem receivedByUdp_iff : ReceivedByUdp p ↔
    udpHdrLen ≤ p.netUdplen.toNat ∧ ethHdrLen + ipHdrLen + p.netUdplen.toNat ≤ packlen := by
  have header : udpHdrLen = 8 ∧ ethHdrLen = 14 ∧ ipHdrLen = 20 ∧ packlen = 1514 ∧ dataAt = 42 :=
    ⟨rfl, rfl, rfl, rfl, rfl⟩
  constructor
  · intro received
    obtain ⟨value, data, sender, after, result, nonneg, _⟩ :=
      received (filled p) 0 ⟨0, 65536, false, 0⟩ (by decide) rfl
    have bound := UInt16.toNat_lt p.netUdplen
    obtain ⟨copied, isCopied, same⟩ := Option.map_eq_some_iff.mp result
    cases same
    obtain ⟨bytes, isBytes, rfl⟩ := Option.map_eq_some_iff.mp (udpCopy_eq.symm.trans isCopied)
    have inside := (copyBytes_isSome _ _).mp (Option.isSome_of_eq_some isBytes)
    dsimp only [filled] at inside nonneg
    lia
  · rintro ⟨covers, within⟩ s pid point room isPacket
    have inside := (copyBytes_isSome (p := p) (min point.len (p.netUdplen.toNat - udpHdrLen)).toNat dataAt).mpr
      (by lia)
    obtain ⟨bytes, isBytes⟩ := Option.isSome_iff_exists.mp inside
    have length := length_of_copyBytes _ _ isBytes
    unfold UdpEndpoints.takePacket
    dsimp only
    rw [isPacket, udpCopy_eq, isBytes]
    refine ⟨_, bytes, _, _, rfl, ?_, ?_, ?_⟩
    · dsimp only
      lia
    · dsimp only
      lia
    · lia

/-- An ICMP message is received within the buffers when the datagram lies within the packet. -/
theorem receivedByIcmp (within : ethHdrLen + p.netIplen.toNat ≤ packlen) : ReceivedByIcmp p := by
  have header : ethHdrLen = 14 ∧ ipHdrLen = 20 ∧ icmpHdrLen = 8 ∧ packlen = 1514 ∧ dataAt = 42 :=
    ⟨rfl, rfl, rfl, rfl, rfl⟩
  intro s point start isPacket
  have inside := (copyBytes_isSome (p := p) (min (p.netIplen.toNat - ipHdrLen - icmpHdrLen : Int) point.len).toNat
    dataAt).mpr (by lia)
  obtain ⟨bytes, isBytes⟩ := Option.isSome_iff_exists.mp inside
  have length := length_of_copyBytes _ _ isBytes
  unfold IcmpEndpoints.takeReply IcmpEndpoints.dequeue
  rw [if_neg (by lia), Option.bind_some, isPacket]
  unfold icmpCopy
  dsimp only
  rw [isBytes]
  refine ⟨_, bytes, _, rfl, ?_, ?_, ?_⟩
  · dsimp only
    lia
  · dsimp only
    lia
  · lia

/-- The reply to an echo request stays within its buffer when the request lies within its own. -/
theorem echoReply_isSome (within : ethHdrLen + p.netIplen.toNat ≤ packlen) (net : NetData) (reply : NetPacket)
    (ipident : UInt32) : (echoReply net reply ipident p).isSome = true := by
  have header : ethHdrLen = 14 ∧ ipHdrLen = 20 ∧ icmpHdrLen = 8 ∧ packlen = 1514 ∧ dataAt = 42 :=
    ⟨rfl, rfl, rfl, rfl, rfl⟩
  unfold echoReply icmpMkpkt
  have inside := (copyBytes_isSome (p := p) (p.netIplen.toNat - ipHdrLen - icmpHdrLen : Int).toNat dataAt).mpr
    (by lia)
  obtain ⟨bytes, isBytes⟩ := Option.isSome_iff_exists.mp inside
  have length := length_of_copyBytes _ _ isBytes
  dsimp only
  rw [isBytes, Option.bind_some, if_neg (by lia)]
  rfl

end Receivers

/-- A frame whose lengths lie within its buffer is contained. -/
theorem contained_of_truthful {pkt : NetPacket} (truthful : Truthful pkt) : Contained pkt := by
  intro net
  by_cases valid : ipcksum pkt = 0
  case neg =>
    refine ⟨.freebuf, pkt, ?_, by simp, by simp⟩
    unfold ipIn
    rw [if_pos valid]
  by_cases version : pkt.netIpvh = 0x45
  case neg =>
    refine ⟨.freebuf, ipNtoh pkt, ?_, by simp, by simp⟩
    unfold ipIn
    rw [if_neg (not_not.mpr valid)]
    dsimp only
    rw [if_pos (fun same => version (ipNtoh_netIpvh.symm.trans same))]
  obtain ⟨udp, icmp⟩ := truthful valid version
  rw [ipIn_accepted valid version]
  unfold checkProtocol
  split
  case isTrue isUdp =>
    refine ⟨_, _, rfl, fun _ => ?_, fun given => ?_⟩
    · refine receivedByUdp_iff.mpr ?_
      rw [udpNtoh_netUdplen]
      exact udp (ipNtoh_netIpproto.symm.trans isUdp)
    · have isIcmp := protocol_of_icmpIn given
      rw [udpNtoh_netIpproto, isUdp] at isIcmp
      exact absurd isIcmp (by decide)
  split
  case isTrue isIcmp =>
    have within := icmp (ipNtoh_netIpproto.symm.trans isIcmp)
    rw [← ipNtoh_netIplen] at within
    have inside := (icmpCksum_isSome (p := ipNtoh pkt) ((ipNtoh pkt).netIplen.toNat - ipHdrLen)).mpr
      (Or.inr (by
        have header : ethHdrLen = 14 ∧ ipHdrLen = 20 ∧ ictypeAt = 34 := ⟨rfl, rfl, rfl⟩
        lia))
    obtain ⟨cksum, isCksum⟩ := Option.isSome_iff_exists.mp inside
    rw [isCksum, Option.map_some, Option.map_some]
    by_cases wrong : cksum ≠ 0
    · rw [if_pos wrong]
      exact ⟨_, _, rfl, by simp, by simp⟩
    · rw [if_neg wrong]
      refine ⟨_, _, rfl, fun given => ?_, fun _ => ?_⟩
      · have isUdp := protocol_of_udpIn given
        rw [icmpNtoh_netIpproto, isIcmp] at isUdp
        exact absurd isUdp (by decide)
      · rw [← icmpNtoh_netIplen] at within
        exact ⟨receivedByIcmp within, fun reply ipident => echoReply_isSome within net reply ipident⟩
  case isFalse notUdp notIcmp =>
    refine ⟨_, _, rfl, fun given => ?_, fun given => ?_⟩
    · exact absurd (protocol_of_udpIn given) notUdp
    · exact absurd (protocol_of_icmpIn given) notIcmp

/-- A frame that is contained states lengths within its buffer. -/
theorem truthful_of_contained {pkt : NetPacket} (contained : Contained pkt) : Truthful pkt := by
  intro valid version
  refine ⟨fun isUdp => ?_, fun isIcmp => ?_⟩
  · obtain ⟨handler, p, result, udp, _⟩ := contained netUnset
    rw [ipIn_accepted valid version] at result
    unfold checkProtocol at result
    rw [if_pos (ipNtoh_netIpproto.trans isUdp)] at result
    cases result
    have given := @deliver_of_udp _ netUnset rfl
      (udpNtoh_netIpproto.trans (ipNtoh_netIpproto.trans isUdp))
    have received := receivedByUdp_iff.mp (udp given)
    rwa [udpNtoh_netUdplen] at received
  · obtain ⟨handler, p, result, _⟩ := contained netUnset
    rw [ipIn_accepted valid version] at result
    unfold checkProtocol at result
    rw [if_neg (by rw [ipNtoh_netIpproto, isIcmp]; decide), if_pos (ipNtoh_netIpproto.trans isIcmp)] at result
    obtain ⟨checked, isChecked, _⟩ := Option.map_eq_some_iff.mp result
    obtain ⟨cksum, isCksum, _⟩ := Option.map_eq_some_iff.mp isChecked
    have inside := (icmpCksum_isSome _).mp (Option.isSome_of_eq_some isCksum)
    rw [ipNtoh_netIplen] at inside
    have header : ethHdrLen = 14 ∧ ipHdrLen = 20 ∧ ictypeAt = 34 ∧ packlen = 1514 := ⟨rfl, rfl, rfl, rfl⟩
    lia

/-- Handling a received frame, and every later receive call on it, stays inside of the buffers just when the
frame is refused for its header or the lengths that it states lie within its buffer. -/
theorem frame_is_contained (pkt : NetPacket) : Contained pkt ↔ Truthful pkt :=
  ⟨truthful_of_contained, contained_of_truthful⟩

/-- A UDP datagram with length zero in its UDP header. -/
def shortDatagram : NetPacket where
  buffer := 0
  bytes := fun k => if k = 14 then 0x45 else if k = 23 then 17 else if k = 24 then 0xba else if k = 25 then 0xee
    else 0

/-- A process waits for a packet on a port, and `udp_recv` returns a negative number for the datagram. -/
theorem short_datagram_returns_negative : ∃ p, ipIn netUnset shortDatagram =
      some (.udpIn, p) ∧
    (∃ events last, Runs.Run UdpEndpoints.step
        (UdpEndpoints.udpInit (fun _ => none) UdpEndpoints.unusedTable) events last ∧
      events.map Runs.Event.reply = [.returns 0, .goesOn, .delivers (-8) [] none]) ∧
    ¬ Contained shortDatagram := by
  refine ⟨udpNtoh (ipNtoh shortDatagram), ?_, ?_, fun contained => ?_⟩
  · have given : deliver netUnset (udpNtoh (ipNtoh shortDatagram)) = .udpIn :=
      deliver_of_udp rfl rfl
    rw [ipIn_accepted (by decide +kernel) rfl]
    exact congrArg some (Prod.ext given rfl)
  · obtain ⟨events, last, run, checked⟩ := Runs.trace_exists UdpEndpoints.step
      (UdpEndpoints.udpInit (fun _ => none) UdpEndpoints.unusedTable)
      [.register 0 0 0, .arrive (udpNtoh (ipNtoh shortDatagram)), .recv 3 0 100 1000]
      (fun events _ => decide (events.map Runs.Event.reply = [.returns 0, .goesOn, .delivers (-8) [] none]))
      (by decide +kernel)
    exact ⟨events, last, run, of_decide_eq_true checked⟩
  · have truthful := (truthful_of_contained contained (by decide +kernel) rfl).1 rfl
    exact absurd truthful.1 (by decide +kernel)

end Xinu.IpInput
