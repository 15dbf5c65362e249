import Xinu.NetworkOrder

/-!
# Packets in network buffers

A packet lies in a buffer of `PACKLEN` bytes: Ethernet, IP and UDP or ICMP headers, and data. Fields
are converted in place, so that a converted field is read with its least significant byte first.

The headers lie inside of the buffer. The reads whose length depends on the contents of the packet
are made byte by byte, and a read outside of the buffer has no result.
-/

namespace Xinu.Packets

open CIntegers NetworkOrder

/-- `PACKLEN`, which is `sizeof(struct netpacket)`. -/
def packlen : Nat := 1514

/-- `ETH_HDR_LEN`, `IP_HDR_LEN`, `UDP_HDR_LEN` and `ICMP_HDR_LEN`. -/
def ethHdrLen : Nat := 14

def ipHdrLen : Nat := 20

def udpHdrLen : Nat := 8

def icmpHdrLen : Nat := 8

/-- A packet in a buffer of the pool. -/
structure NetPacket where
  buffer : Nat
  bytes : Memory

/-- `struct network`, without the names that booting uses. -/
structure NetData where
  ipucast : UInt32
  ipbcast : UInt32
  ipmask : UInt32
  ipprefix : UInt32
  iprouter : UInt32
  ipvalid : Bool
  ethucast : Memory
  ethbcast : Memory

/-- `IP_BCAST`. -/
def ipBcast : UInt32 := 0xffffffff

/-- A field of two bytes in host order. -/
def host16 (memory : Memory) (at_ : Nat) : UInt16 :=
  UInt16.ofNat ((memory at_).toNat + 256 * (memory (at_ + 1)).toNat)

/-- A field of four bytes in host order. -/
def host32 (memory : Memory) (at_ : Nat) : UInt32 :=
  UInt32.ofNat ((memory at_).toNat + 256 * (memory (at_ + 1)).toNat +
    65536 * (memory (at_ + 2)).toNat + 16777216 * (memory (at_ + 3)).toNat)

/-- A field of two bytes is converted in place, in either direction. -/
def convert16 (memory : Memory) (at_ : Nat) : Memory :=
  copy memory at_ (fun k => memory (at_ + (1 - k))) 2

/-- A field of four bytes is converted in place, in either direction. -/
def convert32 (memory : Memory) (at_ : Nat) : Memory :=
  copy memory at_ (fun k => memory (at_ + (3 - k))) 4

/-- A field of two bytes is stored in host order. -/
def put16 (memory : Memory) (at_ : Nat) (value : UInt16) : Memory :=
  copy memory at_ (fun k => byteOf value.toNat k) 2

/-- A field of four bytes is stored in host order. -/
def put32 (memory : Memory) (at_ : Nat) (value : UInt32) : Memory :=
  copy memory at_ (fun k => byteOf value.toNat k) 4

/-- The fields of `struct netpacket`, in host order where they have two bytes or four. -/
def NetPacket.netEthtype (p : NetPacket) : UInt16 := host16 p.bytes 12

def NetPacket.netIpvh (p : NetPacket) : UInt8 := p.bytes 14

def NetPacket.netIplen (p : NetPacket) : UInt16 := host16 p.bytes 16

def NetPacket.netIpproto (p : NetPacket) : UInt8 := p.bytes 23

def NetPacket.netIpsrc (p : NetPacket) : UInt32 := host32 p.bytes 26

def NetPacket.netIpdst (p : NetPacket) : UInt32 := host32 p.bytes 30

def NetPacket.netUdpsport (p : NetPacket) : UInt16 := host16 p.bytes 34

def NetPacket.netUdpdport (p : NetPacket) : UInt16 := host16 p.bytes 36

def NetPacket.netUdplen (p : NetPacket) : UInt16 := host16 p.bytes 38

def NetPacket.netIctype (p : NetPacket) : UInt8 := p.bytes 34

def NetPacket.netIcident (p : NetPacket) : UInt16 := host16 p.bytes 38

def NetPacket.netIcseq (p : NetPacket) : UInt16 := host16 p.bytes 40

/-- The places of `net_ictype` and of the data behind a UDP or ICMP header. -/
def ictypeAt : Nat := 34

def dataAt : Nat := 42

/-- `eth_ntoh`. -/
def ethNtoh (p : NetPacket) : NetPacket := { p with bytes := convert16 p.bytes 12 }

/-- `ip_ntoh`. -/
def ipNtoh (p : NetPacket) : NetPacket :=
  { p with bytes := convert32 (convert32 (convert16 (convert16 (convert16 p.bytes 16) 18) 20) 26) 30 }

/-- `udp_ntoh`. -/
def udpNtoh (p : NetPacket) : NetPacket :=
  { p with bytes := convert16 (convert16 (convert16 p.bytes 34) 36) 38 }

/-- `icmp_ntoh`. -/
def icmpNtoh (p : NetPacket) : NetPacket :=
  { p with bytes := convert16 (convert16 (convert16 p.bytes 36) 38) 40 }

/-- The carry of a sum is added, and the ones-complement is taken. -/
def onesComplement (sum : UInt32) : UInt32 := (0xffff : UInt32) &&& ~~~(sum + (sum >>> 16))

/-- `ipcksum`. -/
def ipcksum (p : NetPacket) : UInt16 :=
  let sum := (List.range 10).foldl (fun sum i => sum + (ntohs p.bytes (14 + 2 * i)).toUInt32) (0 : UInt32)
  let cksum := onesComplement sum
  if cksum = 0xffff then 0 else cksum.toUInt16

/-- A byte that is read at some place of a packet. -/
def NetPacket.byte? (p : NetPacket) (at_ : Nat) : Option UInt8 :=
  if at_ < packlen then some (p.bytes at_) else none

/-- The loop of `icmp_cksum` over 16-bit words, with the place behind the last one. -/
def icmpCksumLoop (p : NetPacket) : Nat → Nat → UInt32 → Option (UInt32 × Nat)
  | 0, sptr, cksum => some (cksum, sptr)
  | scount + 1, sptr, cksum =>
    (p.byte? sptr).bind fun high =>
      (p.byte? (sptr + 1)).bind fun low =>
        icmpCksumLoop p scount (sptr + 2) (cksum + UInt32.ofNat (256 * high.toNat + low.toNat))

/-- `icmp_cksum` of the ICMP message of a packet. -/
def icmpCksum (p : NetPacket) (buflen : Int) : Option UInt16 :=
  (icmpCksumLoop p (buflen / 2).toNat ictypeAt 0).bind fun words =>
    let whole := if buflen % 2 = 0 then some words.1 else
      (p.byte? words.2).map fun byte => words.1 + UInt32.ofNat (byte.toNat * 256)
    whole.map fun sum => (onesComplement sum).toUInt16

/-- Bytes of a packet that are copied out of it, from some place on. -/
def copyBytes (p : NetPacket) : Nat → Nat → Option (List UInt8)
  | 0, _ => some []
  | left + 1, at_ =>
    (p.byte? at_).bind fun byte => (copyBytes p left (at_ + 1)).map fun rest => byte :: rest

/-- What `udp_recv` copies out of a packet for a caller with room for `len` bytes, and returns. -/
def udpCopy (p : NetPacket) (len : Int) : Option (Int × List UInt8) :=
  let msglen : Int := p.netUdplen.toNat - udpHdrLen
  let msglen := if len < msglen then len else msglen
  (copyBytes p msglen.toNat dataAt).map fun data => (msglen, data)

/-- What `icmp_recv` copies out of a packet for a caller with room for `len` bytes, and returns. -/
def icmpCopy (p : NetPacket) (len : Int) : Option (Int × List UInt8) :=
  let datalen : Int := p.netIplen.toNat - ipHdrLen - icmpHdrLen
  let count := (min datalen len).toNat
  (copyBytes p count dataAt).map fun data => (count, data)

section Fields

variable {p : NetPacket} {memory : Memory} {at_ place count : Nat}

/-- A converted field has the value that it had in network order. -/
theorem host16_convert16 : host16 (convert16 memory at_) at_ = ntohs memory at_ := by
  have first : convert16 memory at_ at_ = memory (at_ + 1) := copy_inside _ _ at_ 2 0 (by omega)
  have second : convert16 memory at_ (at_ + 1) = memory at_ := copy_inside _ _ at_ 2 1 (by omega)
  unfold host16 ntohs
  rw [first, second, Nat.add_comm]

theorem host16_congr {other : Memory} (same : ∀ k < 2, memory (at_ + k) = other (at_ + k)) :
    host16 memory at_ = host16 other at_ := by
  have first : memory at_ = other at_ := same 0 (by omega)
  unfold host16
  rw [first, same 1 (by omega)]

/-- Another field keeps its value. -/
theorem host16_convert16_of_ne (apart : place + 2 ≤ at_ ∨ at_ + 2 ≤ place) :
    host16 (convert16 memory at_) place = host16 memory place :=
  host16_congr fun k below => copy_outside _ _ at_ 2 _ (by lia)

theorem host16_convert32_of_ne (apart : place + 2 ≤ at_ ∨ at_ + 4 ≤ place) :
    host16 (convert32 memory at_) place = host16 memory place :=
  host16_congr fun k below => copy_outside _ _ at_ 4 _ (by omega)

theorem ntohs_convert16_of_ne (apart : place + 2 ≤ at_ ∨ at_ + 2 ≤ place) :
    ntohs (convert16 memory at_) place = ntohs memory place :=
  ntohs_congr fun k below => copy_outside _ _ at_ 2 _ (by omega)

theorem byte?_eq_some (inside : at_ < packlen) : p.byte? at_ = some (p.bytes at_) := if_pos inside

theorem byte?_eq_none (outside : packlen ≤ at_) : p.byte? at_ = none := if_neg (by omega)

/-- Bytes can be copied just when they lie in the buffer. -/
theorem copyBytes_isSome (left at_ : Nat) :
    (copyBytes p left at_).isSome = true ↔ left = 0 ∨ at_ + left ≤ packlen := by
  induction left generalizing at_ with
  | zero => simp [copyBytes]
  | succ left inductionHypothesis =>
    unfold copyBytes
    rcases lt_or_ge at_ packlen with inside | outside
    · rw [byte?_eq_some inside, Option.bind_some, Option.isSome_map, inductionHypothesis]
      lia
    · rw [byte?_eq_none outside]
      simp only [Option.bind_none, Option.isSome_none, Bool.false_eq_true, false_iff]
      lia

theorem length_of_copyBytes (left at_ : Nat) {data : List UInt8} (copied : copyBytes p left at_ = some data) :
    data.length = left := by
  induction left generalizing at_ data with
  | zero =>
    cases copied
    rfl
  | succ left inductionHypothesis =>
    obtain ⟨byte, _, rest⟩ := Option.bind_eq_some_iff.mp copied
    obtain ⟨data, copiedRest, rfl⟩ := Option.map_eq_some_iff.mp rest
    rw [List.length_cons, inductionHypothesis (at_ + 1) copiedRest]

/-- The words of a checksum can be read just when they lie in the buffer. -/
theorem icmpCksumLoop_cases (scount sptr : Nat) (cksum : UInt32) :
    (scount = 0 ∨ sptr + 2 * scount ≤ packlen) ∧
        (∃ sum, icmpCksumLoop p scount sptr cksum = some (sum, sptr + 2 * scount)) ∨
      packlen < sptr + 2 * scount ∧ icmpCksumLoop p scount sptr cksum = none := by
  induction scount generalizing sptr cksum with
  | zero => exact Or.inl ⟨Or.inl rfl, cksum, rfl⟩
  | succ scount inductionHypothesis =>
    have next : sptr + 2 * (scount + 1) = sptr + 2 + 2 * scount := by lia
    unfold icmpCksumLoop
    rcases lt_or_ge (sptr + 1) packlen with inside | outside
    · rw [byte?_eq_some (by omega), byte?_eq_some inside, Option.bind_some, Option.bind_some, next]
      obtain ⟨fits, sum, result⟩ | ⟨beyond, result⟩ := inductionHypothesis (sptr + 2)
        (cksum + UInt32.ofNat (256 * (p.bytes sptr).toNat + (p.bytes (sptr + 1)).toNat))
      · exact Or.inl ⟨Or.inr (by lia), sum, result⟩
      · exact Or.inr ⟨beyond, result⟩
    · refine Or.inr ⟨by lia, ?_⟩
      rw [byte?_eq_none outside]
      cases p.byte? sptr <;> rfl

/-- The checksum of a message can be computed just when the message lies in the buffer. -/
theorem icmpCksum_isSome (buflen : Int) :
    (icmpCksum p buflen).isSome = true ↔ buflen ≤ 0 ∨ ictypeAt + buflen ≤ packlen := by
  have place : ictypeAt = 34 := rfl
  have whole : packlen = 1514 := rfl
  unfold icmpCksum
  obtain ⟨fits, sum, result⟩ | ⟨beyond, result⟩ := icmpCksumLoop_cases (p := p) (buflen / 2).toNat ictypeAt 0
  · rw [result, Option.bind_some]
    dsimp only
    rw [Option.isSome_map]
    by_cases even : buflen % 2 = 0
    · rw [if_pos even]
      simp only [Option.isSome_some, true_iff]
      lia
    · rw [if_neg even, Option.isSome_map]
      rcases lt_or_ge (ictypeAt + 2 * (buflen / 2).toNat) packlen with inside | outside
      · rw [byte?_eq_some inside]
        simp only [Option.isSome_some, true_iff]
        lia
      · rw [byte?_eq_none outside]
        simp only [Option.isSome_none, Bool.false_eq_true, false_iff]
        lia
  · rw [result]
    simp only [Option.bind_none, Option.isSome_none, Bool.false_eq_true, false_iff]
    lia

end Fields

end Xinu.Packets
