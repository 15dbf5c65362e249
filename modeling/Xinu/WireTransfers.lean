import Xinu.Checksums
import Xinu.NetStack

/-!
# Datagrams between machines

`ip_out` puts the headers of a packet into network order and writes the frame; `netin` and `ip_in` of the
machine that reads it put them back into host order. Conversions in place only move bytes, so that each
stage is followed by the place that a byte comes from.

The frame that is read has the bytes of the frame that was written. What lies behind these bytes in the
buffer is arbitrary.
-/

namespace Xinu.WireTransfers

open CIntegers NetworkOrder Packets IpInput Checksums NetStack

/-- The place that a byte of a field comes from when the field is converted. -/
def mirrored (at_ size place : Nat) : Nat :=
  if at_ ≤ place ∧ place < at_ + size then 2 * at_ + size - 1 - place else place

/-- `ip_hton`, `udp_hton`, `icmp_hton` and `eth_hton`. -/
def ipHton (p : NetPacket) : NetPacket :=
  { p with bytes := convert32 (convert32 (convert16 (convert16 (convert16 p.bytes 16) 18) 20) 26) 30 }

def udpHton (p : NetPacket) : NetPacket :=
  { p with bytes := convert16 (convert16 (convert16 p.bytes 34) 36) 38 }

def icmpHton (p : NetPacket) : NetPacket :=
  { p with bytes := convert16 (convert16 (convert16 p.bytes 36) 38) 40 }

def ethHton (p : NetPacket) : NetPacket := { p with bytes := convert16 p.bytes 12 }

/-- The switch of `ip_out` on the protocol. -/
def encapsulated (p : NetPacket) : Option NetPacket :=
  if p.netIpproto = ipUdp then some (udpHton (cleared p 40))
  else if p.netIpproto = ipIcmp then outIccksum (icmpHton p) (p.netIplen.toNat - ipHdrLen)
  else some p

/-- `ip_out`: the frame that it writes, and `pktlen`. -/
def ipOut (p : NetPacket) : Option (NetPacket × Nat) :=
  (encapsulated p).map fun out => (ethHton (outIpcksum (ipHton out)), p.netIplen.toNat + ethHdrLen)

/-- The fields that hold checksums. -/
def IsCksum (p : NetPacket) (place : Nat) : Prop :=
  place = 24 ∨ place = 25 ∨ p.netIpproto = ipUdp ∧ (place = 40 ∨ place = 41) ∨
    p.netIpproto = ipIcmp ∧ (place = 36 ∨ place = 37)

/-- A packet that has the bytes of another one, up to its IP length and without the checksums. -/
def Copies (p q : NetPacket) : Prop :=
  ∀ place < ethHdrLen + p.netIplen.toNat, ¬ IsCksum p place → q.bytes place = p.bytes place

/-- The receiver of an ICMP message accepts its checksum. -/
def Passes (p : NetPacket) : Prop :=
  p.netIpproto = ipIcmp → OneCarry (icmpWords (icmpHton p) (p.netIplen.toNat - ipHdrLen))

theorem headerSizes : ethHdrLen = 14 ∧ ipHdrLen = 20 ∧ udpHdrLen = 8 ∧ icmpHdrLen = 8 ∧ ictypeAt = 34 ∧
    dataAt = 42 ∧ packlen = 1514 := ⟨rfl, rfl, rfl, rfl, rfl, rfl, rfl⟩

section Places

variable {memory : Memory} {at_ place : Nat}

theorem mirrored_copy (size : Nat) :
    copy memory at_ (fun k => memory (at_ + (size - 1 - k))) size place = memory (mirrored at_ size place) := by
  unfold mirrored
  split
  case isTrue inside =>
    obtain ⟨k, rfl⟩ : ∃ k, place = at_ + k := ⟨place - at_, by lia⟩
    rw [copy_inside _ _ at_ size k (by omega)]
    exact congrArg memory (by lia)
  case isFalse outside => exact copy_outside _ _ at_ size _ (by omega)

theorem convert16_eq : convert16 memory at_ place = memory (mirrored at_ 2 place) := mirrored_copy 2

theorem convert32_eq : convert32 memory at_ place = memory (mirrored at_ 4 place) := mirrored_copy 4

/-- The places that the bytes come from in a converted header of IP, UDP and ICMP. -/
def ipPlace (place : Nat) : Nat :=
  mirrored 16 2 (mirrored 18 2 (mirrored 20 2 (mirrored 26 4 (mirrored 30 4 place))))

def udpPlace (place : Nat) : Nat := mirrored 34 2 (mirrored 36 2 (mirrored 38 2 place))

def icmpPlace (place : Nat) : Nat := mirrored 36 2 (mirrored 38 2 (mirrored 40 2 place))

theorem ipNtoh_eq (p : NetPacket) : (ipNtoh p).bytes place = p.bytes (ipPlace place) := by
  unfold ipNtoh ipPlace
  simp only [convert16_eq, convert32_eq]

theorem udpNtoh_eq (p : NetPacket) : (udpNtoh p).bytes place = p.bytes (udpPlace place) := by
  unfold udpNtoh udpPlace
  simp only [convert16_eq]

theorem icmpNtoh_eq (p : NetPacket) : (icmpNtoh p).bytes place = p.bytes (icmpPlace place) := by
  unfold icmpNtoh icmpPlace
  simp only [convert16_eq]

theorem mirrored_cases (at_ size place : Nat) : mirrored at_ size (mirrored at_ size place) = place ∧
    (mirrored at_ size place = place ∨ mirrored at_ size place < at_ + size ∧ place < at_ + size) := by
  unfold mirrored
  by_cases inside : at_ ≤ place ∧ place < at_ + size
  · rw [if_pos inside, if_pos (by omega)]
    lia
  · rw [if_neg inside, if_neg inside]
    lia

theorem mirrored_of_ge {size : Nat} (behind : at_ + size ≤ place) : mirrored at_ size place = place := if_neg (by omega)

/-- A conversion moves bytes within its header, and a second one moves them back. -/
theorem ipPlace_cases (place : Nat) : ipPlace (ipPlace place) = place ∧
    (ipPlace place = place ∨ 16 ≤ place ∧ place < 34 ∧ 16 ≤ ipPlace place ∧ ipPlace place < 34) ∧
    (ipPlace place = 24 ∨ ipPlace place = 25 ↔ place = 24 ∨ place = 25) := by
  rcases lt_or_ge place 34 with inside | behind
  · revert place
    decide
  · have fixed : ipPlace place = place := by
      unfold ipPlace
      simp (disch := lia) only [mirrored_of_ge]
    simp only [fixed, true_or, and_self]

theorem udpPlace_cases (place : Nat) : udpPlace (udpPlace place) = place ∧
    (udpPlace place = place ∨ 34 ≤ place ∧ place < 40 ∧ 34 ≤ udpPlace place ∧ udpPlace place < 40) := by
  rcases lt_or_ge place 42 with inside | behind
  · revert place
    decide
  · have fixed : udpPlace place = place := by
      unfold udpPlace
      simp (disch := lia) only [mirrored_of_ge]
    simp only [fixed, true_or, and_self]

theorem icmpPlace_cases (place : Nat) : icmpPlace (icmpPlace place) = place ∧
    (icmpPlace place = place ∨ 36 ≤ place ∧ place < 42 ∧ 36 ≤ icmpPlace place ∧ icmpPlace place < 42) ∧
    (icmpPlace place = 36 ∨ icmpPlace place = 37 ↔ place = 36 ∨ place = 37) := by
  rcases lt_or_ge place 42 with inside | behind
  · revert place
    decide
  · have fixed : icmpPlace place = place := by
      unfold icmpPlace
      simp (disch := omega) only [mirrored_of_ge]
    simp only [fixed, true_or, and_self]

end Places

section Stages

variable {p q r out : NetPacket} {len : Nat}

theorem words_congr {at_ : Nat} (same : ∀ k < len, q.bytes (at_ + k) = p.bytes (at_ + k)) :
    words q at_ len = words p at_ len := by
  have inside : ∀ i ∈ List.range (len / 2),
      (ntohs q.bytes (at_ + 2 * i)).toNat = (ntohs p.bytes (at_ + 2 * i)).toNat := by
    intro i member
    have below := List.mem_range.mp member
    refine congrArg UInt16.toNat (ntohs_congr fun k inside => ?_)
    rw [Nat.add_assoc]
    exact same _ (by lia)
  unfold words
  rw [List.map_congr_left inside]
  split
  · rfl
  · rw [same _ (by omega)]

theorem host32_congr {memory other : Memory} {at_ : Nat} (same : ∀ k < 4, memory (at_ + k) = other (at_ + k)) :
    host32 memory at_ = host32 other at_ := by
  have first : memory at_ = other at_ := same 0 (by omega)
  unfold host32
  rw [first, same 1 (by omega), same 2 (by omega), same 3 (by omega)]

theorem ipcksum_congr (same : ∀ place, 14 ≤ place → place < 34 → q.bytes place = p.bytes place) :
    ipcksum q = ipcksum p := by
  have sameWords : words q ipvhAt ipHdrLen = words p ipvhAt ipHdrLen :=
    words_congr fun k below => same _ (Nat.le_add_right 14 k) (Nat.add_lt_add_left below 14)
  apply UInt16.toNat_inj.mp
  rw [toNat_ipcksum, toNat_ipcksum, sameWords]

theorem icmpCksum_congr (inside : ictypeAt + len ≤ packlen)
    (same : ∀ k < len, q.bytes (ictypeAt + k) = p.bytes (ictypeAt + k)) : icmpCksum q len = icmpCksum p len := by
  apply Option.map_injective fun _ _ => UInt16.toNat_inj.mp
  rw [icmpCksum_eq inside, icmpCksum_eq inside, words_congr same]

theorem stored_byte {at_ place : Nat} (cksum : UInt16) (apart : place < at_ ∨ at_ + 2 ≤ place) :
    (stored (cleared p at_) at_ cksum).bytes place = p.bytes place :=
  calc (stored (cleared p at_) at_ cksum).bytes place = (cleared p at_).bytes place :=
        copy_outside _ (fun k => byteOf cksum.toNat (1 - k)) at_ 2 _ apart
    _ = p.bytes place := copy_outside _ (fun k => byteOf (0 : UInt16).toNat k) at_ 2 _ apart

/-- The reader of a frame finds the header checksum right, and undoes the conversions of the header. -/
theorem header_arrives (covers : 34 ≤ len)
    (received : ∀ place < len, r.bytes place = (ethHton (outIpcksum (ipHton out))).bytes place) :
    ipcksum (ethNtoh r) = 0 ∧
      ∀ place < len, place ≠ 24 → place ≠ 25 → (ipNtoh (ethNtoh r)).bytes place = out.bytes place := by
  have arrived : ∀ place < len, (ethNtoh r).bytes place = (outIpcksum (ipHton out)).bytes place := by
    intro place below
    obtain ⟨back, moved⟩ := mirrored_cases 12 2 place
    calc (ethNtoh r).bytes place = r.bytes (mirrored 12 2 place) := convert16_eq
      _ = (ethHton (outIpcksum (ipHton out))).bytes (mirrored 12 2 place) := received _ (by lia)
      _ = (outIpcksum (ipHton out)).bytes (mirrored 12 2 (mirrored 12 2 place)) := convert16_eq
      _ = (outIpcksum (ipHton out)).bytes place := by rw [back]
  refine ⟨?_, fun place below notHigh notLow => ?_⟩
  · rw [ipcksum_congr fun place _ below => arrived place (by omega)]
    exact ipcksum_outIpcksum
  · obtain ⟨back, moved, cksum⟩ := ipPlace_cases place
    rw [ipNtoh_eq, arrived _ (by lia)]
    calc (outIpcksum (ipHton out)).bytes (ipPlace place) = (ipHton out).bytes (ipPlace place) :=
          stored_byte _ (by unfold ipcksumAt; lia)
      _ = out.bytes (ipPlace (ipPlace place)) := ipNtoh_eq out
      _ = out.bytes place := congrArg out.bytes back

end Stages

section Transport

variable {p q x out : NetPacket} {place : Nat}

/-- The place that a byte of a packet comes from when its transport header is converted. -/
def transportPlace (p : NetPacket) (place : Nat) : Nat :=
  if p.netIpproto = ipUdp then udpPlace place else if p.netIpproto = ipIcmp then icmpPlace place else place

/-- A packet with its transport header converted. -/
def transportNtoh (p : NetPacket) : NetPacket :=
  if p.netIpproto = ipUdp then udpNtoh p else if p.netIpproto = ipIcmp then icmpNtoh p else p

theorem transportNtoh_eq : (transportNtoh p).bytes place = p.bytes (transportPlace p place) := by
  unfold transportNtoh transportPlace
  split
  · exact udpNtoh_eq p
  · split
    · exact icmpNtoh_eq p
    · rfl

theorem transportPlace_cases (p : NetPacket) (place : Nat) : transportPlace p (transportPlace p place) = place ∧
    (transportPlace p place = place ∨
      34 ≤ place ∧ place < 42 ∧ 34 ≤ transportPlace p place ∧ transportPlace p place < 42) ∧
    (IsCksum p (transportPlace p place) ↔ IsCksum p place) := by
  unfold transportPlace IsCksum
  split
  case isTrue isUdp =>
    have notIcmp : ipUdp ≠ ipIcmp := by decide
    obtain ⟨back, moved⟩ := udpPlace_cases place
    simp only [isUdp, notIcmp, false_and, or_false, true_and]
    lia
  case isFalse notUdp =>
    split
    case isTrue isIcmp =>
      have other : ipIcmp ≠ ipUdp := by decide
      obtain ⟨back, moved, cksum⟩ := icmpPlace_cases place
      simp only [isIcmp, other, false_and, false_or, true_and]
      lia
    case isFalse notIcmp => exact ⟨rfl, Or.inl rfl, Iff.rfl⟩

/-- The transport header is converted, and its checksum is set. -/
theorem encapsulated_byte (isOut : encapsulated p = some out) (other : ¬ IsCksum p place) :
    out.bytes place = p.bytes (transportPlace p place) := by
  unfold encapsulated at isOut
  unfold transportPlace
  unfold IsCksum at other
  split at isOut
  case isTrue isUdp =>
    cases isOut
    rw [if_pos isUdp]
    have moved := (udpPlace_cases place).2
    have apart : ¬ (place = 40 ∨ place = 41) := fun isField => other (Or.inr (Or.inr (Or.inl ⟨isUdp, isField⟩)))
    calc (udpHton (cleared p 40)).bytes place = (cleared p 40).bytes (udpPlace place) := udpNtoh_eq _
      _ = p.bytes (udpPlace place) := copy_outside _ (fun k => byteOf (0 : UInt16).toNat k) 40 2 _ (by lia)
  case isFalse notUdp =>
    rw [if_neg notUdp]
    split at isOut
    case isTrue isIcmp =>
      have apart : ¬ (place = 36 ∨ place = 37) := fun isField => other (Or.inr (Or.inr (Or.inr ⟨isIcmp, isField⟩)))
      obtain ⟨cksum, _, rfl⟩ := Option.map_eq_some_iff.mp isOut
      rw [if_pos isIcmp]
      exact (stored_byte cksum (by unfold iccksumAt; lia)).trans (icmpNtoh_eq p)
    case isFalse notIcmp =>
      cases isOut
      rw [if_neg notIcmp]

/-- The reader finds the checksum of an ICMP message right, and converts the transport header. -/
theorem checkProtocol_arrived (covers : 28 ≤ p.netIplen.toNat) (within : ethHdrLen + p.netIplen.toNat ≤ packlen)
    (isOut : encapsulated p = some out) (proto : x.netIpproto = p.netIpproto) (length : x.netIplen = p.netIplen)
    (same : ∀ place < ethHdrLen + p.netIplen.toNat, 34 ≤ place → x.bytes place = out.bytes place)
    (passes : Passes p) : checkProtocol x = some (some (transportNtoh x)) := by
  have sizes := headerSizes
  unfold encapsulated at isOut
  unfold checkProtocol transportNtoh
  rw [proto, length]
  by_cases isUdp : p.netIpproto = ipUdp
  · rw [if_pos isUdp, if_pos isUdp]
  by_cases isIcmp : p.netIpproto = ipIcmp
  · have isLength : (p.netIplen.toNat : Int) - ipHdrLen = (p.netIplen.toNat - ipHdrLen : Nat) := by lia
    have verifies := ((icmp_verifies_iff (by lia) (by lia)).mpr (passes isIcmp)).2
    rw [if_neg isUdp, if_pos isIcmp, isLength] at isOut
    rw [isOut, Option.bind_some] at verifies
    rw [if_neg isUdp, if_pos isIcmp, if_neg isUdp, if_pos isIcmp, isLength,
      icmpCksum_congr (by omega) fun k below => same _ (by lia) (by lia), verifies]
    rfl
  · rw [if_neg isUdp, if_neg isIcmp, if_neg isUdp, if_neg isIcmp]

end Transport

/-- The machine that reads the frame of a packet gives the packet to the routine that its own addresses call
for, with the bytes that it had before `ip_out`. -/
theorem ipIn_of_ipOut {net : NetData} {p r frame : NetPacket} {len : Nat} (version : p.netIpvh = 0x45)
    (covers : 28 ≤ p.netIplen.toNat) (within : ethHdrLen + p.netIplen.toNat ≤ packlen)
    (sent : ipOut p = some (frame, len)) (received : ∀ place < len, r.bytes place = frame.bytes place)
    (passes : Passes p) : ∃ q, ipIn net (ethNtoh r) = some (deliver net p, q) ∧ Copies p q := by
  have sizes := headerSizes
  obtain ⟨out, isOut, same⟩ := Option.map_eq_some_iff.mp sent
  cases same
  obtain ⟨valid, bytes⟩ := header_arrives (by lia) received
  have headers : ∀ place < 34, place ≠ 24 → place ≠ 25 → (ipNtoh (ethNtoh r)).bytes place = p.bytes place := by
    intro place below notHigh notLow
    have fixed := (transportPlace_cases p place).2.1
    have other : ¬ IsCksum p place := by
      unfold IsCksum
      lia
    rw [bytes place (by lia) notHigh notLow, encapsulated_byte isOut other]
    exact congrArg p.bytes (by lia)
  have proto : (ipNtoh (ethNtoh r)).netIpproto = p.netIpproto := headers 23 (by omega) (by omega) (by omega)
  have length : (ipNtoh (ethNtoh r)).netIplen = p.netIplen :=
    host16_congr fun k below => headers (16 + k) (by lia) (by lia) (by lia)
  have kept : ∀ place < 34, (transportNtoh (ipNtoh (ethNtoh r))).bytes place = (ipNtoh (ethNtoh r)).bytes place := by
    intro place below
    have fixed := (transportPlace_cases (ipNtoh (ethNtoh r)) place).2.1
    rw [transportNtoh_eq]
    exact congrArg _ (by lia)
  have destination : (transportNtoh (ipNtoh (ethNtoh r))).netIpdst = p.netIpdst :=
    host32_congr fun k below => (kept (30 + k) (by lia)).trans (headers _ (by omega) (by lia) (by lia))
  have accepted := @ipIn_accepted _ net valid
    (ipNtoh_netIpvh.symm.trans ((headers 14 (by omega) (by omega) (by omega)).trans version))
  have checked := checkProtocol_arrived covers within isOut proto length
    (fun place below behind => bytes place (by lia) (by lia) (by lia)) passes
  refine ⟨transportNtoh (ipNtoh (ethNtoh r)), ?_, fun place below other => ?_⟩
  · have given : deliver net (transportNtoh (ipNtoh (ethNtoh r))) = deliver net p := by
      have sameProto : (transportNtoh (ipNtoh (ethNtoh r))).netIpproto = p.netIpproto := (kept 23 (by omega)).trans proto
      unfold deliver ipLocal
      rw [destination, sameProto]
    rw [accepted, checked, ← given]
    rfl
  · have moves : transportPlace (ipNtoh (ethNtoh r)) place = transportPlace p place := by
      unfold transportPlace
      rw [proto]
    obtain ⟨back, moved, cksums⟩ := transportPlace_cases p place
    have notCksum := fun isCksum => other (cksums.mp isCksum)
    rw [transportNtoh_eq, moves, bytes _ (by lia) (fun is24 => notCksum (Or.inl is24))
      (fun is25 => notCksum (Or.inr (Or.inl is25))), encapsulated_byte isOut notCksum, back]

section Fields

variable {net : NetData} {p pkt : NetPacket} {memory : Memory} {iplen : Int} {ident : UInt16} {proto : UInt8}
  {remip : UInt32} {data : List UInt8}

theorem host16_byteOf {at_ : Nat} {value : UInt16} (same : ∀ k < 2, memory (at_ + k) = byteOf value.toNat k) :
    host16 memory at_ = value := by
  have first : memory at_ = byteOf value.toNat 0 := same 0 (by omega)
  have bound := UInt16.toNat_lt value
  unfold host16
  rw [first, same 1 (by omega), byteOf_toNat, byteOf_toNat]
  apply UInt16.toNat_inj.mp
  rw [UInt16.toNat_ofNat_of_lt' (by have size : UInt16.size = 65536 := rfl; lia)]
  lia

theorem host32_byteOf {at_ : Nat} {value : UInt32} (same : ∀ k < 4, memory (at_ + k) = byteOf value.toNat k) :
    host32 memory at_ = value := by
  have first : memory at_ = byteOf value.toNat 0 := same 0 (by omega)
  have bound := UInt32.toNat_lt value
  unfold host32
  rw [first, same 1 (by omega), same 2 (by omega), same 3 (by omega), byteOf_toNat, byteOf_toNat, byteOf_toNat,
    byteOf_toNat]
  apply UInt32.toNat_inj.mp
  rw [UInt32.toNat_ofNat_of_lt' (by have size : UInt32.size = 4294967296 := rfl; lia)]
  omega

theorem toNat_ofInt {value : Int} {length : Nat} (isLength : value = length) (small : length < 65536) :
    (UInt16.ofInt value).toNat = length := by
  unfold UInt16.ofInt
  rw [UInt16.toNat_ofNat_of_lt' (by have size : UInt16.size = 65536 := rfl; lia)]
  lia

/-- The fields of the headers that the local stack makes. -/
theorem ipHeaders_fields (same : ∀ place < 34, p.bytes place = ipHeaders net memory iplen ident proto remip place) :
    p.netIpvh = 0x45 ∧ p.netIplen = UInt16.ofInt iplen ∧ p.netIpproto = proto ∧ p.netIpsrc = net.ipucast ∧
      p.netIpdst = remip := by
  refine ⟨same 14 (by omega), host16_byteOf fun k below => ?_, same 23 (by omega), host32_byteOf fun k below => ?_,
    host32_byteOf fun k below => ?_⟩
  all_goals
    rw [same _ (by lia)]
    interval_cases k <;> rfl

/-- The bytes of a datagram before its data. -/
theorem header_byte {headers : Memory} {place : Nat} (before : place < dataAt) :
    copy headers dataAt (fun k => data.getD k 0) data.length place = headers place :=
  copy_outside _ (fun k => data.getD k 0) _ _ _ (Or.inl before)

/-- The data of a packet is copied out of it. -/
theorem copyBytes_eq {left at_ : Nat} (inside : at_ + left ≤ packlen) (some_ : left ≤ data.length)
    (same : ∀ k < left, p.bytes (at_ + k) = data.getD k 0) : copyBytes p left at_ = some (data.take left) := by
  induction left generalizing at_ data with
  | zero => rfl
  | succ left inductionHypothesis =>
    obtain ⟨byte, rest, rfl⟩ := List.exists_cons_of_length_pos (Nat.lt_of_lt_of_le left.succ_pos some_)
    have next := @inductionHypothesis rest (at_ + 1) (by lia) (Nat.le_of_succ_le_succ some_) fun k below => by
      rw [Nat.add_assoc, Nat.add_comm 1]
      exact same (k + 1) (by lia)
    unfold copyBytes
    rw [byte?_eq_some (by omega), Option.bind_some, next]
    exact congrArg (fun byte => some (byte :: rest.take left)) (same 0 (by lia))

/-- A datagram of the local stack is accepted at its destination, with its transport header and its data. -/
theorem datagram_accepted {there : NetData} {r frame : NetPacket} {len : Nat}
    (header : ∀ place < 34, p.bytes place = ipHeaders net memory iplen ident proto there.ipucast place)
    (isLength : iplen = 28 + data.length) (fits : dataAt + data.length ≤ packlen)
    (bytes : ∀ k < data.length, p.bytes (dataAt + k) = data.getD k 0) (sent : ipOut p = some (frame, len))
    (received : ∀ place < len, r.bytes place = frame.bytes place) (valid : there.ipvalid = true) (passes : Passes p) :
    ∃ q, ipIn there (ethNtoh r) = some (ipLocal p, q) ∧ q.netIpsrc = net.ipucast ∧
      q.netIplen.toNat = 28 + data.length ∧
      (∀ place, 34 ≤ place → place < dataAt → ¬ IsCksum p place → q.bytes place = p.bytes place) ∧
      ∀ count ≤ data.length, copyBytes q count dataAt = some (data.take count) := by
  have sizes := headerSizes
  obtain ⟨version, isIplen, isProto, source, destination⟩ := ipHeaders_fields header
  have length : p.netIplen.toNat = 28 + data.length := by
    rw [isIplen]
    exact toNat_ofInt (by lia) (by lia)
  obtain ⟨q, handled, copies⟩ := @ipIn_of_ipOut there p r _ _ version (by lia) (by lia) sent received passes
  have given : deliver there p = ipLocal p := by
    unfold deliver
    rw [destination, valid]
    simp
  have headers : ∀ place < 34, place ≠ 24 → place ≠ 25 → q.bytes place = p.bytes place := fun place _ _ _ =>
    copies place (by lia) (by unfold IsCksum; lia)
  have sameLength : q.netIplen = p.netIplen :=
    host16_congr fun k below => headers (16 + k) (by lia) (by lia) (by lia)
  have sameSource : q.netIpsrc = p.netIpsrc :=
    host32_congr fun k below => headers (26 + k) (by lia) (by lia) (by lia)
  refine ⟨q, given ▸ handled, sameSource.trans source, sameLength ▸ length, fun place _ below other =>
    copies place (by lia) other, fun count few => copyBytes_eq (by lia) few fun k below => ?_⟩
  rw [copies (dataAt + k) (by lia) (by unfold IsCksum; lia)]
  exact bytes k (by lia)

end Fields

/-- A machine with an address, and another one. -/
def origin : NetData := ⟨0xc0a80001, 0xc0a800ff, 0xffffff00, 0xc0a80000, 0, true, fun _ => 2, fun _ => 0xff⟩

def target : NetData := { origin with ipucast := 0xc0a80002 }

/-- The datagram that `udp_send` and `udp_sendto` give to `ip_send`: its headers, and the data behind them. -/
theorem sendDatagram_cases (s : Stack) (pid : Nat) (ident : UInt16) (remip : UInt32) (remport locport : UInt16)
    (buff : Memory) (len : Nat) (fits : dataAt + len ≤ packlen) :
    ∃ p, sendDatagram s pid ident remip remport locport buff len = ipSend s.getbuf.2 pid p ∧
      (∀ place < 34, p.bytes place =
        ipHeaders s.net s.getbuf.1.bytes (ipHdrLen + udpHdrLen + len) ident ipUdp remip place) ∧
      (∀ k < 2, p.bytes (34 + k) = byteOf locport.toNat k ∧ p.bytes (36 + k) = byteOf remport.toNat k ∧
        p.bytes (38 + k) = byteOf (UInt16.ofInt (udpHdrLen + len)).toNat k) ∧
      (callerData buff len).length = len ∧ ∀ k < len, p.bytes (dataAt + k) = (callerData buff len).getD k 0 := by
  have sizes := headerSizes
  have length : (callerData buff len).length = len := by
    unfold callerData
    rw [List.length_map, List.length_range, Int.toNat_natCast]
  let headers := put16 (put16 (put16 (put16 (ipHeaders s.net s.getbuf.1.bytes (ipHdrLen + udpHdrLen + len) ident ipUdp
    remip) 34 locport) 36 remport) 38 (UInt16.ofInt (udpHdrLen + len))) 40 0
  refine ⟨⟨s.next, copy headers dataAt (fun k => (callerData buff len).getD k 0) (callerData buff len).length⟩, ?_,
    fun place below => ?_, fun k below => ?_, length, fun k below => ?_⟩
  · unfold sendDatagram
    exact if_neg (by lia)
  · refine (header_byte (by lia)).trans ?_
    interval_cases place <;> rfl
  · refine ⟨(header_byte (by lia)).trans ?_, (header_byte (by lia)).trans ?_, (header_byte (by lia)).trans ?_⟩
    all_goals interval_cases k <;> rfl
  · exact copy_inside _ (fun k => (callerData buff len).getD k 0) _ _ k (length.symm ▸ below)

/-- What `udp_send` and `udp_sendto` give to `ip_send` is, once `ip_out` has written it and the machine with the
destination's address has read it, given to `udp_in` with the ports and the source of the sender; `udp_recv`
then delivers the sender's bytes, as many as the caller has room for. -/
theorem datagram_arrives (s : Stack) (pid : Nat) (ident : UInt16) (remip : UInt32) (remport locport : UInt16)
    (buff : Memory) (len : Nat) (fits : dataAt + len ≤ packlen) :
    ∃ p frame, sendDatagram s pid ident remip remport locport buff len = ipSend s.getbuf.2 pid p ∧
      ipOut p = some (frame, dataAt + len) ∧
      ∀ r there, (∀ place < dataAt + len, r.bytes place = frame.bytes place) → there.ipvalid = true →
        there.ipucast = remip → ∃ q, ipIn there (ethNtoh r) = some (.udpIn, q) ∧
          q.netIpsrc = s.net.ipucast ∧ q.netUdpsport = locport ∧ q.netUdpdport = remport ∧
          ∀ room : Nat, udpCopy q room = some (((min room len : Nat) : Int), (callerData buff len).take room) := by
  have sizes := headerSizes
  obtain ⟨p, sends, header, isField, length, bytes⟩ := sendDatagram_cases s pid ident remip remport locport buff len fits
  obtain ⟨_, iplen, proto, _⟩ := ipHeaders_fields header
  have isIplen : p.netIplen.toNat = 28 + len := by
    rw [iplen]
    exact toNat_ofInt (by lia) (by lia)
  have sent : ipOut p = some (ethHton (outIpcksum (ipHton (udpHton (cleared p 40)))), dataAt + len) := by
    unfold ipOut encapsulated
    rw [if_pos proto, isIplen, Option.map_some]
    exact congrArg (fun len => some (_, len)) (by lia)
  refine ⟨p, _, sends, sent, fun r there received valid addressed => ?_⟩
  subst addressed
  obtain ⟨q, handled, source, _, kept, copied⟩ := datagram_accepted header (by lia) (by lia)
    (fun k below => bytes k (by lia)) sent received valid fun isIcmp => absurd (proto.symm.trans isIcmp) (by decide)
  have field : ∀ place value, 34 ≤ place → place < 39 → (∀ k < 2, p.bytes (place + k) = byteOf value k) →
      ∀ k < 2, q.bytes (place + k) = byteOf value k := by
    intro place value behind before isField k below
    have notIcmp : p.netIpproto ≠ ipIcmp := proto.symm ▸ by decide
    rw [kept _ (by lia) (by lia) (by unfold IsCksum; simp only [notIcmp, false_and, or_false]; lia), isField k below]
  have isUdplen : q.netUdplen = UInt16.ofInt (udpHdrLen + len) :=
    host16_byteOf (field 38 _ (by omega) (by omega) fun k below => (isField k below).2.2)
  refine ⟨q, ?_, source, host16_byteOf (field 34 _ (by omega) (by omega) fun k below => (isField k below).1),
    host16_byteOf (field 36 _ (by omega) (by omega) fun k below => (isField k below).2.1), fun room => ?_⟩
  · rw [handled]
    unfold ipLocal
    rw [if_pos proto]
  · have count : (min (room : Int) (q.netUdplen.toNat - udpHdrLen)) = (min room len : Nat) := by
      rw [isUdplen, @toNat_ofInt _ (8 + len) (by lia) (by lia)]
      lia
    rw [udpCopy_eq, count, Int.toNat_natCast, copied _ (by lia), List.take_eq_take_min (i := room), length]
    rfl

/-- Two bytes in a buffer of zeros are sent from one machine to the other. -/
theorem two_bytes_arrive : ∃ frame q, ipIn target (ethNtoh frame) = some (.udpIn, q) ∧ udpCopy q 100 = some (2, [7, 7]) := by
  obtain ⟨p, frame, _, _, arrives⟩ := datagram_arrives
    (netInit origin (fun _ => none) (fun _ => none) ⟨0, fun _ => 0⟩ (fun _ _ => 0) (fun _ => .free) 0) 0 1
    target.ipucast 7 4000 (fun _ => 7) 2 (by decide)
  obtain ⟨q, handled, _, _, _, copied⟩ := arrives frame target (fun _ _ => rfl) rfl rfl
  exact ⟨frame, q, handled, copied 100⟩

section Messages

variable {here there : NetData} {pkt p : NetPacket} {ipident : UInt32} {type ident seq : UInt16} {data : List UInt8}

/-- What `icmp_mkpkt` makes lies within its buffer: the headers, and the data behind them. -/
theorem icmpMkpkt_cases
    (made : icmpMkpkt here pkt ipident there.ipucast type ident seq data data.length = some p) :
    dataAt + data.length ≤ packlen ∧ p.bytes = copy (icmpHeaders here pkt.bytes ipident there.ipucast type ident seq
      data.length) dataAt (fun k => data.getD k 0) data.length ∧
    ∀ place < 34, p.bytes place = ipHeaders here pkt.bytes (ipHdrLen + icmpHdrLen + data.length) ipident.toUInt16
      ipIcmp there.ipucast place := by
  unfold icmpMkpkt at made
  dsimp only at made
  split at made
  · cases made
  cases made
  refine ⟨by omega, rfl, fun place below => (header_byte (by unfold dataAt; omega)).trans ?_⟩
  interval_cases place <;> rfl

/-- `ip_out` writes every message that `icmp_mkpkt` makes. -/
theorem ipOut_of_icmpMkpkt
    (made : icmpMkpkt here pkt ipident there.ipucast type ident seq data data.length = some p) :
    ∃ frame len, ipOut p = some (frame, len) := by
  have sizes := headerSizes
  obtain ⟨fits, _, header⟩ := icmpMkpkt_cases made
  obtain ⟨_, iplen, proto, _⟩ := ipHeaders_fields header
  have length : p.netIplen.toNat = 28 + data.length := by
    rw [iplen]
    exact toNat_ofInt (by lia) (by lia)
  have notUdp : ipIcmp ≠ ipUdp := by decide
  obtain ⟨cksum, isCksum⟩ := Option.isSome_iff_exists.mp ((@icmpCksum_isSome (cleared (icmpHton p) iccksumAt)
    (p.netIplen.toNat - ipHdrLen)).mpr (Or.inr (by lia)))
  unfold ipOut encapsulated outIccksum
  rw [proto, if_neg notUdp, if_pos rfl, isCksum]
  exact ⟨_, _, rfl⟩

/-- An ICMP message that `icmp_mkpkt` made arrives with its fields and its data. -/
theorem message_arrives {r frame : NetPacket} {len : Nat}
    (made : icmpMkpkt here pkt ipident there.ipucast type ident seq data data.length = some p)
    (sent : ipOut p = some (frame, len)) (received : ∀ place < len, r.bytes place = frame.bytes place)
    (valid : there.ipvalid = true) (passes : Passes p) :
    ∃ q, ipIn there (ethNtoh r) = some (.icmpIn, q) ∧ q.netIpsrc = here.ipucast ∧
      q.netIplen.toNat = 28 + data.length ∧ q.netIctype = type.toUInt8 ∧ q.netIcident = ident ∧ q.netIcseq = seq ∧
      ∀ count ≤ data.length, copyBytes q count dataAt = some (data.take count) := by
  have sizes := headerSizes
  obtain ⟨fits, bytes, header⟩ := icmpMkpkt_cases made
  have proto : p.netIpproto = ipIcmp := header 23 (by omega)
  have notUdp : ipIcmp ≠ ipUdp := by decide
  obtain ⟨q, handled, source, length, kept, copied⟩ := datagram_accepted header (by lia) fits
    (fun k below => by rw [bytes]; exact copy_inside _ (fun k => data.getD k 0) _ _ k below) sent received valid passes
  have same : ∀ place, 34 ≤ place → place < 42 → place ≠ 36 → place ≠ 37 → q.bytes place =
      icmpHeaders here pkt.bytes ipident there.ipucast type ident seq data.length place := by
    intro place behind before not36 not37
    have other : ¬ IsCksum p place := by
      unfold IsCksum
      rw [proto]
      simp only [notUdp, false_and, false_or]
      lia
    rw [kept place behind (by lia) other, bytes]
    exact header_byte (by omega)
  refine ⟨q, ?_, source, length, same 34 (by omega) (by omega) (by omega) (by omega), host16_byteOf fun k below => ?_,
    host16_byteOf fun k below => ?_, copied⟩
  · rw [handled]
    unfold ipLocal
    rw [proto, if_neg notUdp, if_pos rfl]
  all_goals
    refine (same _ (by lia) (by lia) (by lia) (by lia)).trans ?_
    interval_cases k <;> rfl

end Messages

/-- An echo request that is read at its destination is answered there with a reply, and the reply, read at the
origin of the request, is an echo reply with the identifier, the number and the data of the request, provided
that the two messages pass their checksums. -/
theorem ping_returns {here there : NetData} {pkt buffer p r frame : NetPacket} {ipident : UInt32} {ident seq : UInt16}
    {data : List UInt8} {len : Nat}
    (made : icmpMkpkt here pkt ipident there.ipucast icmpEchoreqst ident seq data data.length = some p)
    (sent : ipOut p = some (frame, len)) (received : ∀ place < len, r.bytes place = frame.bytes place)
    (thereValid : there.ipvalid = true) (hereValid : here.ipvalid = true) (passes : Passes p) (replyIdent : UInt32) :
    ∃ q reply answer len, ipIn there (ethNtoh r) = some (.icmpIn, q) ∧ q.netIctype = icmpEchoreqst.toUInt8 ∧
      echoReply there buffer replyIdent q = some reply ∧ ipOut reply = some (answer, len) ∧
      ∀ last, (∀ place < len, last.bytes place = answer.bytes place) → Passes reply →
        ∃ a, ipIn here (ethNtoh last) = some (.icmpIn, a) ∧ a.netIctype = icmpEchoreply.toUInt8 ∧
          a.netIpsrc = there.ipucast ∧ a.netIcident = ident ∧ a.netIcseq = seq ∧
          ∀ room : Nat, icmpCopy a room = some (((min room data.length : Nat) : Int), data.take room) := by
  have sizes := headerSizes
  obtain ⟨q, handled, source, length, type, isIdent, isSeq, copied⟩ :=
    message_arrives made sent received thereValid passes
  obtain ⟨fits, _⟩ := icmpMkpkt_cases made
  have isLength : (q.netIplen.toNat : Int) - ipHdrLen - icmpHdrLen = data.length := by lia
  obtain ⟨reply, isReply⟩ : ∃ reply,
      icmpMkpkt there buffer replyIdent here.ipucast icmpEchoreply ident seq data data.length = some reply := by
    unfold icmpMkpkt
    rw [if_neg (by lia)]
    exact ⟨_, rfl⟩
  obtain ⟨answer, answerLen, answered⟩ := ipOut_of_icmpMkpkt isReply
  refine ⟨q, reply, answer, answerLen, handled, type, ?_, answered, fun last received passes => ?_⟩
  · unfold echoReply
    dsimp only
    rw [isLength, Int.toNat_natCast, copied _ le_rfl, List.take_length, Option.bind_some, source, isIdent, isSeq,
      isReply]
  · obtain ⟨a, handled, source, length, type, isIdent, isSeq, copied⟩ :=
      message_arrives isReply answered received hereValid passes
    refine ⟨a, handled, type, source, isIdent, isSeq, fun room => ?_⟩
    have count : (min ((a.netIplen.toNat : Int) - ipHdrLen - icmpHdrLen) room).toNat = min room data.length := by lia
    unfold icmpCopy
    dsimp only
    rw [count, copied _ (by lia), List.take_eq_take_min (i := room)]
    rfl

instance (p : NetPacket) : Decidable (Passes p) := inferInstanceAs (Decidable (_ → _))

/-- A ping with two bytes of data. -/
def ping : NetPacket :=
  (icmpMkpkt origin ⟨0, fun _ => 0⟩ 1 target.ipucast icmpEchoreqst 9 1 [7, 8] 2).getD ⟨0, fun _ => 0⟩

theorem ping_is_answered : ∃ frame q, ipIn target (ethNtoh frame) = some (.icmpIn, q) ∧
    (echoReply target ⟨1, fun _ => 0⟩ 1 q).isSome = true := by
  have made : icmpMkpkt origin ⟨0, fun _ => 0⟩ 1 target.ipucast icmpEchoreqst 9 1 [7, 8] 2 = some ping := rfl
  obtain ⟨frame, len, sent⟩ := @ipOut_of_icmpMkpkt _ _ _ _ _ _ _ _ [7, 8] made
  obtain ⟨q, reply, _, _, handled, _, isReply, _⟩ := @ping_returns origin target ⟨0, fun _ => 0⟩ ⟨1, fun _ => 0⟩ ping
    frame frame 1 9 1 [7, 8] len made sent (fun _ _ => rfl) rfl rfl (by decide +kernel) 1
  exact ⟨frame, q, handled, Option.isSome_of_eq_some isReply⟩

end Xinu.WireTransfers
