import Xinu.OnesComplement
import Xinu.Packets

/-!
# Checksums of packets

The checksum of an IP header or of an ICMP message is computed while its own field is zero, and is stored
in this field. The receiver computes the checksum of the whole and requires zero. The carries of the sum
are added only once: where a carry comes of that, a message is refused that was sent with its checksum.
-/

namespace Xinu.Checksums

open CIntegers NetworkOrder Packets OnesComplement

/-- The places of `net_ipvh`, `net_ipcksum` and `net_iccksum`. -/
def ipvhAt : Nat := 14

def ipcksumAt : Nat := 24

def iccksumAt : Nat := 36

/-- A packet with zero in the field of a checksum. -/
def cleared (p : NetPacket) (at_ : Nat) : NetPacket := { p with bytes := put16 p.bytes at_ 0 }

/-- A checksum is stored in its field. -/
def stored (p : NetPacket) (at_ : Nat) (cksum : UInt16) : NetPacket :=
  { p with bytes := htons p.bytes at_ cksum }

/-- `ip_out` for the checksum of the header. -/
def outIpcksum (p : NetPacket) : NetPacket :=
  stored (cleared p ipcksumAt) ipcksumAt (ipcksum (cleared p ipcksumAt))

/-- `ip_out` for the checksum of an ICMP message of some length. -/
def outIccksum (p : NetPacket) (len : Int) : Option NetPacket :=
  (icmpCksum (cleared p iccksumAt) len).map (stored (cleared p iccksumAt) iccksumAt)

/-- The words of a message. A last byte is the high half of a word. -/
def words (p : NetPacket) (at_ len : Nat) : List Nat :=
  (List.range (len / 2)).map (fun i => (ntohs p.bytes (at_ + 2 * i)).toNat) ++
    if len % 2 = 0 then [] else [(p.bytes (at_ + 2 * (len / 2))).toNat * 256]

/-- The words of an IP header and those of an ICMP message, with zero for the checksum. -/
def ipWords (p : NetPacket) : List Nat := words (cleared p ipcksumAt) ipvhAt ipHdrLen

def icmpWords (p : NetPacket) (len : Nat) : List Nat := words (cleared p iccksumAt) ictypeAt len

/-- The checksum of an IP header is that of its words, and the header passes with it. -/
def IpVerifies (p : NetPacket) : Prop :=
  (ipcksum (cleared p ipcksumAt)).toNat = checksum (ipWords p) ∧ ipcksum (outIpcksum p) = 0

/-- The checksum of an ICMP message is that of its words, and the message passes with it. -/
def IcmpVerifies (p : NetPacket) (len : Nat) : Prop :=
  (icmpCksum (cleared p iccksumAt) len).map UInt16.toNat = some (checksum (icmpWords p len)) ∧
    (outIccksum p len).bind (fun out => icmpCksum out len) = some 0

/-- The high half of a sum can be added to the low half without another carry. -/
def OneCarry (words : List Nat) : Prop := words.sum % 65536 + words.sum / 65536 < 65536

instance (words : List Nat) : Decidable (OneCarry words) := inferInstanceAs (Decidable (_ < _))

section Sums

variable {p : NetPacket} {at_ len place : Nat}

theorem toNat_onesComplement {total : Nat} (small : total < 65536 * 65535) :
    (onesComplement (UInt32.ofNat total)).toNat = 65535 - fold total := by
  have size : UInt32.size = 65536 * 65536 := by decide
  have value : (UInt32.ofNat total + UInt32.ofNat total >>> 16).toNat = total + total / 65536 := by
    rw [UInt32.toNat_add, UInt32.toNat_shiftRight, UInt32.toNat_ofNat_of_lt' (by rw [size]; omega), Nat.shiftRight_eq_div_pow]
    have shift : (16 : UInt32).toNat % 32 = 16 := by decide
    rw [shift]
    lia
  have mask : (0xffff : UInt32).toNat = 2 ^ 16 - 1 := by decide
  unfold onesComplement fold
  rw [UInt32.toNat_and, UInt32.toNat_not, value, mask, Nat.and_comm, Nat.and_two_pow_sub_one_eq_mod]
  rw [size]
  lia

theorem foldl_eq (list : List Nat) (value : Nat → Nat) (start : Nat) :
    list.foldl (fun sum i => sum + UInt32.ofNat (value i)) (UInt32.ofNat start) =
      UInt32.ofNat (start + (list.map value).sum) := by
  induction list generalizing start with
  | nil => rfl
  | cons i list inductionHypothesis =>
    rw [List.foldl_cons, ← UInt32.ofNat_add, inductionHypothesis, List.map_cons, List.sum_cons, Nat.add_assoc]

/-- A sum with one more term that was zero before. -/
theorem sum_range_of_ne {before after : Nat → Nat} {changed count : Nat} (below : changed < count)
    (same : ∀ i, i ≠ changed → after i = before i) (zero : before changed = 0) :
    ((List.range count).map after).sum = ((List.range count).map before).sum + after changed := by
  induction count with
  | zero => omega
  | succ count inductionHypothesis =>
    simp only [List.range_succ, List.map_append, List.sum_append, List.map_cons, List.map_nil, List.sum_cons,
      List.sum_nil]
    by_cases last : changed = count
    · subst last
      have others : (List.range changed).map after = (List.range changed).map before :=
        List.map_congr_left fun i member => same i (by have := List.mem_range.mp member; omega)
      rw [others, zero]
      lia
    · rw [inductionHypothesis (by lia), same count (Ne.symm last)]
      lia

theorem words_lt {word : Nat} (member : word ∈ words p at_ len) : word < 65536 := by
  unfold words at member
  rw [List.mem_append] at member
  obtain isWord | isLast := member
  · obtain ⟨i, _, rfl⟩ := List.mem_map.mp isWord
    exact UInt16.toNat_lt _
  · split at isLast
    · cases isLast
    · have isByte := UInt8.toNat_lt (p.bytes (at_ + 2 * (len / 2)))
      rw [List.mem_singleton.mp isLast]
      omega

theorem sum_words_lt (inside : len ≤ packlen) : (words p at_ len).sum < 65536 * 65535 := by
  have bound := List.sum_le_card_nsmul (words p at_ len) 65535 fun word member =>
    Nat.le_of_lt_succ (words_lt member)
  have length : (words p at_ len).length ≤ len / 2 + 1 := by
    unfold words
    rw [List.length_append, List.length_map, List.length_range]
    split
    · exact Nat.le_succ _
    · rfl
  have whole : packlen = 1514 := rfl
  rw [smul_eq_mul] at bound
  have product := Nat.mul_le_mul_right 65535 length
  lia

/-- The field of a checksum is one of the words, and adds its value to the sum. -/
theorem sum_stored {field : Nat} (below : field < len / 2) (isField : place = at_ + 2 * field) (cksum : UInt16) :
    (words (stored (cleared p place) place cksum) at_ len).sum =
      (words (cleared p place) at_ len).sum + cksum.toNat := by
  have other : ∀ address, address < place ∨ place + 2 ≤ address →
      (stored (cleared p place) place cksum).bytes address = (cleared p place).bytes address := by
    intro address apart
    exact copy_outside (cleared p place).bytes (fun k => byteOf cksum.toNat (1 - k)) place 2 address apart
  have value : ntohs (stored (cleared p place) place cksum).bytes place = cksum := ntohs_htons cksum
  have zero : ntohs (cleared p place).bytes place = 0 := by
    have first : (cleared p place).bytes place = byteOf 0 0 := copy_inside _ _ place 2 0 (by omega)
    have second : (cleared p place).bytes (place + 1) = byteOf 0 1 := copy_inside _ _ place 2 1 (by omega)
    unfold ntohs
    rw [first, second]
    decide
  have summed := @sum_range_of_ne (fun i => (ntohs (cleared p place).bytes (at_ + 2 * i)).toNat)
    (fun i => (ntohs (stored (cleared p place) place cksum).bytes (at_ + 2 * i)).toNat) field (len / 2) below
    (fun i differs => congrArg UInt16.toNat (ntohs_congr fun k inside => other _ (by lia)))
    (by rw [← isField, zero]; rfl)
  unfold words
  rw [List.sum_append, List.sum_append, summed, ← isField, value, other _ (by lia)]
  lia

/-- The checksum of a header is that of its words; ones stand for zero. -/
theorem toNat_ipcksum : (ipcksum p).toNat =
    if fold (words p ipvhAt ipHdrLen).sum = 0 then 0 else 65535 - fold (words p ipvhAt ipHdrLen).sum := by
  have small : (words p ipvhAt ipHdrLen).sum < 65536 * 65535 := sum_words_lt (by decide)
  have summed : (List.range 10).foldl (fun sum i => sum + (ntohs p.bytes (14 + 2 * i)).toUInt32) (0 : UInt32) =
      UInt32.ofNat (words p ipvhAt ipHdrLen).sum := by
    have whole := foldl_eq (List.range 10) (fun i => (ntohs p.bytes (14 + 2 * i)).toNat) 0
    simp only [Nat.zero_add] at whole
    have noLast : words p ipvhAt ipHdrLen = (List.range 10).map fun i => (ntohs p.bytes (14 + 2 * i)).toNat :=
      List.append_nil _
    have widened : ∀ word : UInt16, word.toUInt32 = UInt32.ofNat word.toNat := fun word =>
      (UInt32.ofNat_uInt16ToNat word).symm
    rw [noLast, ← whole]
    simp only [widened]
    rfl
  have complement := toNat_onesComplement small
  unfold ipcksum
  rw [summed]
  dsimp only
  have isOnes : onesComplement (UInt32.ofNat (words p ipvhAt ipHdrLen).sum) = 0xffff ↔
      fold (words p ipvhAt ipHdrLen).sum = 0 := by
    have ones : (0xffff : UInt32).toNat = 65535 := by decide
    have isWord : fold (words p ipvhAt ipHdrLen).sum < 65536 := Nat.mod_lt _ (by decide)
    rw [← UInt32.toNat_inj, complement, ones]
    lia
  by_cases zero : fold (words p ipvhAt ipHdrLen).sum = 0
  · rw [if_pos (isOnes.mpr zero), if_pos zero]
    rfl
  · rw [if_neg (fun ones => zero (isOnes.mp ones)), if_neg zero, UInt32.toNat_toUInt16, complement]
    lia

/-- The loop over a message adds up its words. -/
theorem icmpCksumLoop_eq (scount sptr start : Nat) (inside : scount = 0 ∨ sptr + 2 * scount ≤ packlen) :
    icmpCksumLoop p scount sptr (UInt32.ofNat start) =
      some (UInt32.ofNat (start + ((List.range scount).map fun i => (ntohs p.bytes (sptr + 2 * i)).toNat).sum),
        sptr + 2 * scount) := by
  induction scount generalizing sptr start with
  | zero => rfl
  | succ scount inductionHypothesis =>
    have word : 256 * (p.bytes sptr).toNat + (p.bytes (sptr + 1)).toNat = (ntohs p.bytes sptr).toNat := by
      have high := UInt8.toNat_lt (p.bytes sptr)
      have low := UInt8.toNat_lt (p.bytes (sptr + 1))
      exact (UInt16.toNat_ofNat_of_lt' (by have size : UInt16.size = 65536 := rfl; lia)).symm
    have next : ∀ i, sptr + 2 + 2 * i = sptr + 2 * (i + 1) := by lia
    unfold icmpCksumLoop
    rw [byte?_eq_some (by lia), byte?_eq_some (by lia), Option.bind_some, Option.bind_some, word,
      ← UInt32.ofNat_add, inductionHypothesis _ _ (by lia), List.range_succ_eq_map, List.map_cons, List.sum_cons,
      List.map_map, next, Nat.add_assoc]
    simp only [next]
    rfl

theorem icmpCksum_eq (inside : ictypeAt + len ≤ packlen) :
    (icmpCksum p len).map UInt16.toNat = some (65535 - fold (words p ictypeAt len).sum) := by
  have small : (words p ictypeAt len).sum < 65536 * 65535 := sum_words_lt (by lia)
  have half : ((len : Int) / 2).toNat = len / 2 := by lia
  have complement := toNat_onesComplement small
  have isWord : (onesComplement (UInt32.ofNat (words p ictypeAt len).sum)).toUInt16.toNat =
      65535 - fold (words p ictypeAt len).sum := by
    rw [UInt32.toNat_toUInt16, complement]
    lia
  have looped := @icmpCksumLoop_eq p (len / 2) ictypeAt 0 (by lia)
  have none_ : UInt32.ofNat 0 = 0 := rfl
  rw [none_] at looped
  unfold icmpCksum
  rw [half, looped, Option.bind_some]
  dsimp only
  by_cases even : len % 2 = 0
  · have evenInt : (len : Int) % 2 = 0 := by lia
    have noLast : words p ictypeAt len =
        (List.range (len / 2)).map fun i => (ntohs p.bytes (ictypeAt + 2 * i)).toNat := by
      unfold words
      rw [if_pos even, List.append_nil]
    rw [if_pos evenInt, Option.map_some, Option.map_some, Nat.zero_add, ← noLast, isWord]
  · have oddInt : ¬ (len : Int) % 2 = 0 := by omega
    have last : (words p ictypeAt len).sum =
        ((List.range (len / 2)).map fun i => (ntohs p.bytes (ictypeAt + 2 * i)).toNat).sum +
          (p.bytes (ictypeAt + 2 * (len / 2))).toNat * 256 := by
      unfold words
      rw [if_neg even, List.sum_append, List.sum_singleton]
    rw [if_neg oddInt, byte?_eq_some (by lia), Option.map_some, Option.map_some, Option.map_some, Nat.zero_add,
      ← UInt32.ofNat_add, ← last, isWord]

theorem checksum_eq_iff {list : List Nat} (areWords : ∀ word ∈ list, word < 65536)
    (small : list.sum < 65536 * 65535) : 65535 - fold list.sum = checksum list ↔ OneCarry list := by
  have isWord : fold list.sum < 65536 := Nat.mod_lt _ (by decide)
  have sumWord := (sum_eq areWords).1
  have folds := fold_eq_iff areWords (by omega)
  unfold OneCarry
  rw [← folds]
  unfold checksum
  lia

/-- The header passes in any case, as ones stand for zero. -/
theorem ipcksum_outIpcksum : ipcksum (outIpcksum p) = 0 := by
  have small : (ipWords p).sum < 65536 * 65535 := sum_words_lt (by decide)
  have value : (ipcksum (cleared p ipcksumAt)).toNat =
      if fold (ipWords p).sum = 0 then 0 else 65535 - fold (ipWords p).sum := toNat_ipcksum
  have summed : (words (outIpcksum p) ipvhAt ipHdrLen).sum =
      (ipWords p).sum + (ipcksum (cleared p ipcksumAt)).toNat :=
    @sum_stored p ipvhAt ipHdrLen ipcksumAt 5 (by decide) (by decide) _
  apply UInt16.toNat_inj.mp
  rw [toNat_ipcksum, summed, value]
  by_cases zero : fold (ipWords p).sum = 0
  · rw [if_pos zero, Nat.add_zero, if_pos zero]
    rfl
  · have complement := fold_add_complement small
    rw [if_neg zero, complement]
    split <;> rfl

theorem ip_verifies_iff : IpVerifies p ↔ OneCarry (ipWords p) ∧ (ipWords p).sum ≠ 0 := by
  have small : (ipWords p).sum < 65536 * 65535 := sum_words_lt (by decide)
  have areWords : ∀ word ∈ ipWords p, word < 65536 := fun word member => words_lt member
  have value : (ipcksum (cleared p ipcksumAt)).toNat =
      if fold (ipWords p).sum = 0 then 0 else 65535 - fold (ipWords p).sum := toNat_ipcksum
  have exact_ := checksum_eq_iff areWords small
  have folds := fold_eq_iff areWords (by omega)
  obtain ⟨sumWord, remainder, zeros⟩ := sum_eq areWords
  unfold IpVerifies
  rw [and_iff_left ipcksum_outIpcksum, value]
  by_cases zero : fold (ipWords p).sum = 0
  · -- ones are replaced by zero, which is right only for a sum of ones
    rw [if_pos zero]
    unfold OneCarry at *
    rw [← folds, zero]
    unfold checksum
    lia
  · rw [if_neg zero, exact_]
    refine ⟨fun oneCarry => ⟨oneCarry, fun none_ => zero ?_⟩, And.left⟩
    rw [none_]
    rfl

theorem icmp_verifies_iff (hasField : 4 ≤ len) (inside : ictypeAt + len ≤ packlen) :
    IcmpVerifies p len ↔ OneCarry (icmpWords p len) := by
  have small : (icmpWords p len).sum < 65536 * 65535 := sum_words_lt (by omega)
  have value : (icmpCksum (cleared p iccksumAt) len).map UInt16.toNat = some (65535 - fold (icmpWords p len).sum) :=
    icmpCksum_eq inside
  have exact_ := @checksum_eq_iff (icmpWords p len) (fun word member => words_lt member) small
  unfold IcmpVerifies
  rw [value, Option.some_inj, exact_]
  refine and_iff_left_of_imp fun oneCarry => ?_
  obtain ⟨cksum, isCksum, isValue⟩ := Option.map_eq_some_iff.mp value
  have summed : (words (stored (cleared p iccksumAt) iccksumAt cksum) ictypeAt len).sum =
      (icmpWords p len).sum + cksum.toNat := @sum_stored p ictypeAt len iccksumAt 1 (by lia) rfl cksum
  have complement := fold_add_complement small
  unfold OneCarry at oneCarry
  rw [if_pos oneCarry, ← isValue, ← summed] at complement
  have passes := @icmpCksum_eq (stored (cleared p iccksumAt) iccksumAt cksum) len inside
  rw [complement] at passes
  obtain ⟨result, isResult, isZero⟩ := Option.map_eq_some_iff.mp passes
  unfold outIccksum
  rw [isCksum, Option.map_some, Option.bind_some, isResult]
  exact congrArg some (UInt16.toNat_inj.mp isZero)

end Sums

/-- The checksums of a packet are right and pass just when one folding takes in all carries of their sums;
the header has, besides, some byte that is not zero. -/
theorem checksums_verify_iff (p : NetPacket) (len : Nat) (hasField : 4 ≤ len)
    (inside : ictypeAt + len ≤ packlen) :
    (IpVerifies p ↔ OneCarry (ipWords p) ∧ (ipWords p).sum ≠ 0) ∧
      (IcmpVerifies p len ↔ OneCarry (icmpWords p len)) :=
  ⟨ip_verifies_iff, icmp_verifies_iff hasField inside⟩

/-- An echo request with the identifier and the number 65535, and with two bytes of data. -/
def request : NetPacket where
  buffer := 0
  bytes := fun at_ => if at_ = 34 then 8 else if 38 ≤ at_ ∧ at_ < 42 then 255 else if at_ = 42 then 248 else 0

/-- Without its data the request passes. -/
theorem short_request_passes : IcmpVerifies request 8 ∧ OneCarry (icmpWords request 8) :=
  have oneCarry : OneCarry (icmpWords request 8) := by decide +kernel
  ⟨(checksums_verify_iff request 8 (by decide) (by decide)).2.mpr oneCarry, oneCarry⟩

/-- With its data a second carry comes of the first, and the receiver computes ones. -/
theorem request_is_refused :
    (outIccksum request 10).bind (fun out => icmpCksum out 10) = some 0xffff ∧ ¬ IcmpVerifies request 10 := by
  have refused : (outIccksum request 10).bind (fun out => icmpCksum out 10) = some 0xffff := by decide +kernel
  exact ⟨refused, fun ⟨_, passes⟩ => by cases refused.symm.trans passes⟩

end Xinu.Checksums
