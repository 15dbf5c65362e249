import Xinu.Consecutive
import Xinu.Tftp

/-!
# A download holds the file

A server answers a block number of a file with the data of that block, 512 bytes for all blocks but
the last. The network may lose, repeat, delay and reorder its answers, and may add datagrams that
are no data: whatever comes, the buffers are filled with the bytes of the file in order. The blocks
in front of the expected one are full, so that its number tells how many bytes were stored.
-/

namespace Xinu.Tftp

open CIntegers Datagrams NetworkOrder Consecutive

/-- The number of the last block of a file. -/
def lastBlock (file : List UInt8) : Nat := file.length / tftpMaxdata + 1

/-- The data of a block, counted from one. -/
def blockOf (file : List UInt8) (block : Nat) : List UInt8 :=
  (file.drop (tftpMaxdata * (block - 1))).take tftpMaxdata

/-- The memory of a datagram. -/
def bytesOf (data : List UInt8) : Memory := fun k => data.getD k 0

/-- Data with the number of a block of the file is that block. Datagrams that are too short, are no
data or have another number may hold anything. -/
def Faithful (file : List UInt8) : Received → Prop
  | .datagram data => 4 ≤ data.length → ntohs (bytesOf data) tfOpcode = tftpData →
      ∀ block, (ntohs (bytesOf data) tfDblk).toNat = block → 1 ≤ block → block ≤ lastBlock file →
        data.drop tfData = blockOf file block
  | .timeout | .syserr => True

/-- The buffers hold the first bytes of the file, one buffer after another, and nothing else was
written. -/
structure Filled (sizes : List Nat) (bufs : Nat → Memory) (file : List UInt8) (f : Filling) : Prop where
  current : f.currBufInd < sizes.length
  used : f.currUsed ≤ sizes.getD f.currBufInd 0
  position : (sizes.take f.currBufInd).sum + f.currUsed = f.filesiz
  inFile : f.filesiz ≤ file.length
  written : f.written = (List.range f.filesiz).map (place sizes)
  bytes : ∀ p < f.filesiz, f.bufs (place sizes p).1 (place sizes p).2 = bytesOf file p
  others : ∀ buf k, (buf, k) ∉ f.written → f.bufs buf k = bufs buf k

section Moving

variable {sizes : List Nat} {bufs : Nat → Memory} {file : List UInt8} {f : Filling} {inmsg : Memory}

theorem Filled.room (filled : Filled sizes bufs file f) : f.filesiz ≤ sizes.sum := by
  have position := filled.position
  have used := filled.used
  have next := sum_take_succ sizes f.currBufInd
  have whole := sum_take_le sizes (f.currBufInd + 1)
  lia

/-- A byte is stored behind those that are there. -/
theorem Filled.put (filled : Filled sizes bufs file f) {byte : UInt8} (space : f.currUsed < sizes.getD f.currBufInd 0)
    (inFile : f.filesiz < file.length) (isByte : byte = bytesOf file f.filesiz) :
    Filled sizes bufs file (f.put byte) := by
  have here : place sizes f.filesiz = (f.currBufInd, f.currUsed) := by
    rw [← filled.position]
    exact place_at sizes space
  have position := filled.position
  have next := sum_take_succ sizes f.currBufInd
  have whole := sum_take_le sizes (f.currBufInd + 1)
  refine ⟨filled.current, space, ?_, inFile, ?_, fun p below => ?_, fun buf k outside => ?_⟩
  · show (sizes.take f.currBufInd).sum + (f.currUsed + 1) = f.filesiz + 1
    lia
  · show f.written ++ [(f.currBufInd, f.currUsed)] = (List.range (f.filesiz + 1)).map (place sizes)
    rw [List.range_succ, List.map_append, List.map_singleton, here, filled.written]
  · dsimp only [Filling.put] at below ⊢
    rcases Nat.lt_succ_iff_lt_or_eq.mp below with before | rfl
    · have apart : place sizes p ≠ (f.currBufInd, f.currUsed) := by
        rw [← here]
        intro same
        have equal := @place_injective sizes _ _ (by lia) (by lia) same
        lia
      rw [← filled.bytes p before, Function.update_apply]
      split
      case isTrue sameBuf =>
        have other : (place sizes p).2 ≠ f.currUsed := fun sameOffset => apart (Prod.ext sameBuf sameOffset)
        rw [Function.update_of_ne other, sameBuf]
      case isFalse => rfl
    · rw [here]
      dsimp only
      rw [Function.update_self, Function.update_self, isByte]
  · dsimp only [Filling.put] at outside ⊢
    simp only [List.mem_append, List.mem_singleton, Prod.mk.injEq, not_or, not_and] at outside
    rw [← filled.others buf k outside.1, Function.update_apply]
    split
    case isTrue sameBuf => rw [Function.update_of_ne (outside.2 sameBuf), sameBuf]
    case isFalse => rfl

/-- The next buffer is begun when one is full. -/
theorem Filled.advance (filled : Filled sizes bufs file f) (full : sizes.getD f.currBufInd 0 ≤ f.currUsed)
    (more : f.currBufInd + 1 < sizes.length) :
    Filled sizes bufs file { f with currBufInd := f.currBufInd + 1, currUsed := 0 } := by
  refine ⟨more, Nat.zero_le _, ?_, filled.inFile, filled.written, filled.bytes, filled.others⟩
  have position := filled.position
  have used := filled.used
  have next := sum_take_succ sizes f.currBufInd
  show (sizes.take (f.currBufInd + 1)).sum + 0 = f.filesiz
  lia

/-- A block is moved into the buffers, or as much of it as there is room for. The induction is on the
bytes that are left. -/
theorem Filled.moveLoop (positive : ∀ size ∈ sizes, 0 < size) (left i : Nat) (filled : Filled sizes bufs file f)
    (fits : f.filesiz + left ≤ file.length)
    (isBlock : ∀ k < left, inmsg (tfData + (i + k)) = bytesOf file (f.filesiz + k)) :
    ∃ full after, moveLoop sizes inmsg left i f = (full, after) ∧ Filled sizes bufs file after ∧
      if full then after.filesiz = sizes.sum else after.filesiz = f.filesiz + left := by
  induction left generalizing i f with
  | zero => exact ⟨false, f, rfl, filled, rfl⟩
  | succ left inductionHypothesis =>
    have first : inmsg (tfData + i) = bytesOf file f.filesiz := isBlock 0 (by lia)
    have rest : ∀ k < left, inmsg (tfData + (i + 1 + k)) = bytesOf file (f.filesiz + 1 + k) := by
      intro k below
      have byte := isBlock (k + 1) (by omega)
      rwa [show i + (k + 1) = i + 1 + k by lia, show f.filesiz + (k + 1) = f.filesiz + 1 + k by lia] at byte
    unfold Tftp.moveLoop
    by_cases space : f.currUsed < sizes.getD f.currBufInd 0
    · rw [if_pos space]
      obtain ⟨full, after, result, filledAfter, length⟩ := inductionHypothesis (f := f.put (inmsg (tfData + i)))
        (i + 1) (filled.put space (by omega) first) (by show f.filesiz + 1 + left ≤ _; lia) rest
      refine ⟨full, after, result, filledAfter, ?_⟩
      have count : (f.put (inmsg (tfData + i))).filesiz = f.filesiz + 1 := rfl
      cases full with
      | true => exact length
      | false =>
        rw [if_neg Bool.false_ne_true] at length ⊢
        lia
    rw [if_neg space]
    by_cases last : sizes.length ≤ f.currBufInd + 1
    · -- all buffers are full
      rw [if_pos last]
      refine ⟨true, f, rfl, filled, ?_⟩
      have position := filled.position
      have used := filled.used
      have next := sum_take_succ sizes f.currBufInd
      rw [List.take_of_length_le last] at next
      rw [if_pos rfl]
      lia
    · rw [if_neg last]
      have advanced := filled.advance (by omega) (by lia)
      have inside : f.currBufInd + 1 < sizes.length := by omega
      have nonempty : 0 < sizes.getD (f.currBufInd + 1) 0 := by
        rw [List.getD_eq_getElem sizes 0 inside]
        exact positive _ (List.getElem_mem inside)
      obtain ⟨full, after, result, filledAfter, length⟩ := inductionHypothesis
        (f := { f with currBufInd := f.currBufInd + 1, currUsed := 0 }.put (inmsg (tfData + i)))
        (i + 1) (advanced.put nonempty (by dsimp only; omega) first)
        (by show f.filesiz + 1 + left ≤ _; omega) rest
      refine ⟨full, after, result, filledAfter, ?_⟩
      have count : ({ f with currBufInd := f.currBufInd + 1, currUsed := 0 }.put (inmsg (tfData + i))).filesiz =
        f.filesiz + 1 := rfl
      cases full with
      | true => exact length
      | false =>
        rw [if_neg Bool.false_ne_true] at length ⊢
        lia

end Moving

/-- An answer to a request: a datagram that came, with the expected block, and that lies in the message
buffer. -/
def Answered (arrivals : List Received) (expected : UInt16) (n : Nat) (inmsg : Memory) : Prop :=
  ∃ data, .datagram data ∈ arrivals ∧ 4 ≤ data.length ∧ n = min tftpMsgSize data.length ∧
    ntohs (bytesOf data) tfOpcode = tftpData ∧ ntohs (bytesOf data) tfDblk = expected ∧
    ∀ k < n, inmsg k = bytesOf data k

section Requests

variable {expected : UInt16} {arrivals : List Received} {n : Nat} {inmsg : Memory}

theorem Answered.mono {more : List Received} (answered : Answered arrivals expected n inmsg)
    (inside : arrivals <:+ more) : Answered more expected n inmsg := by
  obtain ⟨data, member, rest⟩ := answered
  exact ⟨data, inside.subset member, rest⟩

/-- A field of a datagram that was stored. -/
theorem ntohs_store {data : List UInt8} {at_ : Nat} (inside : at_ + 2 ≤ min tftpMsgSize data.length) :
    ntohs (store inmsg tftpMsgSize data) at_ = ntohs (bytesOf data) at_ := by
  refine ntohs_congr fun k below => ?_
  rw [store_inside inmsg (by lia) (by lia : at_ + k < data.length)]
  exact (List.getD_eq_getElem data 0 _).symm

/-- `tftp_send1` takes something that came, and has the expected block when it returns a length. -/
theorem tftpSend1Loop_answer (expected : UInt16) (inmsg : Memory) (arrivals : List Received) {length : Int}
    {inmsg' : Memory} {rest : List Received}
    (result : tftpSend1Loop expected inmsg arrivals = some (length, inmsg', rest)) :
    rest <:+ arrivals ∧ (0 < length → Answered arrivals expected length.toNat inmsg') := by
  fun_induction tftpSend1Loop expected inmsg arrivals with
  | case1 => cases result
  | case2 inmsg tail =>
    cases result
    exact ⟨List.suffix_cons _ _, fun positive => absurd positive (by decide)⟩
  | case3 inmsg tail =>
    cases result
    exact ⟨List.suffix_cons _ _, fun positive => absurd positive (by decide)⟩
  | case4 inmsg data tail n stored short inductionHypothesis =>
    obtain ⟨suffix, answer⟩ := inductionHypothesis result
    have longer := suffix.trans (List.suffix_cons (.datagram data) tail)
    exact ⟨longer, fun positive => (answer positive).mono (List.suffix_cons _ _)⟩
  | case5 inmsg data tail n stored long isError =>
    simp only [Option.some.injEq, Prod.mk.injEq] at result
    obtain ⟨rfl, _, rfl⟩ := result
    exact ⟨List.suffix_cons _ _, fun positive => absurd positive (by decide)⟩
  | case6 inmsg data tail n stored long notError isBlock =>
    simp only [Option.some.injEq, Prod.mk.injEq] at result
    obtain ⟨rfl, isStored, rfl⟩ := result
    have enough : 4 ≤ min tftpMsgSize data.length := Nat.le_of_not_lt long
    refine ⟨List.suffix_cons _ _, fun _ => ⟨data, List.mem_cons_self, by lia, Int.toNat_natCast _, ?_, ?_,
      fun k below => ?_⟩⟩
    · rw [← @ntohs_store inmsg _ _ (Nat.le_trans (by decide) enough)]
      exact isBlock.1
    · rw [← @ntohs_store inmsg _ _ (Nat.le_trans (by decide) enough)]
      exact isBlock.2
    · rw [Int.toNat_natCast] at below
      rw [← isStored]
      exact (store_inside inmsg (by lia) (by lia)).trans (List.getD_eq_getElem data 0 (by omega)).symm
  | case7 inmsg data tail n stored long notError other inductionHypothesis =>
    obtain ⟨suffix, answer⟩ := inductionHypothesis result
    have longer := suffix.trans (List.suffix_cons (.datagram data) tail)
    exact ⟨longer, fun positive => (answer positive).mono (List.suffix_cons _ _)⟩

/-- A message that is answered. -/
theorem requestLoop_answer (msg : Outmsg) (expected : UInt16) (turns : Nat) {inmsg inmsg' : Memory}
    {net net' : Net} {answer : Option Nat}
    (result : requestLoop msg expected turns inmsg net = some (answer, inmsg', net')) :
    net'.arrivals <:+ net.arrivals ∧ ∀ n, answer = some n → Answered net.arrivals expected n inmsg' := by
  induction turns generalizing inmsg net with
  | zero =>
    cases result
    exact ⟨List.suffix_refl _, fun n isSome => by cases isSome⟩
  | succ turns inductionHypothesis =>
    obtain ⟨⟨length, inmsg₁, net₁⟩, sent, continued⟩ := Option.bind_eq_some_iff.mp result
    have first : net₁.arrivals <:+ net.arrivals ∧
        (0 < length → Answered net.arrivals expected length.toNat inmsg₁) := by
      unfold tftpSend1 udpSendto at sent
      dsimp only at sent
      split at sent
      · cases sent
        exact ⟨List.suffix_refl _, fun positive => absurd positive (by decide)⟩
      · obtain ⟨⟨length', inmsg₂, rest⟩, looped, same⟩ := Option.map_eq_some_iff.mp sent
        cases same
        exact tftpSend1Loop_answer expected inmsg net.arrivals looped
    dsimp only at continued
    split at continued
    case isTrue positive =>
      cases continued
      refine ⟨first.1, fun n isSome => ?_⟩
      cases isSome
      exact first.2 positive
    case isFalse =>
      split at continued
      · cases continued
        exact ⟨first.1, fun n isSome => by cases isSome⟩
      · obtain ⟨suffix, later⟩ := inductionHypothesis continued
        exact ⟨suffix.trans first.1, fun n isSome => (later n isSome).mono first.1⟩

end Requests

/-- The bytes of a block are bytes of the file. -/
theorem byte_of_block {file data : List UInt8} {block k : Nat} (isBlock : data.drop tfData = blockOf file block)
    (inside : k < tftpMaxdata) : bytesOf data (tfData + k) = bytesOf file (tftpMaxdata * (block - 1) + k) := by
  have same : (data.drop tfData)[k]? = (blockOf file block)[k]? := by rw [isBlock]
  rw [List.getElem?_drop, blockOf, List.getElem?_take_of_lt inside, List.getElem?_drop] at same
  unfold bytesOf
  rw [List.getD_eq_getElem?_getD, List.getD_eq_getElem?_getD, same]

/-- A download that has no more than the bytes in front of the expected block returns the number of
bytes that it stored: as many as the file has, or as there is room for. The induction is on the blocks
that are left. -/
theorem blockLoop_fills {sizes : List Nat} {bufs : Nat → Memory} {file : List UInt8}
    (positive : ∀ size ∈ sizes, 0 < size) (few : lastBlock file < 2 ^ 16) (turns : Nat) {msg : Outmsg}
    {expected : UInt16} {inmsg : Memory} {f f' : Filling} {net net' : Net} {r : Int}
    (filled : Filled sizes bufs file f) (first : 1 ≤ expected.toNat) (last : expected.toNat ≤ lastBlock file)
    (whole : f.filesiz = tftpMaxdata * (expected.toNat - 1))
    (faithful : ∀ arrival ∈ net.arrivals, Faithful file arrival)
    (result : blockLoop sizes turns msg expected inmsg f net = some (r, f', net')) (returned : 0 ≤ r) :
    Filled sizes bufs file f' ∧ r = f'.filesiz ∧ f'.filesiz = min file.length sizes.sum := by
  induction turns generalizing msg expected inmsg f net with
  | zero => cases result
  | succ turns inductionHypothesis =>
    obtain ⟨⟨answer, inmsg₁, net₁⟩, requested, continued⟩ := Option.bind_eq_some_iff.mp result
    obtain ⟨suffix, answered⟩ := requestLoop_answer msg expected tftpMaxretries requested
    cases answer with
    | none =>
      cases continued
      exact absurd returned (by decide)
    | some n =>
      obtain ⟨data, member, long, length, isData, isExpected, inBuffer⟩ := answered n rfl
      have block : data.drop tfData = blockOf file expected.toNat :=
        faithful _ member long isData _ (congrArg UInt16.toNat isExpected) first last
      have inFile := filled.inFile
      have blockLength : data.length - 4 = min tftpMaxdata (file.length - f.filesiz) := by
        have lengths := congrArg List.length block
        rw [List.length_drop, blockOf, List.length_take, List.length_drop, ← whole] at lengths
        exact lengths
      have dlen : n - tfData = min tftpMaxdata (file.length - f.filesiz) := by
        unfold tftpMsgSize tfData tftpMaxdata at *
        lia
      have isBlock : ∀ k < n - tfData, inmsg₁ (tfData + (0 + k)) = bytesOf file (f.filesiz + k) := by
        intro k below
        have inside : tfData + k < n := by lia
        rw [Nat.zero_add, inBuffer _ inside, byte_of_block block (by lia), whole]
      obtain ⟨full, after, moved, filledAfter, size⟩ :=
        filled.moveLoop positive (n - tfData) 0 (by lia) isBlock
      have room := filledAfter.room
      have atMost := filledAfter.inFile
      dsimp only at continued
      rw [moved] at continued
      dsimp only at continued
      cases full with
      | true =>
        cases continued
        refine ⟨filledAfter, rfl, ?_⟩
        rw [if_pos rfl] at size
        lia
      | false =>
        rw [if_neg Bool.false_ne_true] at size
        rw [if_neg Bool.false_ne_true] at continued
        split at continued
        case isTrue short =>
          -- the last block
          split at continued
          · cases continued
            exact absurd returned (by decide)
          · cases continued
            refine ⟨filledAfter, rfl, ?_⟩
            lia
        case isFalse long =>
          -- a full block, so that there is another one
          have isWhole : tftpMaxdata * expected.toNat ≤ file.length := by
            unfold tftpMaxdata at *
            lia
          have another : expected.toNat + 1 ≤ lastBlock file := by
            unfold lastBlock tftpMaxdata at *
            lia
          have next : (expected + 1).toNat = expected.toNat + 1 := by
            rw [UInt16.toNat_add]
            exact Nat.mod_eq_of_lt (by show expected.toNat + 1 < 2 ^ 16; lia)
          refine inductionHypothesis filledAfter (by lia) (by lia) ?_
            (fun arrival inside => faithful arrival (suffix.subset inside)) continued
          unfold tftpMaxdata at *
          rw [next]
          lia

/-- A download that returns a length has stored the first bytes of the file into the buffers, one
buffer after another, each byte once and in order: all bytes of the file, or as many as there is room
for. Nothing else was written, and nothing past the size of a buffer. -/
theorem download_is_faithful (file : List UInt8) (few : lastBlock file < 2 ^ 16) (q : Request)
    (bufs : Nat → Memory) (inmsg : Memory) (net net' : Net)
    (faithful : ∀ arrival ∈ net.arrivals, Faithful file arrival) (r : Int) (f : Filling)
    (result : tftpgetMb q bufs inmsg net = some (r, f, net')) (returned : 0 ≤ r) :
    let sizes := q.rcvBufs.map (·.getD 0)
    r = min file.length sizes.sum ∧
    f.written = (List.range r.toNat).map (place sizes) ∧
    (∀ p < r.toNat, file[p]? = some (f.bufs (place sizes p).1 (place sizes p).2)) ∧
    (∀ buf k, (buf, k) ∉ f.written → f.bufs buf k = bufs buf k) ∧
    ∀ buf k, (buf, k) ∈ f.written → buf < sizes.length ∧ k < sizes.getD buf 0 := by
  have started : ∃ filename turns, (∀ size ∈ q.rcvBufs.map (·.getD 0), 0 < size) ∧ q.rcvBufs ≠ [] ∧
      blockLoop (q.rcvBufs.map (·.getD 0)) turns (.rrq filename) 1 inmsg ⟨bufs, 0, 0, 0, []⟩ net =
        some (r, f, net') := by
    unfold tftpgetMb at result
    dsimp only at result
    split at result
    · cases result
      exact absurd returned (by decide)
    · rename_i filename _
      by_cases bad : q.serverip = 0 ∨ q.rcvBufs = []
      · rw [if_pos bad] at result
        cases result
        exact absurd returned (by decide)
      rw [if_neg bad] at result
      by_cases empty : ∃ buf ∈ q.rcvBufs, buf.getD 0 = 0
      · rw [if_pos empty] at result
        cases result
        exact absurd returned (by decide)
      rw [if_neg empty] at result
      have sizes : ∀ size ∈ q.rcvBufs.map (·.getD 0), 0 < size := by
        intro size member
        obtain ⟨buf, inside, rfl⟩ := List.mem_map.mp member
        exact Nat.pos_of_ne_zero fun zero => empty ⟨buf, inside, zero⟩
      split at result
      · cases result
        exact absurd returned (by decide)
      split at result
      · cases result
        exact absurd returned (by decide)
      split at result
      · cases result
        exact absurd returned (by decide)
      exact ⟨filename, _, sizes, fun none_ => bad (Or.inr none_), result⟩
  obtain ⟨filename, turns, positive, some_, looped⟩ := started
  have begun : Filled (q.rcvBufs.map (·.getD 0)) bufs file ⟨bufs, 0, 0, 0, []⟩ := by
    refine ⟨?_, Nat.zero_le _, rfl, Nat.zero_le _, rfl, fun p below => absurd below (Nat.not_lt_zero p),
      fun _ _ _ => rfl⟩
    rw [List.length_map]
    exact List.length_pos_of_ne_nil some_
  obtain ⟨filled, isLength, length⟩ := blockLoop_fills positive few turns begun (by decide)
    (Nat.le_add_left 1 _) rfl faithful looped returned
  have count : r.toNat = f.filesiz := by lia
  refine ⟨by lia, ?_, fun p below => ?_, filled.others, fun buf k member => ?_⟩
  · rw [count]
    exact filled.written
  · rw [count] at below
    have inFile : p < file.length := Nat.lt_of_lt_of_le below filled.inFile
    rw [filled.bytes p below, List.getElem?_eq_getElem inFile]
    exact congrArg some (List.getD_eq_getElem file 0 inFile).symm
  · rw [filled.written] at member
    obtain ⟨p, below, isPlace⟩ := List.mem_map.mp member
    have room := filled.room
    have inside := @place_inside (q.rcvBufs.map (·.getD 0)) p
      (by have := List.mem_range.mp below; lia)
    rw [isPlace] at inside
    exact inside

/-- Three bytes are stored into buffers of two bytes: nothing comes at first, then a datagram that is
too short, then the block, and then the block again. -/
theorem three_bytes_are_stored :
    let q : Request := ⟨1, some ⟨[97], by decide⟩, [some 2, some 2], true, true⟩
    let net : Net := ⟨fun _ => true, [], [.timeout, .datagram [0], .datagram [0, 3, 0, 1, 7, 8, 9],
      .datagram [0, 3, 0, 1, 7, 8, 9]]⟩
    ∃ f net', tftpgetMb q (fun _ _ => 0) (fun _ => 0) net = some (3, f, net') ∧
      f.written = [(0, 0), (0, 1), (1, 0)] ∧ f.bufs 1 0 = 9 := by
  intro q net
  have returned : (tftpgetMb q (fun _ _ => 0) (fun _ => 0) net).map (·.1) = some 3 := by decide +kernel
  obtain ⟨⟨r, f, net'⟩, result, isThree⟩ := Option.map_eq_some_iff.mp returned
  cases (isThree : r = 3)
  have faithful : ∀ arrival ∈ net.arrivals, Faithful [7, 8, 9] arrival := by
    intro arrival member
    simp only [net, List.mem_cons, List.not_mem_nil, or_false] at member
    rcases member with rfl | rfl | rfl | rfl
    · trivial
    · intro long
      exact absurd long (by decide)
    all_goals
      rintro _ _ block rfl _ _
      decide
  obtain ⟨_, written, bytes, _⟩ := download_is_faithful [7, 8, 9] (by decide) q _ _ net net' faithful 3 f result
    (by decide)
  refine ⟨f, net', result, written, ?_⟩
  exact (Option.some.inj (bytes 2 (by decide))).symm

end Xinu.Tftp
