import Xinu.Datagrams
import Xinu.NetworkOrder
import Xinu.Runs

/-!
# Exchanges with the remote disk server

`rdscomm` numbers a request, sends it at most three times and waits for a reply after each time.
Every answer of the network is possible: a copy cannot be sent, nothing comes in time, or a
datagram comes, with any contents. A datagram is stored over the front of the reply buffer, so that
a short one leaves there what came before it.

The sister implementation `rfscomm` goes on with the next turn when the number of a reply is not the
number of the request. `rdscomm` does so for greater numbers only.
-/

namespace Xinu.RdsExchange

open CIntegers Datagrams NetworkOrder Runs

/-- `RD_RETRIES`. -/
def rdRetries : Nat := 3

/-- `RD_MSG_RESPONSE`. -/
def rdMsgResponse : UInt16 := 0x0100

/-- `SYSERR`, `OK` and `TIMEOUT`, as what `rdscomm` returns. -/
def syserr : Int := -1

def ok : Int := 1

def timeout : Int := -3

/-- The places of `rd_type`, `rd_status` and `rd_seq` in a message. -/
def rdType : Nat := 0

def rdStatus : Nat := 2

def rdSeq : Nat := 4

/-- The network in the turns of one exchange. -/
structure Network where
  sent : Nat → Bool
  received : Nat → Received

/-- The fields of `struct rdscblk` that `rdscomm` uses. -/
structure Rdscblk where
  rdSeq : Int32
  rdRegistered : Bool
  rdUdpslot : Int

/-- A call of `rdscomm`: its message and its reply buffer, `NetData.ipvalid`, whether `getlocalip`
and `udp_register` succeed, and the network. -/
structure Call where
  msg : Memory
  reply : Memory
  rlen : Nat
  ipvalid : Bool
  localip : Bool
  slot : Int
  network : Network

/-- What a call leaves: its value, the message that it sent and the reply buffer. -/
structure Outcome where
  retval : Int
  msg : Memory
  reply : Memory

/-- `rtype != ( ntohs(msg->rd_type) | RD_MSG_RESPONSE )`, where `rtype` has a sign. -/
def otherType (msg reply : Memory) : Bool :=
  (ntohs reply rdType).toInt16.toInt ≠ (ntohs msg rdType ||| rdMsgResponse).toNat

/-- The loop of `rdscomm`. -/
def rdscommLoop (n : Network) (seq : Int32) (msg : Memory) (rlen : Nat) :
    Nat → Nat → Bool → Memory → Int × Memory
  | 0, _, _, reply => (timeout, reply)
  | turns + 1, i, xmit, reply =>
    if xmit && !n.sent i then (syserr, reply)
    else match n.received i with
      | .timeout => rdscommLoop n seq msg rlen turns (i + 1) true reply
      | .syserr => (syserr, reply)
      | .datagram data =>
        let reply := store reply rlen data
        -- a smaller number turns the next copy off, and the checks below go on
        let xmit := !decide (ntohl reply rdSeq < seq.toUInt32)
        if xmit && decide (ntohl reply rdSeq ≠ seq.toUInt32) then
          rdscommLoop n seq msg rlen turns (i + 1) true reply
        else if otherType msg reply then rdscommLoop n seq msg rlen turns (i + 1) xmit reply
        else if ntohs reply rdStatus ≠ 0 then (syserr, reply)
        else (ok, reply)

/-- `rdscomm`. -/
def rdscomm (rdptr : Rdscblk) (c : Call) : Outcome × Rdscblk :=
  if !rdptr.rdRegistered && decide (c.slot = syserr) then (⟨syserr, c.msg, c.reply⟩, rdptr)
  else
    let rdptr := if rdptr.rdRegistered then rdptr else
      { rdptr with rdUdpslot := c.slot, rdRegistered := true }
    if !c.ipvalid && !c.localip then (⟨syserr, c.msg, c.reply⟩, rdptr)
    else
      let seq := rdptr.rdSeq
      let msg := htonl c.msg rdSeq seq.toUInt32
      let (retval, reply) := rdscommLoop c.network seq msg c.rlen rdRetries 0 true c.reply
      (⟨retval, msg, reply⟩, { rdptr with rdSeq := seq + 1 })

/-- One call on the device. -/
def step (rdptr : Rdscblk) (c : Call) : Option (Outcome × Rdscblk) := some (rdscomm rdptr c)

/-- The device as `rdsinit` leaves it. -/
def rdsinit : Rdscblk := ⟨1, false, 0⟩

/-- A reply has the number that is in the request, and the response type of the request. -/
def Matches (o : Outcome) : Prop :=
  ntohl o.reply rdSeq = ntohl o.msg rdSeq ∧ ntohs o.reply rdType = ntohs o.msg rdType ||| rdMsgResponse

/-- The reply buffer when so many turns are over. -/
def Call.held (c : Call) : Nat → Memory
  | 0 => c.reply
  | i + 1 => match c.network.received i with
    | .datagram data => store (c.held i) c.rlen data
    | .timeout | .syserr => c.held i

/-- A datagram comes in a turn. -/
def Call.Comes (c : Call) (i : Nat) : Prop := ∃ data, c.network.received i = .datagram data

/-- A reply with a smaller number comes in a turn. -/
def Call.Late (c : Call) (seq : UInt32) (i : Nat) : Prop :=
  c.Comes i ∧ ntohl (c.held (i + 1)) rdSeq < seq

/-- A copy of the request is due in a turn. -/
def Call.Sends (c : Call) (seq : UInt32) : Nat → Prop
  | 0 => True
  | i + 1 => ¬ c.Late seq i

/-- A reply of the response type comes in a turn. -/
def Call.Answers (c : Call) (i : Nat) : Prop :=
  c.Comes i ∧ otherType c.msg (c.held (i + 1)) = false

/-- The exchange is over with a turn: the copy cannot be sent, `udp_recv` fails, or a reply of the
response type comes that has no greater number. -/
def Call.Over (c : Call) (seq : UInt32) (i : Nat) : Prop :=
  (c.Sends seq i ∧ c.network.sent i = false) ∨ c.network.received i = .syserr ∨
    (c.Answers i ∧ ntohl (c.held (i + 1)) rdSeq ≤ seq)

/-- A turn in which a reply to an earlier request comes that looks like the one waited for: it has a
smaller number, the response type of the request and status zero. -/
def Call.Stale (c : Call) (seq : UInt32) (i : Nat) : Prop :=
  (c.Sends seq i → c.network.sent i = true) ∧ c.Late seq i ∧ c.Answers i ∧
    ntohs (c.held (i + 1)) rdStatus = 0

/-- The exchange is begun. -/
def Begins (rdptr : Rdscblk) (c : Call) : Prop :=
  (rdptr.rdRegistered = true ∨ c.slot ≠ syserr) ∧ (c.ipvalid = true ∨ c.localip = true)

/-- No such reply comes before the exchange is over. -/
def Clean (rdptr : Rdscblk) (c : Call) : Prop :=
  Begins rdptr c → ∀ i < rdRetries, (∀ j < i, ¬ c.Over rdptr.rdSeq.toUInt32 j) →
    ¬ c.Stale rdptr.rdSeq.toUInt32 i

/-- The first turns of an exchange hold no such reply, or those before it end the exchange. -/
def Call.CleanFrom (c : Call) (seq : UInt32) (first turns : Nat) : Prop :=
  ∀ i, first ≤ i → i < first + turns → (∀ j, first ≤ j → j < i → ¬ c.Over seq j) → ¬ c.Stale seq i

section Turns

variable {c : Call} {seq : UInt32} {i turns : Nat} {data : List UInt8}

/-- A turn and those behind it. -/
theorem cleanFrom_succ : c.CleanFrom seq i (turns + 1) ↔
    ¬ c.Stale seq i ∧ (¬ c.Over seq i → c.CleanFrom seq (i + 1) turns) := by
  constructor
  · intro clean
    refine ⟨clean i (le_refl i) (by lia) fun j after before => absurd before (by omega),
      fun goesOn k after before isOver => clean k (by omega) (by omega) fun j first below => ?_⟩
    rcases eq_or_lt_of_le first with rfl | later
    · exact goesOn
    · exact isOver j later below
  · rintro ⟨here, behind⟩ k after before isOver
    rcases eq_or_lt_of_le after with rfl | later
    · exact here
    · exact behind (isOver i (le_refl i) later) k later (by omega) fun j first below =>
        isOver j (by lia) below

/-- A turn with which the exchange is over, not by a reply to an earlier request. -/
theorem cleanFrom_over (isOver : c.Over seq i) (fresh : ¬ c.Stale seq i) : c.CleanFrom seq i (turns + 1) :=
  cleanFrom_succ.mpr ⟨fresh, fun goesOn => absurd isOver goesOn⟩

/-- A turn after which the exchange goes on. -/
theorem cleanFrom_goesOn (goesOn : ¬ c.Over seq i) (fresh : ¬ c.Stale seq i) :
    c.CleanFrom seq i (turns + 1) ↔ c.CleanFrom seq (i + 1) turns :=
  cleanFrom_succ.trans ⟨fun both => both.2 goesOn, fun rest => ⟨fresh, fun _ => rest⟩⟩

theorem held_datagram (comes : c.network.received i = .datagram data) :
    c.held (i + 1) = store (c.held i) c.rlen data := by
  show (match c.network.received i with
    | .datagram data => store (c.held i) c.rlen data
    | .timeout | .syserr => c.held i) = _
  rw [comes]

theorem comes_iff (comes : c.network.received i = .datagram data) (P : Prop) : c.Comes i ∧ P ↔ P :=
  and_iff_right ⟨data, comes⟩

/-- Nothing that comes is stale. -/
theorem not_stale_of_nothing (nothing : ¬ c.Comes i) : ¬ c.Stale seq i := fun stale =>
  nothing stale.2.1.1

/-- A loop that returns `OK` has a reply with the number of the request. -/
def Right (seq : UInt32) (result : Int × Memory) : Prop := result.1 = ok → ntohl result.2 rdSeq = seq

theorem right_of_ne {reply : Memory} {retval : Int} (failed : retval ≠ ok) : Right seq (retval, reply) :=
  fun returned => absurd returned failed

/-- The loop from a turn on returns `OK` with the wrong reply just when a reply to an earlier request
comes first. The induction is on the turns that are left. -/
theorem rdscommLoop_right (c : Call) (seq : Int32) (msg : Memory)
    (sameType : ∀ reply, otherType msg reply = otherType c.msg reply) (turns i : Nat) (xmit : Bool)
    (sends : xmit = true ↔ c.Sends seq.toUInt32 i) :
    Right seq.toUInt32 (rdscommLoop c.network seq msg c.rlen turns i xmit (c.held i)) ↔
      c.CleanFrom seq.toUInt32 i turns := by
  induction turns generalizing i xmit with
  | zero =>
    refine iff_of_true (right_of_ne (by decide)) fun k after before => ?_
    omega
  | succ turns inductionHypothesis =>
    unfold rdscommLoop
    by_cases unsent : (xmit && !c.network.sent i) = true
    · -- the copy cannot be sent
      rw [if_pos unsent]
      obtain ⟨isDue, fails⟩ : xmit = true ∧ c.network.sent i = false := by simpa using unsent
      refine iff_of_true (right_of_ne (by decide)) (cleanFrom_over (Or.inl ⟨sends.mp isDue, fails⟩) ?_)
      intro stale
      rw [stale.1 (sends.mp isDue)] at fails
      cases fails
    rw [if_neg unsent]
    have delivered : c.Sends seq.toUInt32 i → c.network.sent i = true := by
      intro due
      simpa [sends.mpr due] using unsent
    have goesOut : ¬ (c.Sends seq.toUInt32 i ∧ c.network.sent i = false) := by
      rintro ⟨due, fails⟩
      rw [delivered due] at fails
      cases fails
    cases comes : c.network.received i with
    | timeout =>
      have nothing : ¬ c.Comes i := by simp [Call.Comes, comes]
      have same : c.held (i + 1) = c.held i := by simp [Call.held, comes]
      have goesOn : ¬ c.Over seq.toUInt32 i := by
        rintro (out | fails | ⟨answers, _⟩)
        · exact goesOut out
        · rw [comes] at fails
          cases fails
        · exact nothing answers.1
      rw [cleanFrom_goesOn goesOn (not_stale_of_nothing nothing), ← inductionHypothesis (i + 1) true, same]
      exact iff_of_true rfl fun late => nothing late.1
    | syserr =>
      have nothing : ¬ c.Comes i := by simp [Call.Comes, comes]
      exact iff_of_true (right_of_ne (by decide))
        (cleanFrom_over (Or.inr (Or.inl comes)) (not_stale_of_nothing nothing))
    | datagram data =>
      have stored := held_datagram comes
      have late : c.Late seq.toUInt32 i ↔ ntohl (store (c.held i) c.rlen data) rdSeq < seq.toUInt32 := by
        unfold Call.Late
        rw [stored]
        exact comes_iff comes _
      have answers : c.Answers i ↔ otherType c.msg (store (c.held i) c.rlen data) = false := by
        unfold Call.Answers
        rw [stored]
        exact comes_iff comes _
      have isOver : c.Over seq.toUInt32 i ↔ otherType c.msg (store (c.held i) c.rlen data) = false ∧
          ntohl (store (c.held i) c.rlen data) rdSeq ≤ seq.toUInt32 := by
        unfold Call.Over
        rw [answers, stored, comes]
        simp only [goesOut, reduceCtorEq, false_or]
      have stale : c.Stale seq.toUInt32 i ↔
          ntohl (store (c.held i) c.rlen data) rdSeq < seq.toUInt32 ∧
          otherType c.msg (store (c.held i) c.rlen data) = false ∧
          ntohs (store (c.held i) c.rlen data) rdStatus = 0 := by
        unfold Call.Stale
        rw [late, answers, stored]
        exact and_iff_right delivered
      have next := fun xmit => inductionHypothesis (i + 1) xmit
      rw [stored] at next
      dsimp only
      rw [sameType]
      generalize store (c.held i) c.rlen data = reply at *
      by_cases greater : seq.toUInt32 < ntohl reply rdSeq
      · -- a greater number: the next turn
        have notLess : ¬ ntohl reply rdSeq < seq.toUInt32 := UInt32.lt_asymm greater
        have different : ntohl reply rdSeq ≠ seq.toUInt32 := (UInt32.ne_of_lt greater).symm
        have goesOn : ¬ c.Over seq.toUInt32 i := fun ends =>
          absurd greater (UInt32.not_lt.mpr (isOver.mp ends).2)
        rw [if_pos (by simp [notLess, different]), cleanFrom_goesOn goesOn fun isStale =>
          notLess (stale.mp isStale).1]
        exact next true (iff_of_true rfl fun isLate => notLess (late.mp isLate))
      have atMost : ntohl reply rdSeq ≤ seq.toUInt32 := UInt32.not_lt.mp greater
      rw [if_neg (by
        simp only [Bool.and_eq_true, Bool.not_eq_true', decide_eq_false_iff_not, decide_eq_true_eq, not_and,
          not_not]
        exact fun notLess => UInt32.le_antisymm atMost (UInt32.not_lt.mp notLess))]
      by_cases mismatch : otherType c.msg reply = true
      · -- another type: the next turn, with a copy or without
        rw [if_pos mismatch, cleanFrom_goesOn (by simp [isOver, mismatch]) (by simp [stale, mismatch])]
        refine next _ ?_
        show _ ↔ ¬ c.Late seq.toUInt32 i
        rw [late]
        simp
      have isType : otherType c.msg reply = false := by simpa using mismatch
      rw [if_neg mismatch]
      by_cases status : ntohs reply rdStatus = 0
      · rw [if_neg (not_not.mpr status)]
        by_cases less : ntohl reply rdSeq < seq.toUInt32
        · -- a smaller number is accepted
          refine iff_of_false (fun right => ?_) fun clean => (cleanFrom_succ.mp clean).1 ?_
          · exact UInt32.ne_of_lt less (right rfl)
          · exact stale.mpr ⟨less, isType, status⟩
        · have equal : ntohl reply rdSeq = seq.toUInt32 := UInt32.le_antisymm atMost (UInt32.not_lt.mp less)
          exact iff_of_true (fun _ => equal)
            (cleanFrom_over (isOver.mpr ⟨isType, atMost⟩) fun isStale => less (stale.mp isStale).1)
      · rw [if_pos status]
        exact iff_of_true (right_of_ne (by decide))
          (cleanFrom_over (isOver.mpr ⟨isType, atMost⟩) fun isStale => status (stale.mp isStale).2.2)

/-- What a loop returns with `OK` has the response type of the request. -/
theorem rdscommLoop_type (n : Network) (seq : Int32) (msg : Memory) (rlen turns i : Nat) (xmit : Bool)
    (reply : Memory) (returned : (rdscommLoop n seq msg rlen turns i xmit reply).1 = ok) :
    otherType msg (rdscommLoop n seq msg rlen turns i xmit reply).2 = false := by
  fun_induction rdscommLoop n seq msg rlen turns i xmit reply with
  | case1 => exact absurd returned (by decide : timeout ≠ ok)
  | case2 => exact absurd returned (by decide : syserr ≠ ok)
  | case3 i xmit reply turns _ _ inductionHypothesis => exact inductionHypothesis returned
  | case4 => exact absurd returned (by decide : syserr ≠ ok)
  | case5 i xmit reply turns _ data _ reply' xmit' _ inductionHypothesis => exact inductionHypothesis returned
  | case6 i xmit reply turns _ data _ reply' xmit' _ _ inductionHypothesis => exact inductionHypothesis returned
  | case7 => exact absurd returned (by decide : syserr ≠ ok)
  | case8 i xmit reply turns _ data _ reply' xmit' _ sameType _ => simpa using sameType

/-- A type that compares equal is the response type. -/
theorem type_of_same {msg reply : Memory} (same : otherType msg reply = false) :
    ntohs reply rdType = ntohs msg rdType ||| rdMsgResponse := by
  have values : (ntohs reply rdType).toInt16.toInt = (ntohs msg rdType ||| rdMsgResponse).toNat := by
    simpa [otherType] using same
  have signed : (ntohs reply rdType).toInt16.toInt = (ntohs reply rdType).toBitVec.toInt := rfl
  rw [signed, BitVec.toInt_eq_toNat_cond] at values
  have word : (ntohs reply rdType).toBitVec.toNat = (ntohs reply rdType).toNat := rfl
  have below : (ntohs reply rdType).toNat < 2 ^ 16 := UInt16.toNat_lt _
  refine UInt16.toNat_inj.mp ?_
  split at values <;> lia

end Turns

/-- A call matches its reply with its request just when no reply to an earlier request comes first. -/
theorem rdscomm_matches (rdptr : Rdscblk) (c : Call) :
    ((rdscomm rdptr c).1.retval = ok → Matches (rdscomm rdptr c).1) ↔ Clean rdptr c := by
  unfold rdscomm
  by_cases unregistered : (!rdptr.rdRegistered && decide (c.slot = syserr)) = true
  · rw [if_pos unregistered]
    obtain ⟨notYet, failed⟩ : rdptr.rdRegistered = false ∧ c.slot = syserr := by simpa using unregistered
    exact iff_of_true (fun returned => absurd returned (by decide : syserr ≠ ok))
      fun begins => absurd begins.1 (by simp [notYet, failed])
  rw [if_neg unregistered]
  by_cases unnumbered : (!c.ipvalid && !c.localip) = true
  · rw [if_pos unnumbered]
    obtain ⟨invalid, failed⟩ : c.ipvalid = false ∧ c.localip = false := by simpa using unnumbered
    exact iff_of_true (fun returned => absurd returned (by decide : syserr ≠ ok))
      fun begins => absurd begins.2 (by simp [invalid, failed])
  rw [if_neg unnumbered]
  have begins : Begins rdptr c := by
    refine ⟨?_, ?_⟩
    · by_contra neither
      simp only [not_or, not_not, Bool.not_eq_true] at neither
      exact unregistered (by simp [neither.1, neither.2])
    · by_contra neither
      simp only [not_or, Bool.not_eq_true] at neither
      exact unnumbered (by simp [neither.1, neither.2])
  have sameSeq : (if rdptr.rdRegistered then rdptr else
      { rdptr with rdUdpslot := c.slot, rdRegistered := true }).rdSeq = rdptr.rdSeq := by
    split <;> rfl
  dsimp only
  rw [sameSeq]
  have typeKept : ∀ value, ntohs (htonl c.msg rdSeq value) rdType = ntohs c.msg rdType := fun value =>
    ntohs_htonl value (Or.inl (by decide))
  have sameType : ∀ reply, otherType (htonl c.msg rdSeq rdptr.rdSeq.toUInt32) reply =
      otherType c.msg reply := by
    intro reply
    unfold otherType
    rw [typeKept]
  have right := rdscommLoop_right c rdptr.rdSeq _ sameType rdRetries 0 true (iff_of_true rfl trivial)
  have isType := rdscommLoop_type c.network rdptr.rdSeq (htonl c.msg rdSeq rdptr.rdSeq.toUInt32) c.rlen
    rdRetries 0 true c.reply
  have clean : Clean rdptr c ↔ c.CleanFrom rdptr.rdSeq.toUInt32 0 rdRetries := by
    refine ⟨fun clean i _ inside before => clean begins i (by omega) fun j below => before j (by lia) below,
      fun clean _ i inside before => clean i (by omega) (by omega) fun j _ below => before j below⟩
  rw [clean, ← right]
  unfold Matches
  dsimp only
  rw [ntohl_htonl, typeKept]
  constructor
  · exact fun matches_ returned => (matches_ returned).1
  · intro same returned
    exact ⟨same returned, typeKept _ ▸ type_of_same (isType returned)⟩

/-- In every sequence of calls, each call that returns `OK` has the reply to its own request in exactly
those sequences in which no call gets, before its exchange is over, a reply to an earlier request that
has the response type and status zero. -/
theorem replies_match_requests (first last : Rdscblk) (events : List (Event Rdscblk Call Outcome))
    (run : Run step first events last) :
    (∀ event ∈ events, event.reply.retval = ok → Matches event.reply) ↔ Meets Clean events := by
  unfold Meets
  refine forall₂_congr fun event member => ?_
  obtain ⟨_, _, completed⟩ := invariant_events (fun _ => True) (fun _ _ => True)
    (fun _ _ _ _ _ _ _ => trivial) _ _ _ run trivial (fun _ _ => trivial) event member
  have isReply : event.reply = (rdscomm event.before event.call).1 :=
    (congrArg Prod.fst (Option.some.inj completed)).symm
  rw [isReply]
  exact rdscomm_matches event.before event.call


/-- A call that sends a read request, when the server port is free and the local address is known. -/
def readCall (received : Nat → Received) : Call where
  msg := htons (fun _ => 0) rdType 0x0010
  reply := fun _ => 0
  rlen := 588
  ipvalid := true
  localip := true
  slot := 0
  network := ⟨fun _ => true, received⟩

/-- The front of a reply to a read request. -/
def readReply (seq : UInt8) : List UInt8 := [0x01, 0x10, 0, 0, 0, 0, 0, seq]

/-- The reply to the first request comes after the second one only, and the second request gets its own
reply behind it. -/
theorem second_request_gets_its_reply : ∃ events last, Run step rdsinit events last ∧
    Meets Clean events ∧ events.map (fun event => event.reply.retval) = [timeout, ok] := by
  obtain ⟨events, last, run, checked⟩ := trace_exists step rdsinit
    [readCall fun _ => .timeout, readCall fun i => if i = 0 then .timeout else .datagram (readReply 2)]
    (fun events _ => decide (events.map (fun event => event.reply.retval) = [timeout, ok] ∧
      ∀ event ∈ events, event.reply.retval = ok →
        ntohl event.reply.reply rdSeq = ntohl event.reply.msg rdSeq ∧
        ntohs event.reply.reply rdType = ntohs event.reply.msg rdType ||| rdMsgResponse)) (by decide +kernel)
  obtain ⟨values, all⟩ := of_decide_eq_true checked
  exact ⟨events, last, run, (replies_match_requests rdsinit last events run).mp all, values⟩

/-- The reply to the first request is taken for the reply to the second one. -/
theorem late_reply_is_accepted : ∃ events last, Run step rdsinit events last ∧
    ∃ event ∈ events, event.reply.retval = ok ∧ ¬ Matches event.reply := by
  obtain ⟨events, last, run, checked⟩ := trace_exists step rdsinit
    [readCall fun _ => .timeout, readCall fun _ => .datagram (readReply 1)]
    (fun events _ => decide (∃ event ∈ events, event.reply.retval = ok ∧
      ntohl event.reply.reply rdSeq ≠ ntohl event.reply.msg rdSeq)) (by decide +kernel)
  obtain ⟨event, member, returned, different⟩ := of_decide_eq_true checked
  exact ⟨events, last, run, event, member, returned, fun same => different same.1⟩

end Xinu.RdsExchange
