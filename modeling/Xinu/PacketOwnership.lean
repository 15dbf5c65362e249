import Xinu.PacketLedger

/-!
# Ownership of packet buffers

Every buffer that was taken from the pool was freed once, or lies in one queue, or is in the hands of one
process that is not yet done with it. Only the output queue loses a packet: when one is stored over another
one, because the count of its semaphore leaves out the packet that `ipout` was promised.
-/

namespace Xinu.NetStack

open Packets RingBuffer Runs IpInput

/-- Every buffer that was taken is in one place: freed, in the queue of one UDP slot, in the output queue, or in
the hands of a process whose call is not over. -/
def Owned (s : Stack) : Prop :=
  ∃ count ≤ IpOutput.ipOqsiz, Multiset.range s.next =
    (s.freed ++ s.output.freed ++ s.udp.freed : List Nat) + s.udp.held +
      (contents s.output.iqbuf IpOutput.ipOqsiz s.output.iqhead count : List Nat) + s.hands

/-- No echo reply is enqueued while `ipout` was released, has not run, and the semaphore counts one packet less
than the queue can hold. -/
def Route.Spared : Route → Prop
  | .given s pid .icmpIn p => p.netIctype = icmpEchoreqst.toUInt8 →
      IpOutput.Spared s.output (.enqueue pid s.next)
  | .given _ _ .freebuf _ | .given _ _ .udpIn _ | .done _ => True

def Spared (s : Stack) (move : Move) : Prop := ∀ r, route s move = some r → r.Spared

instance (output : IpOutput.System) (pid buffer : Nat) :
    Decidable (IpOutput.Spared output (.enqueue pid buffer)) :=
  inferInstanceAs (Decidable (¬ (output.kernel.process output.ipout = .ready .taking ∧
    (output.kernel.semtab output.iqsem).scount = (IpOutput.ipOqsiz : Int) - 1)))

instance (r : Route) : Decidable r.Spared :=
  match r with
  | .given s pid .icmpIn p => inferInstanceAs (Decidable (p.netIctype = icmpEchoreqst.toUInt8 →
      IpOutput.Spared s.output (.enqueue pid s.next)))
  | .given _ _ .freebuf _ | .given _ _ .udpIn _ | .done _ => isTrue trivial

instance (s : Stack) (move : Move) : Decidable (Spared s move) :=
  match isRoute : route s move with
  | some r => decidable_of_iff r.Spared (by simp [Spared, isRoute])
  | none => isTrue (by simp [Spared, isRoute])

def Route.stack : Route → Stack
  | .done s | .given s _ _ _ => s

/-- The process that gives a packet to a routine. -/
def Route.caller : Route → Option Nat
  | .done _ => none
  | .given _ pid _ _ => some pid

section Outputs

variable {s after : Stack} {buffer pid : Nat} {task : Task} {p : NetPacket} {r : Route} {move : Move}
  {output : IpOutput.System}

/-- The output queue is as it was, and only the process itself gives a packet to a routine. -/
def Quiet (r : Route) (output : IpOutput.System) (pid : Nat) : Prop :=
  r.stack.output = output ∧ ∀ caller ∈ r.caller, caller = pid

theorem ipOut_output (result : ipOut s pid p = some after) : after.output = s.output := by
  unfold ipOut at result
  split at result
  · cases result
  · cases result
    rfl

theorem resolve_output (result : resolve s pid p = some after) : after.output = s.output := by
  unfold resolve at result
  split at result
  · cases result
    rfl
  split at result
  · cases result
    rfl
  · have same := ipOut_output result
    exact same
  · cases result
    rfl

theorem quiet_done {result : Option Stack} (each : ∀ after, result = some after → after.output = output)
    (isRoute : result.map Route.done = some r) : Quiet r output pid := by
  obtain ⟨after, isAfter, rfl⟩ := Option.map_eq_some_iff.mp isRoute
  exact ⟨each after isAfter, by simp [Route.caller]⟩

theorem quiet_ipSend (result : ipSend s pid p = some r) (same : s.output = output) : Quiet r output pid := by
  unfold ipSend at result
  split at result
  · cases result
    exact ⟨same, by simp [Route.caller]⟩
  split at result
  · cases result
    exact ⟨same, by simp [Route.caller]⟩
  split at result
  · exact quiet_done (fun _ isAfter => (ipOut_output isAfter).trans same) result
  · exact quiet_done (fun _ isAfter => (resolve_output isAfter).trans same) result

/-- `ipout` takes the packet at the head of the queue, and no other process gives it to a routine. -/
theorem quiet_ipoutTake (result : ipoutTake s output = some r) :
    Quiet r (IpOutput.takeNext output) output.ipout := by
  unfold ipoutTake ipoutSend at result
  dsimp only at result
  split at result
  · cases result
    exact ⟨rfl, by simp [Route.caller]⟩
  split at result
  · cases result
    exact ⟨rfl, by simp [Route.caller]⟩
  · refine quiet_done (fun _ isAfter => ?_) result
    have same := resolve_output isAfter
    exact same

theorem quiet_netin {bytes : CIntegers.Memory} (result : netin s pid bytes = some r) : Quiet r s.output pid := by
  unfold netin at result
  dsimp only at result
  split at result
  · cases result
    exact ⟨rfl, by simp [Route.caller]⟩
  split at result
  · obtain ⟨handled, _, rfl⟩ := Option.map_eq_some_iff.mp result
    exact ⟨rfl, by simp [Route.caller]⟩
  · cases result
    exact ⟨rfl, by simp [Route.caller]⟩

theorem quiet_sendDatagram {ident : UInt16} {remip : UInt32} {remport locport : UInt16}
    {buff : CIntegers.Memory} {len : Int}
    (result : sendDatagram s pid ident remip remport locport buff len = some r) (same : s.output = output) :
    Quiet r output pid := by
  unfold sendDatagram at result
  dsimp only at result
  split at result
  · cases result
  · exact quiet_ipSend result same

theorem quiet_udpSend {slot : Int} {buff : CIntegers.Memory} {len : Int}
    (result : udpSend s pid slot buff len = some r) : Quiet r s.output pid := by
  unfold udpSend at result
  dsimp only at result
  split at result
  · cases result
    exact ⟨rfl, by simp [Route.caller]⟩
  split at result
  · cases result
    exact ⟨rfl, by simp [Route.caller]⟩
  split at result
  · cases result
    exact ⟨rfl, by simp [Route.caller]⟩
  · exact quiet_sendDatagram result rfl

theorem quiet_udpSendto {slot : Int} {remip : UInt32} {remport : UInt16} {buff : CIntegers.Memory} {len : Int}
    (result : udpSendto s pid slot remip remport buff len = some r) : Quiet r s.output pid := by
  unfold udpSendto at result
  dsimp only at result
  split at result
  · cases result
    exact ⟨rfl, by simp [Route.caller]⟩
  split at result
  · cases result
    exact ⟨rfl, by simp [Route.caller]⟩
  · exact quiet_sendDatagram result rfl

theorem quiet_resolveOn (result : resolveOn s pid buffer = some r) :
    r.stack.output = s.output ∧ r.caller = none := by
  have of_map : ∀ {result : Option Stack}, (∀ after, result = some after → after.output = s.output) →
      result.map Route.done = some r → r.stack.output = s.output ∧ r.caller = none := by
    intro result each isRoute
    obtain ⟨after, isAfter, rfl⟩ := Option.map_eq_some_iff.mp isRoute
    exact ⟨each after isAfter, rfl⟩
  unfold resolveOn at result
  split at result
  · cases result
  split at result
  · dsimp only at result
    split at result
    · cases result
      exact ⟨rfl, rfl⟩
    · refine of_map (fun _ isAfter => ?_) result
      have same := ipOut_output isAfter
      exact same
    · cases result
      exact ⟨rfl, rfl⟩
  all_goals cases result

/-- What a route does to the output queue: nothing, or a move of the queue that enqueues no packet. The process
that gives a packet to a routine is outside of the calls of the queue. -/
structure Outward (r : Route) (before : IpOutput.System) : Prop where
  moves : r.stack.output = before ∨ ∃ inner reply, (∀ caller buffer, inner ≠ .enqueue caller buffer) ∧
    IpOutput.step before inner = some (reply, r.stack.output)
  idle : ∀ caller ∈ r.caller, r.stack.output.kernel.process caller = .idle

theorem Quiet.outward (quiet : Quiet r output pid) (idle : output.kernel.process pid = .idle) :
    Outward r output := by
  obtain ⟨same, callers⟩ := quiet
  refine ⟨Or.inl same, fun caller isCaller => ?_⟩
  rw [same, callers caller isCaller]
  exact idle

theorem outward_done (same : after.output = output) : Outward (.done after) output :=
  ⟨Or.inl same, by simp [Route.caller]⟩

/-- `ipout` takes a packet in a move of the queue. -/
theorem outward_ipoutTake {before : IpOutput.System} {inner : IpOutput.Move}
    (result : ipoutTake s output = some r) (idle : output.kernel.process output.ipout = .idle)
    (notEnqueue : ∀ caller buffer, inner ≠ .enqueue caller buffer)
    (moved : IpOutput.step before inner = some (none, IpOutput.takeNext output)) : Outward r before := by
  obtain ⟨same, callers⟩ := quiet_ipoutTake result
  refine ⟨Or.inr ⟨inner, none, notEnqueue, by rw [same, moved]⟩, fun caller isCaller => ?_⟩
  rw [same, callers caller isCaller]
  exact idle

/-- A process that does not wait stays where it is. -/
theorem wait_process {kernel after : Semaphores.Kernel IpOutput.Point} {sem : Int} {outcome : Semaphores.Waited}
    (waits : Semaphores.wait kernel pid .taking sem = (outcome, after)) (awake : outcome ≠ .blocked) :
    after.process = kernel.process := by
  unfold Semaphores.wait at waits
  split at waits
  · cases waits
    rfl
  dsimp only at waits
  split at waits
  · cases waits
    rfl
  split at waits
  · cases waits
    exact absurd rfl awake
  · cases waits
    rfl

theorem outward_ipoutTurn (idle : s.output.kernel.process s.output.ipout = .idle)
    (result : ipoutTurn s = some r) : Outward r s.output := by
  have turned : IpOutput.step s.output .turn = some (none, IpOutput.ipoutTurn s.output) := by
    simp only [IpOutput.step]
    rw [if_pos idle]
  unfold IpOutput.ipoutTurn at turned
  unfold ipoutTurn at result
  cases waits : Semaphores.wait s.output.kernel s.output.ipout .taking s.output.iqsem with
  | mk outcome kernel =>
    rw [waits] at result
    simp only [waits] at turned
    cases outcome with
    | blocked =>
      cases result
      exact ⟨Or.inr ⟨.turn, none, by simp, turned⟩, by simp [Route.caller]⟩
    | passed =>
      refine outward_ipoutTake result ?_ (by simp) turned
      dsimp only
      rw [wait_process waits (by simp)]
      exact idle
    | refused =>
      refine outward_ipoutTake result ?_ (by simp) turned
      dsimp only
      rw [wait_process waits (by simp)]
      exact idle

theorem outward_finish (result : finish s pid task = some r) : Outward r s.output := by
  unfold finish at result
  split at result
  · cases result
  split at result
  · cases result
  · cases result
    exact outward_done rfl
  · cases result
    exact outward_done rfl
  · split at result
    · rename_i ready
      cases result
      refine ⟨Or.inr ⟨.goOn pid, some IpOutput.ok, by simp, ?_⟩, by simp [Route.caller]⟩
      simp only [IpOutput.step]
      rw [ready]
      rfl
    · cases result

/-- Every route makes at most one move of the output queue, which enqueues no packet. -/
theorem outward_of_route (result : route s move = some r) : Outward r s.output := by
  cases move with
  | frame pid bytes =>
    simp only [route] at result
    split at result
    case isTrue idle => exact (quiet_netin result).outward idle.2.1
    case isFalse => cases result
  | udpSend pid slot buff len =>
    simp only [route] at result
    split at result
    case isTrue idle => exact (quiet_udpSend result).outward idle.2.1
    case isFalse => cases result
  | udpSendto pid slot remip remport buff len =>
    simp only [route] at result
    split at result
    case isTrue idle => exact (quiet_udpSendto result).outward idle.2.1
    case isFalse => cases result
  | icmpSend pid remip type ident seq buff len =>
    simp only [route] at result
    split at result
    case isTrue idle =>
      obtain ⟨q, _, sent⟩ := Option.bind_eq_some_iff.mp result
      exact (quiet_ipSend sent rfl).outward idle.2.1
    case isFalse => cases result
  | udp move =>
    simp only [route] at result
    split at result
    · obtain ⟨completed, _, rfl⟩ := Option.map_eq_some_iff.mp result
      exact outward_done rfl
    · cases result
  | turn =>
    simp only [route] at result
    split at result
    case isTrue idle => exact outward_ipoutTurn idle.2.1 result
    case isFalse => cases result
  | take =>
    simp only [route] at result
    split at result
    case isTrue ready =>
      refine @outward_ipoutTake _ _ _ _ (.goOn s.output.ipout) result ?_ (by simp) ?_
      · dsimp only
        rw [Semaphores.place_self]
      · simp only [IpOutput.step]
        rw [ready]
        rfl
    case isFalse => cases result
  | finish pid task => exact outward_finish result
  | resolveOn pid buffer =>
    obtain ⟨same, nobody⟩ := quiet_resolveOn result
    exact ⟨Or.inl same, by simp [nobody]⟩
  | arpTick pid =>
    cases result
    exact outward_done rfl

/-- `icmp_in` enqueues the reply to an echo request. -/
theorem output_of_request (isRequest : p.netIctype = icmpEchoreqst.toUInt8) (result : icmpIn s pid p = some after) :
    after.output = (IpOutput.ipEnqueue s.output pid s.next).2 := by
  unfold icmpIn at result
  rw [if_neg (not_not.mpr isRequest)] at result
  obtain ⟨reply, isReply, same⟩ := Option.map_eq_some_iff.mp result
  have buffer : reply.buffer = s.next := buffer_of_echoReply isReply
  dsimp only at same
  rw [show s.getbuf.2.output = s.output from rfl, buffer] at same
  cases outcome : IpOutput.ipEnqueue s.output pid s.next with
  | mk returned output =>
    rw [outcome] at same
    cases returned with
    | none =>
      cases same
      rfl
    | some value =>
      cases same
      rfl

/-- Other routines leave the output queue alone. -/
theorem output_of_other {handler : Handler} (other : handler = .icmpIn → p.netIctype ≠ icmpEchoreqst.toUInt8)
    (result : give s pid handler p = some after) : after.output = s.output := by
  cases handler with
  | freebuf =>
    cases result
    rfl
  | udpIn =>
    cases result
    rfl
  | icmpIn =>
    have isResult : icmpIn s pid p = some after := result
    unfold icmpIn at isResult
    rw [if_pos (other rfl)] at isResult
    cases isResult
    rfl

end Outputs

/-- What holds of the output queue. -/
def Orderly (s : Stack) : Prop := ∃ count, IpOutput.Law s.output count

section Conditions

variable {s after : Stack} {r : Route} {move : Move}

/-- The route of a move keeps the law of the output queue. -/
theorem Orderly.route (law : Orderly s) (result : route s move = some r) : Orderly r.stack := by
  obtain ⟨same | ⟨inner, reply, notEnqueue, moved⟩, _⟩ := outward_of_route result
  · unfold Orderly
    rwa [same]
  · refine IpOutput.law_preserved s.output inner reply r.stack.output law ?_ moved
    cases inner with
    | enqueue caller buffer => exact absurd rfl (notEnqueue caller buffer)
    | turn => trivial
    | goOn pid => trivial

theorem Orderly.step (law : Orderly s) (spared : Spared s move) {reply : Unit}
    (completed : step s move = some (reply, after)) : Orderly after := by
  obtain ⟨r, isRoute, rest⟩ := Option.bind_eq_some_iff.mp completed
  have routed := law.route isRoute
  have isSpared := spared r isRoute
  have idle := (outward_of_route isRoute).idle
  cases r with
  | done middle =>
    cases rest
    exact routed
  | given middle pid handler p =>
    obtain ⟨last, isLast, same⟩ := Option.map_eq_some_iff.mp rest
    cases same
    by_cases replies : handler = .icmpIn ∧ p.netIctype = icmpEchoreqst.toUInt8
    · obtain ⟨rfl, isRequest⟩ := replies
      have calls : middle.output.kernel.process pid = .idle := idle pid rfl
      refine IpOutput.law_preserved middle.output (.enqueue pid middle.next)
        (IpOutput.ipEnqueue middle.output pid middle.next).1 after.output routed (isSpared isRequest) ?_
      simp only [IpOutput.step]
      rw [if_pos calls, output_of_request isRequest isLast]
    · have same := output_of_other (fun isIcmp isRequest => replies ⟨isIcmp, isRequest⟩) isLast
      unfold Orderly
      rwa [same]

/-- An echo reply that the condition does not allow overfills the queue. -/
theorem overfull_length (law : Orderly s) (spoilt : ¬ Spared s move) {reply : Unit}
    (completed : step s move = some (reply, after)) :
    after.output.accepted.length = after.output.taken.length + IpOutput.ipOqsiz + 1 := by
  obtain ⟨r, isRoute, rest⟩ := Option.bind_eq_some_iff.mp completed
  have routed := law.route isRoute
  have idle := (outward_of_route isRoute).idle
  have notSpared : ¬ r.Spared := by
    intro isSpared
    refine spoilt fun other isOther => ?_
    cases isRoute.symm.trans isOther
    exact isSpared
  cases r with
  | done middle => exact absurd trivial notSpared
  | given middle pid handler p =>
    obtain ⟨last, isLast, same⟩ := Option.map_eq_some_iff.mp rest
    cases same
    cases handler with
    | freebuf => exact absurd trivial notSpared
    | udpIn => exact absurd trivial notSpared
    | icmpIn =>
      obtain ⟨isRequest, notRoom⟩ := Classical.not_imp.mp notSpared
      have calls : middle.output.kernel.process pid = .idle := idle pid rfl
      obtain ⟨count, routed⟩ := routed
      have moved : IpOutput.step middle.output (.enqueue pid middle.next) =
          some ((IpOutput.ipEnqueue middle.output pid middle.next).1, after.output) := by
        simp only [IpOutput.step]
        rw [if_pos calls, output_of_request isRequest isLast]
      exact IpOutput.overfull_length routed notRoom moved

/-- The buffers are owned when the output queue holds what it accepted and did not give to `ipout`. -/
theorem owned_iff (law : Law s 0) : Owned s ↔ ∃ count ≤ IpOutput.ipOqsiz, (s.output.accepted : Multiset Nat) =
    s.output.taken + (contents s.output.iqbuf IpOutput.ipOqsiz s.output.iqhead count : List Nat) := by
  have ledger := law.ledger
  unfold Ledger UdpEndpoints.System.balance at ledger
  refine exists_congr fun count => and_congr_right fun _ => ?_
  simp only [← Multiset.coe_add]
  constructor
  · intro owned
    rw [owned] at ledger
    have cancelled : (s.freed + s.output.freed + s.udp.freed + s.udp.held + s.hands : Multiset Nat) +
          (s.output.taken + (contents s.output.iqbuf IpOutput.ipOqsiz s.output.iqhead count : List Nat)) =
        (s.freed + s.output.freed + s.udp.freed + s.udp.held + s.hands : Multiset Nat) + s.output.accepted := by
      rw [add_zero] at ledger
      refine Eq.trans ?_ (ledger.trans ?_)
      · abel
      · abel
    exact (add_left_cancel cancelled).symm
  · intro order
    rw [order, add_zero] at ledger
    refine add_right_cancel (b := (s.output.taken : Multiset Nat)) (ledger.trans ?_)
    abel

end Conditions

/-- A move of the UDP slots gives no packet to a routine. -/
theorem oneUser_of_spoilt {s : Stack} {move : Move} (spoilt : ¬ Spared s move) : OneUser s move := by
  cases move with
  | udp inner =>
    refine absurd (fun r isRoute => ?_) spoilt
    simp only [route] at isRoute
    split at isRoute
    · obtain ⟨completed, _, rfl⟩ := Option.map_eq_some_iff.mp isRoute
      trivial
    · cases isRoute
  | _ => trivial

/-- The buffers that were taken are no more than those that the places can hold. -/
theorem Owned.next_le {s : Stack} (owned : Owned s) : s.next ≤ s.freed.length + s.output.freed.length +
    s.udp.freed.length + ((List.range UdpEndpoints.udpSlots).map fun slot =>
      (s.udp.udptab slot).udcount.toNat).sum + IpOutput.ipOqsiz + s.tasks.length := by
  obtain ⟨count, few, order⟩ := owned
  have counted := congrArg Multiset.card order
  have held : Multiset.card s.udp.held = ((List.range UdpEndpoints.udpSlots).map fun slot =>
      (s.udp.udptab slot).udcount.toNat).sum := by
    unfold UdpEndpoints.System.held
    rw [Multiset.card_sum]
    simp only [Multiset.coe_card, UdpEndpoints.Udpentry.held, queued, List.length_map, length_contents]
    rfl
  unfold Stack.hands at counted
  simp only [Multiset.card_add, Multiset.coe_card, Multiset.card_range, length_contents, List.length_append,
    List.length_map, held] at counted
  lia

/-- What holds while no packet is lost. -/
structure Whole (s : Stack) : Prop where
  law : Law s 0
  orderly : Orderly s

theorem Whole.owned {s : Stack} (whole : Whole s) : Owned s := by
  obtain ⟨count, law⟩ := whole.orderly
  refine (owned_iff whole.law).mpr ⟨count, law.room, ?_⟩
  rw [law.order, Multiset.coe_add]

theorem netInit_whole (netData : NetData) (udpmsg arpmsg : Int → Option UInt32) (nothing : NetPacket)
    (memory : Nat → CIntegers.Memory) (used : Int → Processes.Sstate) (ipout : Nat)
    (success : (IpOutput.netInit used ipout).iqsem ≠ Semaphores.syserr) :
    Whole (netInit netData udpmsg arpmsg nothing memory used ipout) := by
  have nobody : ∀ slot < UdpEndpoints.udpSlots, (((netInit netData udpmsg arpmsg nothing memory used ipout).udp.udptab
      slot).held : Multiset Nat) = 0 := fun slot _ => rfl
  refine ⟨⟨?_, fun _ => ?_, fun _ _ => rfl, ?_, ?_, ?_⟩, 0, IpOutput.netInit_law ipout success⟩
  · have held : (netInit netData udpmsg arpmsg nothing memory used ipout).udp.held = 0 :=
      Finset.sum_eq_zero fun slot member => nobody slot (Finset.mem_range.mp member)
    unfold Ledger UdpEndpoints.System.balance
    rw [held]
    rfl
  · exact .empty (by decide : 0 < UdpEndpoints.udpQsiz)
  · intro pid point isPoint
    cases isPoint
  · intro pid other point otherPoint isPoint
    cases isPoint
  · intro slot isRecv
    cases isRecv

/-- In every run in which each UDP slot has one user, every buffer that was taken is freed once, in one queue, or in
the hands of a process whose call is not over, all along, just when no echo reply is enqueued while `ipout` was
released, has not run, and the semaphore counts one packet less than the queue can hold. -/
theorem buffers_are_owned (netData : NetData) (udpmsg arpmsg : Int → Option UInt32) (nothing : NetPacket)
    (memory : Nat → CIntegers.Memory) (used : Int → Processes.Sstate) (ipout : Nat)
    (success : (IpOutput.netInit used ipout).iqsem ≠ Semaphores.syserr)
    (events : List (Event Stack Move Unit)) (last : Stack)
    (run : Run step (netInit netData udpmsg arpmsg nothing memory used ipout) events last)
    (single : Meets OneUser events) :
    (∀ event ∈ events, Owned event.after) ↔ Meets Spared events := by
  refine good_iff_meets Whole Owned OneUser Spared ?_ (fun _ => Whole.owned) ?_ _ _ _ run single
    (netInit_whole netData udpmsg arpmsg nothing memory used ipout success)
  · intro before move reply after whole isSingle isSpared completed
    exact ⟨whole.law.step isSingle completed, whole.orderly.step isSpared completed⟩
  · intro before move reply after whole spoilt completed owned
    obtain ⟨count, few, order⟩ :=
      (owned_iff (whole.law.step (oneUser_of_spoilt spoilt) completed)).mp owned
    have length := overfull_length whole.orderly spoilt completed
    have counted := congrArg Multiset.card order
    simp only [Multiset.card_add, Multiset.coe_card, length_contents] at counted
    lia

/-- A host with address `9`, and `ipout` as process 1. -/
def smallStack : Stack :=
  netInit ⟨9, 255, 0, 0, 0, true, fun _ => 0, fun _ => 0xff⟩ (fun _ => none) (fun _ => none) ⟨0, fun _ => 0⟩
    (fun _ _ => 0) (fun _ => .free) 1

/-- An echo request from host `2` to host `9`. -/
def smallRequest : CIntegers.Memory :=
  fun k => if k = 12 then 8 else if k = 14 then 0x45 else if k = 17 then 28 else if k = 23 then 1
    else if k = 24 then 0xba else if k = 25 then 0xd7 else if k = 29 then 2 else if k = 33 then 9
    else if k = 34 then 8 else if k = 36 then 0xf7 else if k = 37 then 0xff else 0

/-- Moves that are not those of the UDP slots. -/
def Move.isOther : Move → Bool
  | .udp _ => false
  | _ => true

theorem oneUser_of_other {s : Stack} {move : Move} (other : move.isOther = true) : OneUser s move := by
  cases move with
  | udp inner => cases other
  | _ => trivial

/-- The reply to an echo request is enqueued and taken by `ipout`. -/
theorem request_is_owned : ∃ events last, Run step smallStack events last ∧
    (∀ event ∈ events, Owned event.after) ∧ last.next = 2 ∧ last.freed = [0] ∧ last.output.taken = [1] := by
  obtain ⟨events, last, run, checked⟩ := trace_exists step smallStack
    [.turn, .frame 2 smallRequest, .finish 2 (.answering 0), .take]
    (fun events (last : Stack) => decide ((∀ event ∈ events, Spared event.before event.call) ∧
      (∀ event ∈ events, event.call.isOther = true) ∧
      last.next = 2 ∧ last.freed = [0] ∧ last.output.taken = [1])) (by decide +kernel)
  obtain ⟨spared, others, next, freed, taken⟩ := of_decide_eq_true checked
  have owned := (buffers_are_owned _ _ _ _ _ _ 1 (by decide +kernel) events last run
    fun event member => oneUser_of_other (others event member)).mpr spared
  exact ⟨events, last, run, owned, next, freed, taken⟩

/-- An echo request with no data from process 2 to its own host. -/
def selfRequest : Move := .icmpSend 2 9 icmpEchoreqst 0 0 (fun _ => 0) 0

/-- A process requests nine echoes of its own host while `ipout` was released and has not run: eighteen buffers
were taken, nine are freed, and there is no place for all of the others. -/
theorem reply_is_lost : ∃ events last, Run step smallStack events last ∧
    Meets OneUser events ∧ last.next = 18 ∧ last.output.accepted = [1, 3, 5, 7, 9, 11, 13, 15, 17] ∧
    ¬ Owned last := by
  obtain ⟨events, last, run, checked⟩ := trace_exists step smallStack
    ([.turn, selfRequest, .finish 2 (.answering 0)] ++ List.replicate 8 selfRequest)
    (fun events (last : Stack) => decide ((∀ event ∈ events, event.call.isOther = true) ∧ last.next = 18 ∧
      last.output.accepted = [1, 3, 5, 7, 9, 11, 13, 15, 17] ∧ last.freed.length = 9 ∧ last.output.freed = [] ∧
      last.udp.freed = [] ∧ last.tasks = [] ∧ ((List.range UdpEndpoints.udpSlots).map fun slot =>
        (last.udp.udptab slot).udcount.toNat).sum = 0)) (by decide +kernel)
  obtain ⟨others, next, accepted, freed, dropped, udpFreed, nobody, nothing⟩ := of_decide_eq_true checked
  refine ⟨events, last, run, fun event member => oneUser_of_other (others event member), next, accepted,
    fun owned => ?_⟩
  have few := owned.next_le
  rw [next, freed, dropped, udpFreed, nobody, nothing] at few
  exact absurd few (by decide)

end Xinu.NetStack
