import Xinu.NetStack

/-!
# The ledger of packet buffers

Every move accounts for the buffers it takes, frees, queues and keeps in the hands of a process. Within a call
one more packet is loose, until the call frees it, queues it or leaves it in its hands.
-/

namespace Xinu.NetStack

open Packets Runs IpInput

/-- The packets in the hands of processes. -/
def Stack.hands (s : Stack) : Multiset Nat := (s.tasks.map fun entry => entry.2.buffer : List Nat)

/-- What was taken from the pool and from the output queue is what was freed, accepted by the output queue, is
in a queue of a UDP slot, in the hands of a process, or loose. -/
def Ledger (s : Stack) (loose : Multiset Nat) : Prop :=
  Multiset.range s.next + s.output.taken = (s.freed : Multiset Nat) + s.udp.balance +
    ((s.output.freed : Multiset Nat) + s.output.accepted) + s.hands + loose

/-- The ledger with the law of the UDP slots. -/
structure Law (s : Stack) (loose : Multiset Nat) : Prop where
  ledger : Ledger s loose
  udp : UdpEndpoints.Tended s.udp

section Hands

variable {s after : Stack} {loose : Multiset Nat} {buffer pid : Nat} {task : Task} {p q : NetPacket}

/-- A new buffer is loose. -/
theorem Law.getbuf (law : Law s loose) : Law s.getbuf.2 (loose + {s.getbuf.1.buffer}) := by
  refine ⟨?_, law.udp⟩
  have ledger := law.ledger
  unfold Ledger at ledger ⊢
  show Multiset.range (s.next + 1) + s.output.taken = (s.freed : Multiset Nat) + s.udp.balance +
    ((s.output.freed : Multiset Nat) + s.output.accepted) + s.hands + (loose + {s.next})
  rw [Multiset.range_succ, ← Multiset.singleton_add, add_assoc, ledger]
  abel

/-- A loose packet is freed. -/
theorem Law.freebuf (law : Law s (loose + {buffer})) : Law (s.freebuf buffer) loose := by
  refine ⟨?_, law.udp⟩
  have ledger := law.ledger
  unfold Ledger at ledger ⊢
  show Multiset.range s.next + s.output.taken = ((s.freed ++ [buffer] : List Nat) : Multiset Nat) + s.udp.balance +
    ((s.output.freed : Multiset Nat) + s.output.accepted) + s.hands + loose
  rw [ledger, ← Multiset.coe_add, Multiset.coe_singleton]
  abel

/-- A loose packet is taken into the hands. -/
theorem Law.hold (law : Law s (loose + {task.buffer})) : Law (s.hold pid task) loose := by
  refine ⟨?_, law.udp⟩
  have ledger := law.ledger
  unfold Ledger at ledger ⊢
  have more : (s.hold pid task).hands = s.hands + {task.buffer} := by
    unfold Stack.hands Stack.hold
    rw [List.map_cons, ← Multiset.cons_coe, ← Multiset.singleton_add, add_comm]
  show Multiset.range s.next + s.output.taken = (s.freed : Multiset Nat) + s.udp.balance +
    ((s.output.freed : Multiset Nat) + s.output.accepted) + (s.hold pid task).hands + loose
  rw [ledger, more]
  abel

/-- A packet in the hands is loose again. -/
theorem Law.drop (law : Law s loose) (member : (pid, task) ∈ s.tasks) :
    Law (s.drop pid task) (loose + {task.buffer}) := by
  refine ⟨?_, law.udp⟩
  have ledger := law.ledger
  unfold Ledger at ledger ⊢
  have more : s.hands = (s.drop pid task).hands + {task.buffer} := by
    have moved : s.tasks.Perm ((pid, task) :: s.tasks.erase (pid, task)) := List.perm_cons_erase member
    unfold Stack.hands Stack.drop
    rw [Multiset.coe_eq_coe.mpr (moved.map _), List.map_cons, ← Multiset.cons_coe, ← Multiset.singleton_add,
      add_comm]
  show Multiset.range s.next + s.output.taken = (s.freed : Multiset Nat) + s.udp.balance +
    ((s.output.freed : Multiset Nat) + s.output.accepted) + (s.drop pid task).hands + (loose + {task.buffer})
  rw [ledger, more]
  abel

/-- The law does not depend on the ARP cache, the contents of the buffers and the identifiers. -/
theorem Law.withContents (law : Law s loose) (arp : Arp.System) (memory : Nat → CIntegers.Memory)
    (ipident : UInt32) (udpIdent udptoIdent : UInt16) : Law { s with
      arp := arp, memory := memory, ipident := ipident, udpIdent := udpIdent, udptoIdent := udptoIdent } loose :=
  ⟨law.ledger, law.udp⟩

/-- A loose packet arrives at the UDP slots. -/
theorem Law.udpIn (law : Law s (loose + {p.buffer})) :
    Law { s with udp := UdpEndpoints.udpIn s.udp p } loose := by
  obtain ⟨stays, balance⟩ := law.udp.udpIn p
  refine ⟨?_, stays⟩
  have ledger := law.ledger
  unfold Ledger at ledger ⊢
  dsimp only
  rw [ledger, balance]
  unfold Stack.hands
  abel

/-- A loose packet is accepted or freed by the output queue. -/
theorem Law.enqueue (law : Law s (loose + {buffer})) :
    Law { s with output := (IpOutput.ipEnqueue s.output pid buffer).2 } loose := by
  refine ⟨?_, law.udp⟩
  have ledger := law.ledger
  unfold Ledger Stack.hands at *
  dsimp only
  unfold IpOutput.ipEnqueue
  split
  · dsimp only
    rw [ledger, ← Multiset.coe_add, Multiset.coe_singleton]
    abel
  · dsimp only
    split
    · dsimp only
      rw [ledger, ← Multiset.coe_add, Multiset.coe_singleton]
      abel
    · dsimp only
      rw [ledger, ← Multiset.coe_add, Multiset.coe_singleton]
      abel

/-- `icmp_in` is done with the packet, or keeps it in the hands of its process. -/
theorem Law.icmpIn (law : Law s (loose + {p.buffer})) (result : icmpIn s pid p = some after) : Law after loose := by
  unfold NetStack.icmpIn at result
  split at result
  · cases result
    exact law.freebuf
  obtain ⟨reply, isReply, same⟩ := Option.map_eq_some_iff.mp result
  have loosened := law.getbuf.withContents s.arp (Function.update s.memory reply.buffer reply.bytes) (s.ipident + 1)
    s.udpIdent s.udptoIdent
  rw [← buffer_of_echoReply isReply] at loosened
  have enqueued := @Law.enqueue _ _ reply.buffer pid loosened
  dsimp only at same
  cases outcome : IpOutput.ipEnqueue s.output pid reply.buffer with
  | mk returned output =>
    have isOutput : (IpOutput.ipEnqueue s.output pid reply.buffer).2 = output := by rw [outcome]
    have queued : Law { s.getbuf.2 with
        memory := Function.update s.memory reply.buffer reply.bytes, ipident := s.ipident + 1
        output := output } (loose + {p.buffer}) := isOutput ▸ enqueued
    rw [show s.getbuf.2.output = s.output from rfl, outcome] at same
    cases returned with
    | none =>
      cases same
      exact @Law.hold _ _ _ (.answering p.buffer) queued
    | some value =>
      cases same
      exact queued.freebuf

/-- A packet that is given to a routine is no longer loose. -/
theorem Law.give (law : Law s (loose + {p.buffer})) {handler : Handler}
    (result : give s pid handler p = some after) : Law after loose := by
  cases handler with
  | freebuf =>
    cases result
    exact law.freebuf
  | udpIn =>
    cases result
    exact law.udpIn
  | icmpIn => exact law.icmpIn result

theorem Law.ipOut (law : Law s (loose + {p.buffer})) (result : ipOut s pid p = some after) : Law after loose := by
  unfold NetStack.ipOut at result
  split at result
  · cases result
  · cases result
    exact @Law.hold _ _ _ (.transmitting p.buffer) law

theorem Law.resolve (law : Law s (loose + {p.buffer})) (result : resolve s pid p = some after) :
    Law after loose := by
  unfold NetStack.resolve at result
  split at result
  · cases result
    exact law.freebuf
  split at result
  · rename_i arp _
    cases result
    exact @Law.hold _ _ _ (.resolving p.buffer)
      (law.withContents arp (Function.update s.memory p.buffer p.bytes) s.ipident s.udpIdent s.udptoIdent)
  · rename_i arp _
    exact (law.withContents arp s.memory s.ipident s.udpIdent s.udptoIdent).ipOut result
  · rename_i arp _
    cases result
    exact (law.withContents arp s.memory s.ipident s.udpIdent s.udptoIdent).freebuf

end Hands

/-- What holds of a route: the packet that is given is the loose one. -/
def Route.Law : Route → Prop
  | .done s => NetStack.Law s 0
  | .given s _ _ p => NetStack.Law s (0 + {p.buffer})

/-- A UDP slot has one user. -/
def OneUser (s : Stack) : Move → Prop
  | .udp move => UdpEndpoints.OneUser s.udp move
  | _ => True

section Routes

variable {s after : Stack} {buffer pid : Nat} {task : Task} {p : NetPacket} {r : Route} {move : Move}

theorem Law.done_map {result : Option Stack} (each : ∀ after, result = some after → Law after 0)
    (isRoute : result.map Route.done = some r) : r.Law := by
  obtain ⟨after, isAfter, rfl⟩ := Option.map_eq_some_iff.mp isRoute
  exact each after isAfter

theorem Law.ipSend (law : Law s (0 + {p.buffer})) (result : ipSend s pid p = some r) : r.Law := by
  unfold NetStack.ipSend at result
  split at result
  · cases result
    exact law
  split at result
  · cases result
    exact law
  split at result
  · exact Law.done_map (fun _ => law.ipOut) result
  · exact Law.done_map (fun _ => law.resolve) result

/-- The packet that `ipout` takes is loose. -/
theorem Law.ipoutTake (law : Law s 0) (kernel : Semaphores.Kernel IpOutput.Point)
    (result : ipoutTake s { s.output with kernel := kernel } = some r) : r.Law := by
  have taken : Law { s with output := IpOutput.takeNext { s.output with kernel := kernel } }
      (0 + {s.output.iqbuf s.output.iqhead}) := by
    refine ⟨?_, law.udp⟩
    have ledger := law.ledger
    unfold Ledger Stack.hands IpOutput.takeNext at *
    dsimp only
    rw [← Multiset.coe_add, Multiset.coe_singleton, ← add_assoc, ledger]
    abel
  unfold NetStack.ipoutTake ipoutSend at result
  dsimp only at result
  split at result
  · cases result
    exact taken.freebuf
  split at result
  · cases result
    exact taken
  · exact Law.done_map (fun _ => Law.resolve (p := ⟨_, _⟩) taken) result

theorem Law.ipoutTurn (law : Law s 0) (result : ipoutTurn s = some r) : r.Law := by
  unfold NetStack.ipoutTurn at result
  split at result
  · cases result
    exact ⟨law.ledger, law.udp⟩
  · exact law.ipoutTake _ result
  · exact law.ipoutTake _ result

theorem Law.netin (law : Law s 0) {bytes : CIntegers.Memory} (result : netin s pid bytes = some r) : r.Law := by
  unfold NetStack.netin at result
  dsimp only at result
  split at result
  · cases result
    exact @Law.hold _ _ _ (.updating s.getbuf.1.buffer) (law.getbuf.withContents _ _ _ _ _)
  split at result
  · obtain ⟨⟨handler, p⟩, isHandled, rfl⟩ := Option.map_eq_some_iff.mp result
    have same := buffer_of_ipIn isHandled
    show NetStack.Law s.getbuf.2 (0 + {p.buffer})
    rw [same]
    exact law.getbuf
  · cases result
    exact law.getbuf.freebuf

theorem Law.sendDatagram (law : Law s 0) {ident : UInt16} {remip : UInt32} {remport locport : UInt16}
    {buff : CIntegers.Memory} {len : Int}
    (result : sendDatagram s pid ident remip remport locport buff len = some r) : r.Law := by
  unfold NetStack.sendDatagram at result
  dsimp only at result
  split at result
  · cases result
  · refine Law.ipSend ?_ result
    exact law.getbuf

theorem Law.finish (law : Law s 0) (result : finish s pid task = some r) : r.Law := by
  unfold NetStack.finish at result
  split at result
  · cases result
  rename_i isMember
  have member : (pid, task) ∈ s.tasks := not_not.mp isMember
  split at result
  · cases result
  · cases result
    exact (law.drop member).freebuf
  · cases result
    exact (law.drop member).freebuf
  · split at result
    · cases result
      have dropped := law.drop member
      exact Law.freebuf ⟨dropped.ledger, dropped.udp⟩
    · cases result

theorem Law.resolveOn (law : Law s 0) (result : resolveOn s pid buffer = some r) : r.Law := by
  unfold NetStack.resolveOn at result
  split at result
  · cases result
  rename_i isMember
  have dropped := law.drop (not_not.mp isMember)
  split at result
  · dsimp only at result
    split at result
    · cases result
      exact ⟨law.ledger, law.udp⟩
    · rename_i arp _
      exact Law.done_map (fun _ => Law.ipOut (p := ⟨buffer, _⟩) (dropped.withContents arp _ _ _ _)) result
    · rename_i arp _
      cases result
      exact (dropped.withContents arp _ _ _ _).freebuf
  all_goals cases result

/-- Every route keeps the law. -/
theorem Law.route (law : Law s 0) (single : OneUser s move) (result : route s move = some r) : r.Law := by
  cases move with
  | frame pid bytes =>
    simp only [NetStack.route] at result
    split at result
    · exact law.netin result
    · cases result
  | udpSend pid slot buff len =>
    simp only [NetStack.route] at result
    split at result
    · unfold NetStack.udpSend at result
      dsimp only at result
      split at result
      · cases result
        exact law
      split at result
      · cases result
        exact law
      split at result
      · cases result
        exact law
      · exact Law.sendDatagram (law.withContents _ _ _ _ _) result
    · cases result
  | udpSendto pid slot remip remport buff len =>
    simp only [NetStack.route] at result
    split at result
    · unfold NetStack.udpSendto at result
      dsimp only at result
      split at result
      · cases result
        exact law
      split at result
      · cases result
        exact law
      · exact Law.sendDatagram (law.withContents _ _ _ _ _) result
    · cases result
  | icmpSend pid remip type ident seq buff len =>
    simp only [NetStack.route] at result
    split at result
    · obtain ⟨q, made, sent⟩ := Option.bind_eq_some_iff.mp result
      have loosened := law.getbuf.withContents s.arp s.memory (s.ipident + 1) s.udpIdent s.udptoIdent
      rw [← buffer_of_icmpMkpkt made] at loosened
      exact loosened.ipSend sent
    · cases result
  | udp move =>
    simp only [NetStack.route] at result
    split at result
    · rename_i allowed
      obtain ⟨completed, isCompleted, rfl⟩ := Option.map_eq_some_iff.mp result
      have notArrival : ∀ pkt, move ≠ .arrive pkt := by
        rintro pkt rfl
        cases allowed
      obtain ⟨stays, balance⟩ := UdpEndpoints.kept_of_step _ _ _ _ law.udp single notArrival isCompleted
      refine ⟨?_, stays⟩
      have ledger := law.ledger
      unfold Ledger Stack.hands at *
      dsimp only
      rw [balance, add_zero s.udp.balance]
      exact ledger
    · cases result
  | turn =>
    simp only [NetStack.route] at result
    split at result
    · exact law.ipoutTurn result
    · cases result
  | take =>
    simp only [NetStack.route] at result
    split at result
    · exact law.ipoutTake _ result
    · cases result
  | finish pid task => exact law.finish result
  | resolveOn pid buffer => exact law.resolveOn result
  | arpTick pid =>
    cases result
    exact ⟨law.ledger, law.udp⟩

theorem Law.step (law : Law s 0) (single : OneUser s move) {reply : Unit}
    (completed : step s move = some (reply, after)) : Law after 0 := by
  obtain ⟨r, isRoute, rest⟩ := Option.bind_eq_some_iff.mp completed
  have balanced := law.route single isRoute
  cases r with
  | done middle =>
    cases rest
    exact balanced
  | given middle pid handler p =>
    obtain ⟨last, isLast, same⟩ := Option.map_eq_some_iff.mp rest
    cases same
    exact Law.give balanced isLast

end Routes

end Xinu.NetStack
