import Xinu.RunConditions
import Xinu.UdpEndpoints

/-!
# Packets are delivered once and in order

The packets that a slot accepted are those that were taken from it and those that lie in its queue,
as many as its counter says. This holds as long as every process that `udp_in` woke finds a packet
when it runs: the packet that it was told of may have been taken by another process in between,
since the slot accepts calls again from the moment of the message.
-/

namespace Xinu.UdpEndpoints

open Messages Packets Runs

/-- The packets that were taken from a slot. -/
def takenFrom (taken : List Taken) (slot : Nat) : List Nat :=
  (taken.filter fun entry => entry.slot = slot).map Taken.buffer

/-- The queue of a slot is in order. -/
def Udpentry.InOrder (entry : Udpentry) (accepted taken : List Nat) : Prop :=
  Packets.InOrder udpQsiz entry.udqueue entry.udhead entry.udtail entry.udcount accepted taken

/-- Every registered slot is in order, and every packet that was taken or discarded was freed once. -/
def Delivers (s : System) : Prop :=
  (∀ slot, (s.udptab slot).udstate ≠ .free →
    (s.udptab slot).InOrder (s.accepted slot) (takenFrom s.taken slot)) ∧
  s.freed.Perm (s.taken.map Taken.buffer ++ s.discarded)

/-- A call returns the data of the first packet of a slot that has packets, and removes it. -/
def Removes (before after : System) (value : Int) (data : List UInt8) : Prop :=
  ∃ slot pid len, let entry := before.udptab slot
    0 < entry.udcount ∧ udpCopy (entry.udqueue entry.udhead) len = some (value, data) ∧
      after.taken = before.taken ++ [⟨slot, pid, (entry.udqueue entry.udhead).buffer⟩] ∧
      (after.udptab slot).udcount = entry.udcount - 1

/-- No slot is released. -/
def NoRelease (_ : System) : Move → Prop
  | .release _ => False
  | _ => True

/-- A process that goes on with the message `OK` finds a packet in the queue. -/
def FindsPacket (s : System) : Move → Prop
  | .goOn pid => ∀ point, s.kernel.process pid = .ready point → s.kernel.prmsg pid = some Messages.ok →
      0 < (s.udptab point.slot).udcount
  | _ => True

instance (s : System) (move : Move) : Decidable (NoRelease s move) :=
  match move with
  | .release _ => isFalse id
  | .register _ _ _ | .recv _ _ _ _ | .recvaddr _ _ _ _ | .arrive _ | .tick _ | .goOn _ => isTrue trivial

instance (s : System) (move : Move) : Decidable (FindsPacket s move) :=
  match move with
  | .goOn pid => match place : s.kernel.process pid with
    | .ready point => decidable_of_iff (s.kernel.prmsg pid = some Messages.ok → 0 < (s.udptab point.slot).udcount)
      (by simp [FindsPacket, place])
    | .idle | .waiting _ => isTrue (by simp [FindsPacket, place])
  | .register _ _ _ | .recv _ _ _ _ | .recvaddr _ _ _ _ | .arrive _ | .release _ | .tick _ => isTrue trivial

/-- What holds while no slot is released. -/
structure Law (s : System) : Prop where
  unused : ∀ slot, (s.udptab slot).udstate = .free → s.accepted slot = [] ∧ takenFrom s.taken slot = []
  inOrder : ∀ slot, (s.udptab slot).udstate ≠ .free →
    (s.udptab slot).InOrder (s.accepted slot) (takenFrom s.taken slot)
  freed : s.freed.Perm (s.taken.map Taken.buffer ++ s.discarded)
  placed : ∀ pid point, (s.kernel.process pid).point = some point →
    (s.udptab point.slot).udstate ≠ .free

section Steps

variable {s after : System} {entry : Udpentry} {pkt : NetPacket} {slot : Nat} {pid : Int} {point : Point}
  {reply : Reply} {move : Move} {accepted taken : List Nat}

theorem Law.delivers (law : Law s) : Delivers s := ⟨law.inOrder, law.freed⟩

theorem Udpentry.InOrder.count_nonneg (inOrder : entry.InOrder accepted taken) : 0 ≤ entry.udcount :=
  inOrder.bounds.1

theorem takenFrom_self {taken : List Taken} {buffer : Nat} :
    takenFrom (taken ++ [⟨slot, pid, buffer⟩]) slot = takenFrom taken slot ++ [buffer] := by
  simp [takenFrom]

theorem takenFrom_of_ne {taken : List Taken} {buffer other : Nat} (apart : other ≠ slot) :
    takenFrom (taken ++ [⟨slot, pid, buffer⟩]) other = takenFrom taken other := by
  simp [takenFrom, Ne.symm apart]

/-- The table changes in one slot that stays registered, with what was accepted and taken there. -/
theorem Law.setEntry (law : Law s) (used : (s.udptab slot).udstate ≠ .free) (stays : entry.udstate ≠ .free)
    {system : System} (udptab : system.udptab = Function.update s.udptab slot entry)
    (others : ∀ other, other ≠ slot → system.accepted other = s.accepted other ∧
      takenFrom system.taken other = takenFrom s.taken other)
    (inOrder : entry.InOrder (system.accepted slot) (takenFrom system.taken slot))
    (freed : system.freed.Perm (system.taken.map Taken.buffer ++ system.discarded))
    (points : ∀ pid point, (system.kernel.process pid).point = some point →
      (s.kernel.process pid).point = some point ∨ point.slot = slot) : Law system := by
  refine ⟨fun other isFree => ?_, fun other isUsed => ?_, freed, fun pid point isPoint => ?_⟩
  · rcases eq_or_ne other slot with rfl | apart
    · rw [udptab, Function.update_self] at isFree
      exact absurd isFree stays
    · obtain ⟨sameAccepted, sameTaken⟩ := others other apart
      rw [udptab, Function.update_of_ne apart] at isFree
      rw [sameAccepted, sameTaken]
      exact law.unused other isFree
  · rcases eq_or_ne other slot with rfl | apart
    · rw [udptab, Function.update_self]
      exact inOrder
    · obtain ⟨sameAccepted, sameTaken⟩ := others other apart
      rw [udptab, Function.update_of_ne apart] at isUsed ⊢
      rw [sameAccepted, sameTaken]
      exact law.inOrder other isUsed
  · rw [udptab]
    rcases points pid point isPoint with before | here
    · rcases eq_or_ne point.slot slot with here | apart
      · rwa [here, Function.update_self]
      · rw [Function.update_of_ne apart]
        exact law.placed pid point before
    · rwa [here, Function.update_self]

/-- A packet is accepted. -/
theorem Law.acceptPacket (law : Law s) (accepts : (s.udptab slot).accepts pkt = true) :
    Law (acceptPacket s slot pkt) := by
  obtain ⟨⟨used, _⟩, space⟩ : ((s.udptab slot).udstate ≠ .free ∧ (s.udptab slot).matches pkt = true) ∧
      (s.udptab slot).udcount < udpQsiz := by simpa [Udpentry.accepts] using accepts
  refine law.setEntry used ?_ rfl (fun other apart => ⟨?_, rfl⟩) ?_ law.freed fun pid point isPoint => Or.inl ?_
  · dsimp only
    split
    · simp
    · exact used
  · exact Function.update_of_ne apart _ _
  · have pushed := (law.inOrder _ used).push space pkt
    unfold UdpEndpoints.acceptPacket
    dsimp only
    rw [Function.update_self]
    exact pushed
  · unfold UdpEndpoints.acceptPacket at isPoint
    dsimp only at isPoint
    split at isPoint
    · rwa [send_point] at isPoint
    · exact isPoint

theorem Law.udpIn (law : Law s) (pkt : NetPacket) : Law (udpIn s pkt) := by
  unfold UdpEndpoints.udpIn
  cases found : (List.range udpSlots).find? fun slot => (s.udptab slot).accepts pkt with
  | some slot =>
    have accepts := List.find?_some found
    exact law.acceptPacket accepts
  | none =>
    refine ⟨law.unused, law.inOrder, ?_, law.placed⟩
    dsimp only
    rw [← List.append_assoc]
    exact law.freed.append_right _

/-- A slot is registered. -/
theorem Law.register (law : Law s) (remip : UInt32) (remport locport : UInt16) :
    Law (udpRegister s remip remport locport).2 := by
  unfold udpRegister
  dsimp only
  split
  · exact law
  split
  · exact law
  rename_i slot found
  have isFree : (s.udptab slot).udstate = .free := by simpa using List.find?_some found
  obtain ⟨nothing, nobody⟩ := law.unused slot isFree
  dsimp only [System.setEntry]
  refine ⟨fun other isFree => ?_, fun other isUsed => ?_, law.freed, fun pid point isPoint => ?_⟩
  · dsimp only at isFree ⊢
    rcases eq_or_ne other slot with rfl | apart
    · rw [Function.update_self] at isFree
      cases isFree
    · rw [Function.update_of_ne apart] at isFree
      exact law.unused other isFree
  · dsimp only at isUsed ⊢
    rcases eq_or_ne other slot with rfl | apart
    · rw [Function.update_self, nothing, nobody]
      exact .empty (by decide : 0 < udpQsiz)
    · rw [Function.update_of_ne apart] at isUsed ⊢
      exact law.inOrder other isUsed
  · have used := law.placed pid point isPoint
    dsimp only
    rw [Function.update_apply]
    split
    · simp
    · exact used

/-- A process takes the first packet of its slot. -/
theorem Law.takePacket (law : Law s) (used : (s.udptab point.slot).udstate ≠ .free)
    (some_ : 0 < (s.udptab point.slot).udcount) (result : takePacket s pid point = some (reply, after)) :
    Law after := by
  obtain ⟨copied, _, same⟩ := Option.map_eq_some_iff.mp result
  cases same
  have popped := (law.inOrder _ used).pop some_
  refine law.setEntry used (by simpa using used) rfl (fun other apart => ⟨rfl, ?_⟩) ?_ ?_ fun pid point isPoint =>
    Or.inl isPoint
  · exact takenFrom_of_ne apart
  · dsimp only
    rw [takenFrom_self]
    exact popped
  · dsimp only
    rw [List.map_append, List.append_assoc]
    refine (law.freed.append_right _).trans ?_
    rw [List.append_assoc]
    exact List.Perm.append_left _ List.perm_append_comm

/-- The state of a registered slot changes. -/
theorem Law.setState (law : Law s) (used : (s.udptab slot).udstate ≠ .free) {state : Udstate} {udpid : Int}
    (stays : state ≠ .free) {kernel : Kernel Point} (points : ∀ pid point,
      (kernel.process pid).point = some point → (s.kernel.process pid).point = some point ∨ point.slot = slot) :
    Law { s.setEntry slot { s.udptab slot with udstate := state, udpid := udpid } with kernel := kernel } :=
  law.setEntry used stays rfl (fun _ _ => ⟨rfl, rfl⟩) (law.inOrder _ used) law.freed points

/-- A process goes on behind its wait, and finds a packet if it was told of one. -/
theorem Law.afterWait (law : Law s) (used : (s.udptab point.slot).udstate ≠ .free) {msg : UInt32}
    (some_ : msg = Messages.ok → 0 < (s.udptab point.slot).udcount)
    (result : afterWait s pid point msg = some (reply, after)) : Law after := by
  have idle : Law (s.setEntry point.slot { s.udptab point.slot with udstate := .used }) :=
    law.setState used (by simp) fun _ _ isPoint => Or.inl isPoint
  unfold UdpEndpoints.afterWait at result
  dsimp only at result
  split at result
  · cases result
    exact idle
  · split at result
    · cases result
      exact idle
    · rename_i isOk
      refine idle.takePacket (by simp) ?_ result
      rw [setEntry_self]
      exact some_ (not_not.mp isOk)

/-- A process calls `udp_recv` or `udp_recvaddr`. -/
theorem Law.receive (law : Law s) {sender : Bool} {slot len : Int} {wait : UInt32}
    (result : receive sender s pid slot len wait = some (reply, after)) : Law after := by
  unfold UdpEndpoints.receive at result
  split at result
  · cases result
    exact law
  · dsimp only at result
    split at result
    · cases result
      exact law
    · rename_i isUsed
      have used : (s.udptab slot.toNat).udstate ≠ .free := by
        rw [not_not.mp isUsed]
        simp
      split at result
      · obtain waits | returned := recvtime_cleared s.kernel pid
          (⟨slot.toNat, len, sender, s.number slot.toNat⟩ : Point) wait.toInt32
        · rw [setEntry_kernel, waits] at result
          cases result
          refine law.setState used (by simp) fun this point isPoint => ?_
          rcases eq_or_ne this pid with rfl | apart
          · rw [place_self] at isPoint
            cases isPoint
            exact Or.inr rfl
          · rw [place_of_ne apart] at isPoint
            exact Or.inl isPoint
        · rw [setEntry_kernel, returned] at result
          have asked : Law { s.setEntry slot.toNat { s.udptab slot.toNat with udstate := .recv, udpid := pid } with
              kernel := recvclr s.kernel pid } :=
            law.setState used (by simp) fun _ _ isPoint => Or.inl isPoint
          refine asked.afterWait ?_ (fun isOk => ?_) result
          · simp
          · cases isOk
      · rename_i nonzero
        have count := (law.inOrder _ used).count_nonneg
        exact @Law.takePacket _ _ _ ⟨slot.toNat, len, sender, s.number slot.toNat⟩ _ law used
          (by show 0 < (s.udptab slot.toNat).udcount; lia) result

/-- A process that goes on was at a point of a registered slot. -/
theorem step_goOn (completed : step s (.goOn pid) = some (reply, after)) :
    ∃ point, s.kernel.process pid = .ready point ∧
      afterWait { s with kernel := (recvtimeEnd s.kernel pid).2 } pid point (recvtimeEnd s.kernel pid).1 =
        some (reply, after) := by
  simp only [step] at completed
  split at completed
  case h_1 point ready => exact ⟨point, ready, completed⟩
  all_goals cases completed

theorem step_begin {call : Option (Reply × System)} (completed : begin_ s pid call = some (reply, after)) :
    call = some (reply, after) := by
  unfold begin_ at completed
  split at completed
  · exact completed
  · cases completed

/-- The law does not depend on the messages. -/
theorem Law.ended (law : Law s) (pid : Int) : Law { s with kernel := (recvtimeEnd s.kernel pid).2 } := by
  refine ⟨law.unused, law.inOrder, law.freed, fun this point isPoint => law.placed this point ?_⟩
  unfold recvtimeEnd at isPoint
  dsimp only at isPoint
  rw [recvclr_process] at isPoint
  rcases eq_or_ne this pid with rfl | apart
  · rw [place_self] at isPoint
    cases isPoint
  · rwa [place_of_ne apart] at isPoint

/-- Every move at which a process finds the packet it was told of keeps the law. -/
theorem law_preserved (before : System) (move : Move) (reply : Reply) (after : System) (law : Law before)
    (kept : NoRelease before move) (finds : FindsPacket before move)
    (completed : step before move = some (reply, after)) : Law after := by
  cases move with
  | register remip remport locport =>
    cases completed
    exact law.register remip remport locport
  | recv pid slot len wait => exact law.receive (step_begin completed)
  | recvaddr pid slot len wait => exact law.receive (step_begin completed)
  | arrive pkt =>
    cases completed
    exact law.udpIn pkt
  | release slot => exact absurd kept id
  | tick pid =>
    cases completed
    refine ⟨law.unused, law.inOrder, law.freed, fun this point isPoint => law.placed this point ?_⟩
    rwa [tick_point] at isPoint
  | goOn pid =>
    obtain ⟨point, ready, result⟩ := step_goOn completed
    have used := law.placed pid point (by rw [ready]; rfl)
    exact (law.ended pid).afterWait used (fun isOk => finds point ready (recvtimeEnd_ok_iff.mp isOk)) result

/-- A process that finds no packet takes one all the same. -/
theorem taken_from_nothing (law : Law s) (missing : ¬ FindsPacket s move)
    (completed : step s move = some (reply, after)) : ¬ Delivers after := by
  cases move with
  | goOn pid =>
    obtain ⟨point, ready, isOk, empty⟩ : ∃ point, s.kernel.process pid = .ready point ∧
        s.kernel.prmsg pid = some Messages.ok ∧ ¬ 0 < (s.udptab point.slot).udcount := by
      simpa [FindsPacket] using missing
    obtain ⟨this, isPoint, result⟩ := step_goOn completed
    cases ready.symm.trans isPoint
    have used := law.placed pid point (by rw [ready]; rfl)
    have count := (law.inOrder _ used).count_nonneg
    rw [recvtimeEnd_ok_iff.mpr isOk] at result
    obtain ⟨copied, _, same⟩ := Option.map_eq_some_iff.mp result
    cases same
    rintro ⟨inOrder, _⟩
    have below := (inOrder point.slot (by simp)).count_nonneg
    simp only [setEntry_self] at below
    omega
  | release slot => exact absurd trivial missing
  | _ => exact absurd trivial missing

theorem takePacket_removes {value : Int} {data : List UInt8} {sender : Option (UInt32 × UInt16)}
    (some_ : 0 < (s.udptab point.slot).udcount)
    (result : takePacket s pid point = some (.delivers value data sender, after)) :
    Removes s after value data := by
  obtain ⟨copied, isCopied, same⟩ := Option.map_eq_some_iff.mp result
  cases same
  exact ⟨point.slot, pid, point.len, some_, isCopied, rfl, by simp⟩

theorem afterWait_removes {msg : UInt32} {value : Int} {data : List UInt8} {sender : Option (UInt32 × UInt16)}
    (some_ : msg = Messages.ok → 0 < (s.udptab point.slot).udcount)
    (result : afterWait s pid point msg = some (.delivers value data sender, after)) :
    Removes s after value data := by
  unfold afterWait at result
  dsimp only at result
  split at result
  · cases result
  · split at result
    · cases result
    · rename_i isOk
      obtain ⟨copied, isCopied, same⟩ := Option.map_eq_some_iff.mp result
      cases same
      simp only [setEntry_self] at isCopied
      exact ⟨point.slot, pid, point.len, some_ (not_not.mp isOk), isCopied, by simp, by simp⟩

theorem receive_removes (law : Law s) {wantsSender : Bool} {slot len : Int} {wait : UInt32} {value : Int}
    {data : List UInt8} {sender : Option (UInt32 × UInt16)}
    (result : receive wantsSender s pid slot len wait = some (.delivers value data sender, after)) :
    Removes s after value data := by
  unfold receive at result
  split at result
  · cases result
  dsimp only at result
  split at result
  · cases result
  rename_i isUsed
  split at result
  · obtain waits | returned := recvtime_cleared s.kernel pid
      (⟨slot.toNat, len, wantsSender, s.number slot.toNat⟩ : Point) wait.toInt32
    · rw [setEntry_kernel, waits] at result
      cases result
    · rw [setEntry_kernel, returned] at result
      cases result
  · rename_i nonzero
    have used : (s.udptab slot.toNat).udstate ≠ .free := by
      rw [not_not.mp isUsed]
      simp
    have count := (law.inOrder _ used).count_nonneg
    exact @takePacket_removes _ _ _ ⟨slot.toNat, len, wantsSender, s.number slot.toNat⟩ _ _ _
      (by show 0 < (s.udptab slot.toNat).udcount; omega) result

/-- Data is returned by removing a packet. -/
theorem step_removes (law : Law s) (finds : FindsPacket s move) {value : Int} {data : List UInt8}
    {sender : Option (UInt32 × UInt16)} (completed : step s move = some (.delivers value data sender, after)) :
    Removes s after value data := by
  cases move with
  | recv pid slot len wait => exact receive_removes law (step_begin completed)
  | recvaddr pid slot len wait => exact receive_removes law (step_begin completed)
  | goOn pid =>
    obtain ⟨point, ready, result⟩ := step_goOn completed
    exact afterWait_removes (s := { s with kernel := (recvtimeEnd s.kernel pid).2 })
      (fun isOk => finds point ready (recvtimeEnd_ok_iff.mp isOk)) result
  | register remip remport locport => cases completed
  | arrive pkt => cases completed
  | release slot => cases completed
  | tick pid => cases completed

end Steps

theorem udpInit_law (prmsg : Int → Option UInt32) (udptab : Nat → Udpentry) : Law (udpInit prmsg udptab) :=
  ⟨fun _ _ => ⟨rfl, rfl⟩, fun _ used => absurd rfl used, List.Perm.refl _, fun _ _ isPoint => by cases isPoint⟩

/-- In a run without `udp_release`, the packets that every registered slot accepted are those that were
taken from it, in order, and those in its queue, as many as its counter says, and every packet that was
taken or discarded was freed once: this holds all along just when every process that was woken by
`udp_in` finds a packet when it goes on. Then data is returned only by removing a packet that is in the
queue. -/
theorem packets_are_delivered_once (prmsg : Int → Option UInt32) (udptab : Nat → Udpentry)
    (events : List (Event System Move Reply)) (last : System)
    (run : Run step (udpInit prmsg udptab) events last) (kept : Meets NoRelease events) :
    ((∀ event ∈ events, Delivers event.after) ↔ Meets FindsPacket events) ∧
    (Meets FindsPacket events → ∀ event ∈ events, ∀ value data sender,
      event.reply = .delivers value data sender → Removes event.before event.after value data) := by
  refine ⟨?_, fun finds event member value data sender isReply => ?_⟩
  · exact good_iff_meets Law Delivers NoRelease FindsPacket law_preserved (fun _ => Law.delivers)
      (fun _ _ _ _ => taken_from_nothing) _ _ _ run kept (udpInit_law prmsg udptab)
  · obtain ⟨law, _, completed⟩ := invariant_events Law (fun s move => NoRelease s move ∧ FindsPacket s move)
      (fun before move reply after law both => law_preserved before move reply after law both.1 both.2)
      _ _ _ run (udpInit_law prmsg udptab) (fun event member => ⟨kept event member, finds event member⟩)
      event member
    rw [isReply] at completed
    exact step_removes law (finds event member) completed

/-- A datagram of one byte for port 7, from port 8 of some host, as `ip_in` hands it to `udp_in`. -/
def smallDatagram (buffer : Nat) : NetPacket where
  buffer := buffer
  bytes := fun k => if k = 34 then 8 else if k = 36 then 7 else if k = 38 then 9 else if k = 42 then 65 else 0

/-- An unused table. -/
def unusedTable : Nat → Udpentry := fun _ => ⟨.free, 0, 0, 0, 0, 0, 0, 0, fun _ => smallDatagram 0⟩

/-- A process waits for a packet and gets it. -/
theorem waiting_process_gets_packet : ∃ events last, Run step (udpInit (fun _ => none) unusedTable) events last ∧
    (∀ event ∈ events, Delivers event.after) ∧ last.taken = [⟨0, 3, 10⟩] := by
  obtain ⟨events, last, run, checked⟩ := trace_exists step (udpInit (fun _ => none) unusedTable)
    [.register 0 0 7, .recv 3 0 100 1000, .arrive (smallDatagram 10), .goOn 3]
    (fun events (last : System) => decide (last.taken = [⟨0, 3, 10⟩] ∧ ∀ event ∈ events,
      NoRelease event.before event.call ∧ FindsPacket event.before event.call)) (by decide +kernel)
  obtain ⟨taken, conditions⟩ := of_decide_eq_true checked
  exact ⟨events, last, run, (packets_are_delivered_once _ _ events last run
    fun event member => (conditions event member).1).1.mpr fun event member => (conditions event member).2, taken⟩

/-- A process is told of a packet that another process takes first: it takes a packet that is not in the
queue, and leaves the counter below zero. -/
theorem woken_process_finds_nothing : ∃ events last, Run step (udpInit (fun _ => none) unusedTable) events last ∧
    Meets NoRelease events ∧ (last.udptab 0).udcount = -1 ∧ last.freed = [10, 0] ∧ ¬ Delivers last := by
  obtain ⟨events, last, run, checked⟩ := trace_exists step (udpInit (fun _ => none) unusedTable)
    [.register 0 0 7, .recv 3 0 100 1000, .arrive (smallDatagram 10), .recv 4 0 100 1000, .goOn 3]
    (fun events (last : System) => decide ((∀ event ∈ events, NoRelease event.before event.call) ∧
      (last.udptab 0).udcount = -1 ∧ last.freed = [10, 0] ∧ (last.udptab 0).udstate = .used)) (by decide +kernel)
  obtain ⟨kept, count, freed, used⟩ := of_decide_eq_true checked
  refine ⟨events, last, run, kept, count, freed, fun delivers => ?_⟩
  have below := (delivers.1 0 (by rw [used]; simp)).count_nonneg
  omega

end Xinu.UdpEndpoints
