import Xinu.UdpDelivery

/-!
# Released slots

A slot that was released is free until it is registered again. This fails when a receiver goes on
that began to wait before the release: it writes the state of the slot before it looks at its
message, and with the message `OK` it takes a packet. Such a receiver does no harm just when the slot
is registered again, nobody waits for it, and the message is another one.
-/

namespace Xinu.UdpEndpoints

open Messages Packets Runs

/-- A slot is allocated by a registration. -/
def Allocates (event : Event System Move Reply) (slot : Nat) : Prop :=
  ∃ remip remport locport, event.call = .register remip remport locport ∧ event.reply = .returns slot

/-- A free slot stays free unless it is allocated, a released slot is free, and a receiver that began to
wait under another registration of its slot neither changes the state of the slot nor takes a packet. -/
structure StaysReleased (event : Event System Move Reply) : Prop where
  unallocated : ∀ slot, (event.before.udptab slot).udstate = .free →
    (event.after.udptab slot).udstate = .free ∨ Allocates event slot
  released : ∀ slot, event.call = .release slot → event.reply = .returns ok →
    (event.after.udptab slot.toNat).udstate = .free
  harmless : ∀ pid point, event.call = .goOn pid → event.before.kernel.process pid = .ready point →
    point.number ≠ event.before.number point.slot →
    (event.after.udptab point.slot).udstate = (event.before.udptab point.slot).udstate ∧
      event.after.taken = event.before.taken

/-- A receiver that began to wait under another registration goes on only when its slot is registered
and nobody waits for it, and without the message `OK`. -/
def Current (s : System) : Move → Prop
  | .goOn pid => ∀ point, s.kernel.process pid = .ready point → point.number ≠ s.number point.slot →
      (s.udptab point.slot).udstate = .used ∧ s.kernel.prmsg pid ≠ some Messages.ok
  | _ => True

instance (s : System) (move : Move) : Decidable (Current s move) :=
  match move with
  | .goOn pid => match place : s.kernel.process pid with
    | .ready point => decidable_of_iff (point.number ≠ s.number point.slot →
        (s.udptab point.slot).udstate = .used ∧ s.kernel.prmsg pid ≠ some Messages.ok)
      (by simp [Current, place])
    | .idle | .waiting _ => isTrue (by simp [Current, place])
  | .register _ _ _ | .recv _ _ _ _ | .recvaddr _ _ _ _ | .arrive _ | .release _ | .tick _ => isTrue trivial

/-- The slot of a receiver that waits under its present number is registered. -/
structure Registered (s : System) : Prop where
  bounded : ∀ pid point, (s.kernel.process pid).point = some point → point.number ≤ s.number point.slot
  inUse : ∀ pid point, (s.kernel.process pid).point = some point → point.number = s.number point.slot →
    (s.udptab point.slot).udstate ≠ .free

/-- A call changes one slot and leaves it registered; who begins to wait waits for this slot. -/
structure Works (s after : System) (slot : Nat) : Prop where
  number : after.number = s.number
  inUse : (after.udptab slot).udstate ≠ .free
  others : ∀ other, other ≠ slot → after.udptab other = s.udptab other
  points : ∀ pid point, (after.kernel.process pid).point = some point →
    (s.kernel.process pid).point = some point ∨ point.slot = slot ∧ point.number = s.number slot

section Steps

variable {s after : System} {slot : Nat} {pid : Int} {point : Point} {reply : Reply} {move : Move}

theorem Registered.works (law : Registered s) (works : Works s after slot) : Registered after := by
  refine ⟨fun pid point isPoint => ?_, fun pid point isPoint present => ?_⟩
  · rw [works.number]
    rcases works.points pid point isPoint with before | ⟨here, number⟩
    · exact law.bounded pid point before
    · rw [here, number]
  · by_cases here : point.slot = slot
    · rw [here]
      exact works.inUse
    · rcases works.points pid point isPoint with before | ⟨there, _⟩
      · rw [works.others _ here]
        exact law.inUse pid point before (works.number ▸ present)
      · exact absurd there here

/-- The number of a slot grows, and its old receivers are no longer present. -/
theorem Registered.bump (law : Registered s) (kernel : after.kernel = s.kernel)
    (number : after.number = Function.update s.number slot (s.number slot + 1))
    (others : ∀ other, other ≠ slot → after.udptab other = s.udptab other) : Registered after := by
  refine ⟨fun pid point isPoint => ?_, fun pid point isPoint present => ?_⟩
  · rw [kernel] at isPoint
    have bound := law.bounded pid point isPoint
    rw [number, Function.update_apply]
    split
    · rename_i here
      rw [here] at bound
      omega
    · exact bound
  · rw [kernel] at isPoint
    have bound := law.bounded pid point isPoint
    rw [number, Function.update_apply] at present
    split at present
    · rename_i here
      rw [here] at bound
      omega
    · rename_i apart
      rw [others _ apart]
      exact law.inUse pid point isPoint present

/-- `takePacket` takes one packet and changes no state. -/
theorem takePacket_spec (result : takePacket s pid point = some (reply, after)) :
    after.kernel = s.kernel ∧ after.number = s.number ∧
      (after.udptab point.slot).udstate = (s.udptab point.slot).udstate ∧
      (∀ other, other ≠ point.slot → after.udptab other = s.udptab other) ∧ after.taken ≠ s.taken := by
  obtain ⟨copied, _, same⟩ := Option.map_eq_some_iff.mp result
  cases same
  exact ⟨rfl, rfl, by simp, fun other apart => setEntry_of_ne apart, by simp⟩

/-- Behind the wait the slot is used, and a packet is taken just with the message `OK`. -/
theorem afterWait_spec {msg : UInt32} (result : afterWait s pid point msg = some (reply, after)) :
    after.kernel = s.kernel ∧ after.number = s.number ∧ (after.udptab point.slot).udstate = .used ∧
      (∀ other, other ≠ point.slot → after.udptab other = s.udptab other) ∧
      (after.taken = s.taken ↔ msg ≠ Messages.ok) := by
  unfold afterWait at result
  dsimp only at result
  split at result
  · rename_i isTimeout
    cases result
    refine ⟨rfl, rfl, by simp, fun other apart => setEntry_of_ne apart, iff_of_true rfl ?_⟩
    rw [isTimeout]
    decide
  · split at result
    · rename_i different
      cases result
      exact ⟨rfl, rfl, by simp, fun other apart => setEntry_of_ne apart, iff_of_true rfl different⟩
    · rename_i isOk
      obtain ⟨kernel, number, state, others, taken⟩ := takePacket_spec result
      refine ⟨kernel, number, by simpa using state, fun other apart => ?_, iff_of_false taken isOk⟩
      exact (others other apart).trans (setEntry_of_ne apart)

/-- `udp_recv` and `udp_recvaddr` do nothing, or work on a slot that is used. -/
theorem receive_spec {sender : Bool} {slot len : Int} {wait : UInt32}
    (result : receive sender s pid slot len wait = some (reply, after)) :
    after = s ∨ ∃ index, (s.udptab index).udstate = .used ∧ Works s after index := by
  unfold receive at result
  split at result
  · cases result
    exact Or.inl rfl
  dsimp only at result
  split at result
  · cases result
    exact Or.inl rfl
  rename_i isUsed
  have used : (s.udptab slot.toNat).udstate = .used := not_not.mp isUsed
  refine Or.inr ⟨slot.toNat, used, ?_⟩
  split at result
  · obtain waits | returned := recvtime_cleared s.kernel pid
      (⟨slot.toNat, len, sender, s.number slot.toNat⟩ : Point) wait.toInt32
    · rw [setEntry_kernel, waits] at result
      cases result
      refine ⟨rfl, by simp, fun other apart => setEntry_of_ne apart, fun this point isPoint => ?_⟩
      dsimp only at isPoint
      rcases eq_or_ne this pid with rfl | apart
      · rw [place_self] at isPoint
        cases isPoint
        exact Or.inr ⟨rfl, rfl⟩
      · rw [place_of_ne apart] at isPoint
        exact Or.inl isPoint
    · rw [setEntry_kernel, returned] at result
      obtain ⟨kernel, number, state, others, _⟩ := afterWait_spec result
      refine ⟨number, by simpa using congrArg (· ≠ Udstate.free) state, fun other apart => ?_,
        fun this point isPoint => Or.inl ?_⟩
      · exact (others other apart).trans (setEntry_of_ne apart)
      · rwa [kernel] at isPoint
  · obtain ⟨kernel, number, state, others, _⟩ := takePacket_spec result
    refine ⟨number, ?_, others, fun this point isPoint => Or.inl (kernel ▸ isPoint)⟩
    rw [state, used]
    simp

/-- `udp_in` discards the packet, or works on a slot that is registered. -/
theorem udpIn_spec (s : System) (pkt : NetPacket) :
    (udpIn s pkt).udptab = s.udptab ∧ (udpIn s pkt).number = s.number ∧ (udpIn s pkt).kernel = s.kernel ∨
      ∃ slot, (s.udptab slot).udstate ≠ .free ∧ Works s (udpIn s pkt) slot := by
  unfold udpIn
  cases found : (List.range udpSlots).find? fun slot => (s.udptab slot).accepts pkt with
  | none => exact Or.inl ⟨rfl, rfl, rfl⟩
  | some slot =>
    have accepts := List.find?_some found
    have used : (s.udptab slot).udstate ≠ .free := by
      intro isFree
      simp [Udpentry.accepts, isFree] at accepts
    refine Or.inr ⟨slot, used, rfl, ?_, fun other apart => setEntry_of_ne apart, fun this point isPoint =>
      Or.inl ?_⟩
    · unfold acceptPacket
      simp only [System.setEntry, Function.update_self]
      split
      · simp
      · exact used
    · unfold acceptPacket at isPoint
      dsimp only at isPoint
      split at isPoint
      · rwa [send_point] at isPoint
      · exact isPoint

/-- `udp_register` fails and does nothing, or allocates a free slot. -/
theorem udpRegister_spec (s : System) (remip : UInt32) (remport locport : UInt16) :
    (udpRegister s remip remport locport).2 = s ∨ ∃ slot : Nat,
      (udpRegister s remip remport locport).1 = slot ∧
      (udpRegister s remip remport locport).2.kernel = s.kernel ∧
      (udpRegister s remip remport locport).2.number = Function.update s.number slot (s.number slot + 1) ∧
      ∀ other, other ≠ slot → (udpRegister s remip remport locport).2.udptab other = s.udptab other := by
  unfold udpRegister
  dsimp only
  split
  · exact Or.inl rfl
  split
  · exact Or.inl rfl
  rename_i slot _
  exact Or.inr ⟨slot, rfl, rfl, rfl, fun other apart => setEntry_of_ne apart⟩

/-- `udp_release` fails and does nothing, or frees the slot. -/
theorem udpRelease_spec (s : System) (slot : Int) :
    udpRelease s slot = (syserr, s) ∨
      ((udpRelease s slot).2.udptab slot.toNat).udstate = .free ∧
      (udpRelease s slot).2.kernel = s.kernel ∧
      (udpRelease s slot).2.number = Function.update s.number slot.toNat (s.number slot.toNat + 1) ∧
      ∀ other, other ≠ slot.toNat → (udpRelease s slot).2.udptab other = s.udptab other := by
  unfold udpRelease
  split
  · exact Or.inl rfl
  dsimp only
  split
  · exact Or.inl rfl
  exact Or.inr ⟨by simp [System.setEntry], rfl, rfl, fun other apart => setEntry_of_ne apart⟩

/-- A process that goes on works on its slot. -/
theorem goOn_works (completed : step s (.goOn pid) = some (reply, after))
    (ready : s.kernel.process pid = .ready point) : Works s after point.slot := by
  obtain ⟨this, isPoint, result⟩ := step_goOn completed
  cases ready.symm.trans isPoint
  obtain ⟨kernel, number, state, others, _⟩ := afterWait_spec result
  refine ⟨number, by simp [state], others, fun other point isPoint => Or.inl ?_⟩
  rw [kernel] at isPoint
  unfold recvtimeEnd at isPoint
  dsimp only at isPoint
  rw [recvclr_process] at isPoint
  rcases eq_or_ne other pid with rfl | apart
  · rw [place_self] at isPoint
    cases isPoint
  · rwa [place_of_ne apart] at isPoint

theorem step_register {remip : UInt32} {remport locport : UInt16}
    (completed : step s (.register remip remport locport) = some (reply, after)) :
    Reply.returns (udpRegister s remip remport locport).1 = reply ∧
      (udpRegister s remip remport locport).2 = after := by
  simpa [step] using completed

theorem step_release {slot : Int} (completed : step s (.release slot) = some (reply, after)) :
    Reply.returns (udpRelease s slot).1 = reply ∧ (udpRelease s slot).2 = after := by
  simpa [step] using completed

/-- Every move keeps the law. -/
theorem registered_preserved (before : System) (move : Move) (reply : Reply) (after : System)
    (law : Registered before) (completed : step before move = some (reply, after)) : Registered after := by
  cases move with
  | register remip remport locport =>
    obtain ⟨_, rfl⟩ := step_register completed
    rcases udpRegister_spec before remip remport locport with same | ⟨slot, _, kernel, number, others⟩
    · rwa [same]
    · exact law.bump kernel number others
  | recv pid slot len wait =>
    rcases receive_spec (step_begin completed) with rfl | ⟨index, _, works⟩
    · exact law
    · exact law.works works
  | recvaddr pid slot len wait =>
    rcases receive_spec (step_begin completed) with rfl | ⟨index, _, works⟩
    · exact law
    · exact law.works works
  | arrive pkt =>
    cases completed
    rcases udpIn_spec before pkt with ⟨udptab, number, kernel⟩ | ⟨slot, _, works⟩
    · refine ⟨fun pid point isPoint => ?_, fun pid point isPoint => ?_⟩
      · rw [number]
        exact law.bounded pid point (kernel ▸ isPoint)
      · rw [number, udptab]
        exact law.inUse pid point (kernel ▸ isPoint)
    · exact law.works works
  | release slot =>
    obtain ⟨_, rfl⟩ := step_release completed
    rcases udpRelease_spec before slot with same | ⟨_, kernel, number, others⟩
    · rwa [same]
    · exact law.bump kernel number others
  | tick pid =>
    cases completed
    refine ⟨fun this point isPoint => law.bounded this point ?_, fun this point isPoint => law.inUse this point ?_⟩
    · rwa [tick_point] at isPoint
    · rwa [tick_point] at isPoint
  | goOn pid =>
    obtain ⟨point, ready, _⟩ := step_goOn completed
    exact law.works (goOn_works completed ready)

/-- A slot stays free beside the slot that a call works on, when this one is registered. -/
theorem Works.unallocated (works : Works s after slot) (used : (s.udptab slot).udstate ≠ .free) {other : Nat}
    (isFree : (s.udptab other).udstate = .free) : (after.udptab other).udstate = .free := by
  have apart : other ≠ slot := by
    rintro rfl
    exact used isFree
  rwa [works.others other apart]

/-- A receiver that goes on does no harm just when it is current. -/
theorem goOn_harmless_iff (law : Registered s) (completed : step s (.goOn pid) = some (reply, after)) :
    StaysReleased ⟨s, .goOn pid, reply, after⟩ ↔ Current s (.goOn pid) := by
  obtain ⟨point, ready, result⟩ := step_goOn completed
  have works := goOn_works completed ready
  obtain ⟨_, _, state, _, taken⟩ := afterWait_spec result
  rw [Ne, recvtimeEnd_ok_iff] at taken
  dsimp only at taken
  constructor
  · intro stays other isOther stale
    cases ready.symm.trans isOther
    obtain ⟨sameState, sameTaken⟩ := stays.harmless pid point rfl ready stale
    exact ⟨sameState.symm.trans state, taken.mp sameTaken⟩
  · intro current
    have used : (s.udptab point.slot).udstate ≠ .free := by
      by_cases present : point.number = s.number point.slot
      · exact law.inUse pid point (by rw [ready]; rfl) present
      · rw [(current point ready present).1]
        simp
    refine ⟨fun slot isFree => Or.inl (works.unallocated used isFree), fun slot isRelease => (by cases isRelease),
      fun this other isCall isOther stale => ?_⟩
    cases isCall
    cases ready.symm.trans isOther
    obtain ⟨isUsed, notOk⟩ := current point ready stale
    exact ⟨state.trans isUsed.symm, taken.mpr notOk⟩

/-- Moves other than going on keep the released slots as they are. -/
theorem StaysReleased.of_unallocated (event : Event System Move Reply)
    (unallocated : ∀ slot, (event.before.udptab slot).udstate = .free →
      (event.after.udptab slot).udstate = .free ∨ Allocates event slot)
    (notReleased : ∀ slot, event.call ≠ .release slot) (notOn : ∀ pid, event.call ≠ .goOn pid) :
    StaysReleased event :=
  ⟨unallocated, fun slot isRelease => absurd isRelease (notReleased slot),
    fun pid _ isOn => absurd isOn (notOn pid)⟩

/-- Every move keeps the released slots as they are just when it is current. -/
theorem stays_released_iff (law : Registered s) (completed : step s move = some (reply, after)) :
    StaysReleased ⟨s, move, reply, after⟩ ↔ Current s move := by
  cases move with
  | register remip remport locport =>
    obtain ⟨rfl, rfl⟩ := step_register completed
    refine iff_of_true (.of_unallocated _ (fun slot isFree => ?_) (by simp) (by simp)) trivial
    rcases udpRegister_spec s remip remport locport with same | ⟨index, value, _, _, others⟩
    · refine Or.inl ?_
      dsimp only
      rwa [same]
    · rcases eq_or_ne slot index with rfl | apart
      · exact Or.inr ⟨remip, remport, locport, rfl, congrArg Reply.returns value⟩
      · exact Or.inl ((congrArg Udpentry.udstate (others slot apart)).trans isFree)
  | recv pid slot len wait =>
    refine iff_of_true (.of_unallocated _ (fun slot isFree => Or.inl ?_) (by simp) (by simp)) trivial
    rcases receive_spec (step_begin completed) with rfl | ⟨index, used, works⟩
    · exact isFree
    · exact works.unallocated (by simp [used]) isFree
  | recvaddr pid slot len wait =>
    refine iff_of_true (.of_unallocated _ (fun slot isFree => Or.inl ?_) (by simp) (by simp)) trivial
    rcases receive_spec (step_begin completed) with rfl | ⟨index, used, works⟩
    · exact isFree
    · exact works.unallocated (by simp [used]) isFree
  | arrive pkt =>
    cases completed
    refine iff_of_true (.of_unallocated _ (fun slot isFree => Or.inl ?_) (by simp) (by simp)) trivial
    rcases udpIn_spec s pkt with ⟨same, _, _⟩ | ⟨index, used, works⟩
    · exact same ▸ isFree
    · exact works.unallocated used isFree
  | release slot =>
    obtain ⟨rfl, rfl⟩ := step_release completed
    refine iff_of_true ⟨fun other isFree => Or.inl ?_, fun this isRelease isOk => ?_, by simp⟩ trivial
    · rcases udpRelease_spec s slot with same | ⟨freed, _, _, others⟩
      · dsimp only
        rwa [same]
      · rcases eq_or_ne other slot.toNat with rfl | apart
        · exact freed
        · exact (congrArg Udpentry.udstate (others other apart)).trans isFree
    · cases isRelease
      rcases udpRelease_spec s slot with same | ⟨freed, _, _, _⟩
      · rw [same] at isOk
        cases isOk
      · exact freed
  | tick pid =>
    cases completed
    exact iff_of_true (.of_unallocated _ (fun slot isFree => Or.inl isFree) (by simp) (by simp)) trivial
  | goOn pid => exact goOn_harmless_iff law completed

end Steps

/-- In every run, the moves that keep every released slot free until it is allocated again, and that
spare a new registration the receivers of an old one, are those at which no receiver goes on that began to
wait under another registration, unless its slot is registered, nobody waits for the slot, and the message
is not `OK`. -/
theorem released_slot_stays_released (prmsg : Int → Option UInt32) (udptab : Nat → Udpentry)
    (events : List (Event System Move Reply)) (last : System)
    (run : Run step (udpInit prmsg udptab) events last) :
    ∀ event ∈ events, StaysReleased event ↔ Current event.before event.call := by
  intro event member
  obtain ⟨law, _, completed⟩ := invariant_events Registered (fun _ _ => True)
    (fun before move reply after law _ => registered_preserved before move reply after law)
    _ _ _ run ⟨by simp [udpInit, Process.point], by simp [udpInit, Process.point]⟩ (fun _ _ => trivial) event member
  exact stays_released_iff law completed

/-- A receiver that waits is told of a packet and takes it, and the slot is released behind that. -/
theorem slot_is_released_after_the_packet : ∃ events last,
    Run step (udpInit (fun _ => none) unusedTable) events last ∧
    (∀ event ∈ events, StaysReleased event) ∧ (last.udptab 0).udstate = .free := by
  obtain ⟨events, last, run, checked⟩ := trace_exists step (udpInit (fun _ => none) unusedTable)
    [.register 0 0 7, .recv 3 0 100 1000, .arrive (smallDatagram 10), .goOn 3, .release 0]
    (fun events (last : System) => decide ((∀ event ∈ events, Current event.before event.call) ∧
      (last.udptab 0).udstate = .free)) (by decide +kernel)
  obtain ⟨current, isFree⟩ := of_decide_eq_true checked
  exact ⟨events, last, run, fun event member =>
    (released_slot_stays_released _ _ events last run event member).mpr (current event member), isFree⟩

/-- A slot is released while a receiver waits; when the time of the receiver is over, it marks the slot as
used again. -/
theorem waiting_receiver_revives_slot : ∃ events last,
    Run step (udpInit (fun _ => none) unusedTable) events last ∧
    (∃ event ∈ events, event.reply = .returns ok ∧ (event.after.udptab 0).udstate = .free) ∧
    (last.udptab 0).udstate = .used ∧ ∃ event ∈ events, ¬ StaysReleased event := by
  obtain ⟨events, last, run, checked⟩ := trace_exists step (udpInit (fun _ => none) unusedTable)
    [.register 0 0 7, .recv 3 0 100 1000, .release 0, .tick 3, .goOn 3]
    (fun events (last : System) => decide ((∃ event ∈ events, event.reply = .returns ok ∧
        (event.after.udptab 0).udstate = .free) ∧ (last.udptab 0).udstate = .used ∧
      ∃ event ∈ events, event.reply = .returns timeout ∧ (event.before.udptab 0).udstate = .free ∧
        (event.after.udptab 0).udstate = .used)) (by decide +kernel)
  obtain ⟨released, used, event, member, isReply, before, after⟩ := of_decide_eq_true checked
  refine ⟨events, last, run, released, used, event, member, fun stays => ?_⟩
  rcases stays.unallocated 0 before with isFree | ⟨_, _, _, _, isReturn⟩
  · rw [after] at isFree
    cases isFree
  · rw [isReply] at isReturn
    cases isReturn

end Xinu.UdpEndpoints
