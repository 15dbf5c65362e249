import Xinu.Arp

/-!
# Answers of the ARP cache

An entry that is resolved holds the addresses of a packet that was received, and no address has two entries:
both hold in every run. The answer of `arp_resolve` is one of these only when the process still finds its
entry resolved for its address. Any message counts as the answer, and an entry that was resolved may be
taken for another address before the process runs.
-/

namespace Xinu.Arp

open Packets Messages Runs

/-- What holds in every run. -/
structure Law (s : System) : Prop where
  unique : Unique s
  filled : ∀ slot, (s.arpcache slot).arstate = .resolved →
    ((s.arpcache slot).arpaddr, (s.arpcache slot).arhaddr) ∈ s.received

section Steps

variable {s after : System} {slot : Nat} {entry : Arpentry} {pid : Int} {point : Point} {reply : Reply}
  {address : UInt32} {move : Move}

theorem setEntry_setEntry {first : Arpentry} :
    (s.setEntry slot first).setEntry slot entry = s.setEntry slot entry := by
  simp [System.setEntry]

/-- The law is about the cache and what was received. -/
theorem Law.withKernel (law : Law s) (kernel : Kernel Point) : Law { s with kernel := kernel } :=
  ⟨law.unique, law.filled⟩

theorem Law.receive (law : Law s) (sender : UInt32 × List UInt8) :
    Law { s with received := s.received ++ [sender] } :=
  ⟨law.unique, fun slot isResolved => List.mem_append_left _ (law.filled slot isResolved)⟩

/-- An entry changes to an address that no other entry has. -/
theorem Law.setEntry (law : Law s) (fresh : entry.arstate ≠ .free → ∀ other < arpSiz, other ≠ slot →
      (s.arpcache other).arstate ≠ .free → (s.arpcache other).arpaddr ≠ entry.arpaddr)
    (filled : entry.arstate = .resolved → (entry.arpaddr, entry.arhaddr) ∈ s.received) :
    Law (s.setEntry slot entry) := by
  refine ⟨fun this inside other below thisUsed otherUsed same => ?_, fun this isResolved => ?_⟩
  · unfold System.setEntry at thisUsed otherUsed same
    dsimp only at thisUsed otherUsed same
    rcases eq_or_ne this slot with rfl | apart
    · by_contra different
      rw [Function.update_self] at thisUsed same
      rw [Function.update_of_ne (Ne.symm different)] at otherUsed same
      exact fresh thisUsed other below (Ne.symm different) otherUsed same.symm
    · rw [Function.update_of_ne apart] at thisUsed same
      rcases eq_or_ne other slot with rfl | otherApart
      · rw [Function.update_self] at otherUsed same
        exact absurd same (fresh otherUsed this inside apart thisUsed)
      · rw [Function.update_of_ne otherApart] at otherUsed same
        exact law.unique this inside other below thisUsed otherUsed same
  · unfold System.setEntry at isResolved ⊢
    dsimp only at isResolved ⊢
    rcases eq_or_ne this slot with rfl | apart
    · rw [Function.update_self] at isResolved ⊢
      exact filled isResolved
    · rw [Function.update_of_ne apart] at isResolved ⊢
      exact law.filled this isResolved

theorem search_some (found : search s address = some slot) :
    slot < arpSiz ∧ (s.arpcache slot).arstate ≠ .free ∧ (s.arpcache slot).arpaddr = address := by
  have matches_ := List.find?_some found
  have member := List.mem_range.mp (List.mem_of_find?_eq_some found)
  simp only [ne_eq, decide_not, Bool.and_eq_true, Bool.not_eq_eq_eq_not, Bool.not_true, decide_eq_false_iff_not,
    decide_eq_true_eq] at matches_
  exact ⟨member, matches_.1, matches_.2⟩

theorem search_none (missing : search s address = none) :
    ∀ slot < arpSiz, (s.arpcache slot).arstate ≠ .free → (s.arpcache slot).arpaddr ≠ address := by
  intro slot inside used same
  have absent := List.find?_eq_none.mp missing slot (List.mem_range.mpr inside)
  simp [used, same] at absent

theorem arpAlloc_spec (allocated : arpAlloc s = some (slot, after)) : after = s.setEntry slot cleared := by
  obtain ⟨found, _, same⟩ := Option.map_eq_some_iff.mp allocated
  cases same
  rfl

/-- An entry is taken for an address that is not in the cache. -/
theorem Law.allocate (law : Law s) (missing : search s address = none)
    (allocated : arpAlloc s = some (slot, after)) (isAddress : entry.arpaddr = address)
    (filled : entry.arstate = .resolved → (entry.arpaddr, entry.arhaddr) ∈ s.received) :
    Law (after.setEntry slot entry) := by
  rw [arpAlloc_spec allocated, setEntry_setEntry]
  refine law.setEntry (fun _ other inside _ used => ?_) filled
  rw [isAddress]
  exact search_none missing other inside used

theorem Law.resolve (law : Law s) (nxthop : UInt32) : Law (arpResolve s pid nxthop).2 := by
  unfold arpResolve
  split
  · exact law
  split
  · split
    · exact law
    · exact law
  rename_i missing
  split
  · exact law
  rename_i slot middle allocated
  refine (@Law.allocate _ _ _ { middle.arpcache slot with arstate := .pending, arpaddr := nxthop, arpid := pid } _
    law missing allocated rfl ?_).withKernel _
  simp

theorem Law.arrive (law : Law s) (pkt : NetPacket) : Law (arpIn s pkt) := by
  unfold arpIn
  split
  · exact law
  dsimp only
  have known := law.receive (arpSndpa pkt, arpSndha pkt)
  split
  · rename_i slot found
    obtain ⟨inside, used, same⟩ := search_some found
    -- the entry keeps its address, and no other entry has it
    have alone : ∀ other < arpSiz, other ≠ slot → (s.arpcache other).arstate ≠ .free →
        (s.arpcache other).arpaddr ≠ (s.arpcache slot).arpaddr := fun other below apart otherUsed clash =>
      apart (law.unique other below slot inside otherUsed used clash)
    have sender : ((s.arpcache slot).arpaddr, arpSndha pkt) ∈ s.received ++ [(arpSndpa pkt, arpSndha pkt)] := by
      have same : (s.arpcache slot).arpaddr = arpSndpa pkt := same
      rw [same]
      exact List.mem_append_right _ (List.mem_singleton_self _)
    have update : ∀ state, Law (System.setEntry { s with received := s.received ++ [(arpSndpa pkt, arpSndha pkt)] }
        slot { s.arpcache slot with arhaddr := arpSndha pkt, arstate := state }) := fun _ =>
      known.setEntry (fun _ => alone) fun _ => sender
    unfold updateSender
    dsimp only
    split
    · exact (update .resolved).withKernel _
    · exact update (s.arpcache slot).arstate
  · rename_i missing
    split
    · exact known
    split
    · exact known
    unfold addSender
    split
    · exact known
    rename_i slot middle allocated
    refine known.allocate missing allocated rfl fun _ => ?_
    exact List.mem_append_right _ (List.mem_singleton_self _)

theorem Law.answered (law : Law s) (msg : UInt32) : Law (answered s pid point msg).2 := by
  unfold Arp.answered
  split
  · split
    · exact law.withKernel _
    · refine (law.setEntry ?_ ?_).withKernel _
      · simp
      · simp
  · dsimp only
    split
    · exact law.withKernel _
    · exact law.withKernel _

theorem Law.proceed (law : Law s) (point : Point) : Law (proceed s pid point).2 := by
  unfold Arp.proceed
  split
  · exact (law.withKernel _).answered _
  · split
    · exact law.withKernel _
    · exact (law.withKernel _).answered _

theorem step_resolve {nxthop : UInt32} (completed : step s (.resolve pid nxthop) = some (reply, after)) :
    arpResolve s pid nxthop = (reply, after) := by
  simp only [step] at completed
  split at completed
  · exact Option.some.inj completed
  · cases completed

theorem step_goOn (completed : step s (.goOn pid) = some (reply, after)) :
    ∃ point, s.kernel.process pid = .ready point ∧ proceed s pid point = (reply, after) := by
  simp only [step] at completed
  split at completed
  case h_1 point ready => exact ⟨point, ready, Option.some.inj completed⟩
  all_goals cases completed

/-- Every move keeps the law. -/
theorem law_preserved (before : System) (move : Move) (reply : Reply) (after : System) (law : Law before)
    (completed : step before move = some (reply, after)) : Law after := by
  cases move with
  | resolve pid nxthop =>
    have next := @Law.resolve _ pid law nxthop
    rwa [step_resolve completed] at next
  | arrive pkt =>
    cases completed
    exact law.arrive pkt
  | message pid msg =>
    cases completed
    exact law.withKernel _
  | tick pid =>
    cases completed
    exact law.withKernel _
  | goOn pid =>
    obtain ⟨point, _, result⟩ := step_goOn completed
    have next := @Law.proceed _ pid law point
    rwa [result] at next

/-- An address that is in the cache was received. -/
theorem Law.resolve_right (law : Law s) {asked nxthop : UInt32} {mac : List UInt8}
    (result : arpResolve s pid asked = (.resolves nxthop mac, after)) (notBroadcast : nxthop ≠ ipBcast)
    (notLocal : nxthop ≠ s.netData.ipbcast) : (nxthop, mac) ∈ after.received := by
  unfold arpResolve at result
  split at result
  · rename_i broadcast
    cases result
    rcases broadcast with isBroadcast | isLocal
    · exact absurd isBroadcast notBroadcast
    · exact absurd isLocal notLocal
  split at result
  · rename_i slot found
    split at result
    · rename_i isResolved
      cases result
      have known := law.filled slot isResolved
      rwa [(search_some found).2.2] at known
    · cases result
  split at result
  · cases result
  · cases result

/-- An answer was received when the entry is resolved for the address. -/
theorem Law.answered_right (law : Law s) {msg nxthop : UInt32} {mac : List UInt8}
    (finds : msg ≠ Messages.timeout → msg ≠ Messages.syserr →
      (s.arpcache point.slot).arstate = .resolved ∧ (s.arpcache point.slot).arpaddr = point.nxthop)
    (result : Arp.answered s pid point msg = (.resolves nxthop mac, after)) : (nxthop, mac) ∈ after.received := by
  unfold Arp.answered at result
  split at result
  · split at result
    · cases result
    · cases result
  · rename_i notTimeout
    dsimp only at result
    split at result
    · cases result
    · rename_i notSyserr
      cases result
      obtain ⟨isResolved, same⟩ := finds notTimeout notSyserr
      have known := law.filled point.slot isResolved
      rwa [same] at known

/-- A process that goes on returns an address that was received, when it finds its answer. -/
theorem Law.proceed_right (law : Law s) {nxthop : UInt32} {mac : List UInt8}
    (ready : s.kernel.process pid = .ready point) (finds : FindsAnswer s (.goOn pid))
    (result : Arp.proceed s pid point = (.resolves nxthop mac, after)) : (nxthop, mac) ∈ after.received := by
  have isPoint : point ∈ (s.kernel.process pid).point := by
    rw [ready]
    rfl
  unfold Arp.proceed at result
  split at result
  · refine (law.withKernel _).answered_right (fun notTimeout notSyserr => ?_) result
    refine finds point isPoint (recvtimeEnd s.kernel pid).1 ?_ notTimeout notSyserr
    unfold recvtimeEnd at notTimeout ⊢
    cases sent : s.kernel.prmsg pid with
    | none =>
      rw [sent] at notTimeout
      exact absurd rfl notTimeout
    | some msg => rfl
  · unfold recvtime at result
    rw [if_neg (by decide)] at result
    cases sent : s.kernel.prmsg pid with
    | none =>
      rw [sent] at result
      cases result
    | some msg =>
      rw [sent] at result
      exact (law.withKernel (recvclr s.kernel pid)).answered_right (finds point isPoint msg sent) result

end Steps

/-- In every run no address has two entries that are not free. As long as every process that goes on with an
answer finds its entry resolved for its address, every address that `arp_resolve` returns is the hardware
address of the sender of a packet that was received, with the protocol address that was asked for. -/
theorem answers_were_received (netData : NetData) (prmsg : Int → Option UInt32)
    (events : List (Event System Move Reply)) (last : System)
    (run : Run step (arpInit netData prmsg) events last) :
    (∀ event ∈ events, Unique event.after) ∧
    (Meets FindsAnswer events → ∀ event ∈ events, Right event) := by
  have initial : Law (arpInit netData prmsg) := ⟨by simp [Unique, arpInit, cleared], by simp [arpInit, cleared]⟩
  have laws := invariant_events Law (fun _ _ => True)
    (fun before move reply after law _ => law_preserved before move reply after law)
    _ _ _ run initial (fun _ _ => trivial)
  refine ⟨fun event member => (laws event member).2.1.unique, fun finds event member => ?_⟩
  obtain ⟨law, _, completed⟩ := laws event member
  have isFinding := finds event member
  intro nxthop mac isReply notBroadcast notLocal
  rw [isReply] at completed
  cases isCall : event.call with
  | resolve pid asked =>
    rw [isCall] at completed
    exact law.resolve_right (step_resolve completed) notBroadcast notLocal
  | goOn pid =>
    rw [isCall] at completed isFinding
    obtain ⟨point, ready, result⟩ := step_goOn completed
    exact law.proceed_right ready isFinding result
  | arrive pkt =>
    rw [isCall] at completed
    cases completed
  | message pid msg =>
    rw [isCall] at completed
    cases completed
  | tick pid =>
    rw [isCall] at completed
    cases completed

/-- An ARP reply from protocol address `1` with hardware address `7`, `7`, `7`, `7`, `7`, `7`. -/
def smallAnswer : NetPacket where
  buffer := 0
  bytes := fun k => if k = 15 then 1 else if k = 16 then 8 else if k = 21 then 2 else if 22 ≤ k ∧ k < 28 then 7
    else if k = 31 then 1 else 0

/-- A host with address `9`. -/
def smallNet : NetData := ⟨9, 255, 0, 0, 0, true, fun _ => 0, fun _ => 0xff⟩

/-- A process asks for an address and gets it. -/
theorem process_gets_answer : ∃ events last, Run step (arpInit smallNet fun _ => none) events last ∧
    (∀ event ∈ events, Right event) ∧
    ∃ event ∈ events, event.reply = .resolves 1 (List.replicate 6 7) := by
  obtain ⟨events, last, run, checked⟩ := trace_exists step (arpInit smallNet fun _ => none)
    [.resolve 3 1, .goOn 3, .arrive smallAnswer, .goOn 3]
    (fun events _ => decide ((∀ event ∈ events, FindsAnswer event.before event.call) ∧
      ∃ event ∈ events, event.reply = .resolves 1 (List.replicate 6 7))) (by decide +kernel)
  obtain ⟨finds, answer⟩ := of_decide_eq_true checked
  exact ⟨events, last, run, (answers_were_received _ _ events last run).2 finds, answer⟩

/-- A process that waits for an answer is sent another message: it returns a hardware address of zeros although
no packet was received. -/
theorem foreign_message_answers : ∃ events last, Run step (arpInit smallNet fun _ => none) events last ∧
    last.received = [] ∧ (∃ event ∈ events, event.reply = .resolves 1 (List.replicate 6 0)) ∧
    ∃ event ∈ events, ¬ Right event := by
  obtain ⟨events, last, run, checked⟩ := trace_exists step (arpInit smallNet fun _ => none)
    [.resolve 3 1, .goOn 3, .message 3 5, .goOn 3]
    (fun events (last : System) => decide (last.received = [] ∧ ∃ event ∈ events,
      event.reply = .resolves 1 (List.replicate 6 0) ∧ event.before.netData.ipbcast = 255 ∧
        event.after.received = [])) (by decide +kernel)
  obtain ⟨nothing, event, member, isReply, broadcast, empty⟩ := of_decide_eq_true checked
  refine ⟨events, last, run, nothing, ⟨event, member, isReply⟩, event, member, fun right => ?_⟩
  have notBroadcast : (1 : UInt32) ≠ ipBcast := by simp [ipBcast]
  have notLocal : (1 : UInt32) ≠ event.before.netData.ipbcast := by simp [broadcast]
  have received := right 1 (List.replicate 6 0) isReply notBroadcast notLocal
  rw [empty] at received
  cases received

end Xinu.Arp
