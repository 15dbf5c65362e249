import Xinu.UdpRelease

/-!
# Packets of UDP endpoints with one user a slot

When no two processes use a slot at the same time, a process that is told of a packet finds it. Every packet
that arrived is then freed once or lies in one queue, whatever is registered, received and released.
-/

namespace Xinu.UdpEndpoints

open Messages Packets

/-- The packets in the queue of a slot. -/
def Udpentry.held (entry : Udpentry) : List Nat :=
  queued entry.udqueue udpQsiz entry.udhead entry.udcount.toNat

/-- The packets in all queues. -/
def System.held (s : System) : Multiset Nat := ∑ slot ∈ Finset.range udpSlots, ((s.udptab slot).held : Multiset Nat)

/-- The packets that were freed and those in the queues. -/
def System.balance (s : System) : Multiset Nat := (s.freed : Multiset Nat) + s.held

/-- No process is inside of a receive call on a slot. -/
def Nobody (s : System) (slot : Nat) : Prop :=
  ∀ pid point, (s.kernel.process pid).point = some point → point.slot ≠ slot

/-- A process receives from a slot, or releases it, only when no other process is receiving from it. -/
def OneUser (s : System) : Move → Prop
  | .recv _ slot _ _ | .recvaddr _ slot _ _ | .release slot => 0 ≤ slot → Nobody s slot.toNat
  | _ => True

/-- A process that waits is known to its slot, or it was told of a packet in the queue. -/
def Told (s : System) (pid : Int) (point : Point) : Prop :=
  0 ≤ pid ∧ point.slot < udpSlots ∧
    ((s.udptab point.slot).udstate = .recv ∧ (s.udptab point.slot).udpid = pid ∧ s.kernel.prmsg pid = none ∨
      (s.udptab point.slot).udstate = .used ∧ 0 < (s.udptab point.slot).udcount ∧
        s.kernel.prmsg pid = some Messages.ok)

/-- What holds beside a slot that nobody receives from. -/
structure Beside (s : System) (slot : Nat) : Prop where
  inOrder : ∀ slot, (s.udptab slot).InOrder (s.udptab slot).held []
  empty : ∀ slot, (s.udptab slot).udstate = .free → (s.udptab slot).udcount = 0
  told : ∀ pid point, (s.kernel.process pid).point = some point → Told s pid point
  alone : ∀ pid other point otherPoint, (s.kernel.process pid).point = some point →
    (s.kernel.process other).point = some otherPoint → point.slot = otherPoint.slot → pid = other
  tended : ∀ other, other ≠ slot → (s.udptab other).udstate = .recv →
    ∃ point, (s.kernel.process (s.udptab other).udpid).point = some point ∧ point.slot = other
  nobody : Nobody s slot

/-- What holds while every slot has one user. -/
structure Tended (s : System) : Prop where
  inOrder : ∀ slot, (s.udptab slot).InOrder (s.udptab slot).held []
  empty : ∀ slot, (s.udptab slot).udstate = .free → (s.udptab slot).udcount = 0
  told : ∀ pid point, (s.kernel.process pid).point = some point → Told s pid point
  alone : ∀ pid other point otherPoint, (s.kernel.process pid).point = some point →
    (s.kernel.process other).point = some otherPoint → point.slot = otherPoint.slot → pid = other
  tended : ∀ slot, (s.udptab slot).udstate = .recv →
    ∃ point, (s.kernel.process (s.udptab slot).udpid).point = some point ∧ point.slot = slot

section Entries

variable {s : System} {slot : Nat} {entry : Udpentry} {pkt : NetPacket}

/-- A change of one slot changes its packets. -/
theorem held_setEntry (inside : slot < udpSlots) :
    (s.setEntry slot entry).held + ((s.udptab slot).held : Multiset Nat) = s.held + (entry.held : Multiset Nat) := by
  have member : slot ∈ Finset.range udpSlots := Finset.mem_range.mpr inside
  have rest : ∑ other ∈ (Finset.range udpSlots).erase slot,
        (((s.setEntry slot entry).udptab other).held : Multiset Nat) =
      ∑ other ∈ (Finset.range udpSlots).erase slot, ((s.udptab other).held : Multiset Nat) :=
    Finset.sum_congr rfl fun other isOther => by rw [setEntry_of_ne (Finset.ne_of_mem_erase isOther)]
  unfold System.held
  rw [← Finset.add_sum_erase _ _ member, ← Finset.add_sum_erase _ (fun other => ((s.udptab other).held : Multiset Nat))
    member, rest, setEntry_self]
  abel

/-- A packet is stored behind the others. -/
theorem held_push (inOrder : entry.InOrder entry.held []) (space : entry.udcount < udpQsiz) {state : Udstate} :
    let stored := { entry with
      udcount := entry.udcount + 1, udqueue := Function.update entry.udqueue entry.udtail pkt
      udtail := following entry.udtail, udstate := state }
    stored.InOrder stored.held [] ∧ stored.held = entry.held ++ [pkt.buffer] := by
  have pushed := inOrder.push space pkt
  exact ⟨pushed.remaining, pushed.accepted_eq.symm⟩

/-- The first packet is taken. -/
theorem held_pop (inOrder : entry.InOrder entry.held []) (some_ : 0 < entry.udcount) :
    let left := { entry with udhead := following entry.udhead, udcount := entry.udcount - 1 }
    left.InOrder left.held [] ∧ entry.held = (entry.udqueue entry.udhead).buffer :: left.held := by
  have popped := inOrder.pop some_
  exact ⟨popped.remaining, popped.accepted_eq⟩

/-- The loop of `udp_release` frees the packets in the queue. -/
theorem releaseLoop_held (count : Nat) (inOrder : entry.InOrder entry.held []) (counted : entry.udcount = count) :
    (releaseLoop count entry).1 = entry.held ∧
      (releaseLoop count entry).2.InOrder (releaseLoop count entry).2.held [] ∧
      (releaseLoop count entry).2.udcount = 0 := by
  induction count generalizing entry with
  | zero =>
    refine ⟨?_, inOrder, counted⟩
    unfold releaseLoop Udpentry.held
    rw [counted]
    rfl
  | succ count inductionHypothesis =>
    obtain ⟨stays, first⟩ := held_pop inOrder (by omega)
    obtain ⟨freed, drained, nothing⟩ := inductionHypothesis stays (by dsimp only; omega)
    unfold releaseLoop
    dsimp only
    exact ⟨by rw [first, ← freed], drained, nothing⟩

end Entries

section Steps

variable {s after : System} {slot : Nat} {entry : Udpentry} {pkt : NetPacket} {pid : Int} {point : Point}
  {reply : Reply} {move : Move}

theorem Tended.beside (law : Tended s) (nobody : Nobody s slot) : Beside s slot :=
  ⟨law.inOrder, law.empty, law.told, law.alone, fun other _ => law.tended other, nobody⟩

/-- A slot changes that nobody receives from. -/
theorem Beside.setEntry (law : Beside s slot) (inOrder : entry.InOrder entry.held [])
    (empty : entry.udstate = .free → entry.udcount = 0) : Beside (s.setEntry slot entry) slot := by
  refine ⟨fun other => ?_, fun other isFree => ?_, fun pid point isPoint => ?_, law.alone,
    fun other apart isRecv => ?_, law.nobody⟩
  · rcases eq_or_ne other slot with rfl | apart
    · rw [setEntry_self]
      exact inOrder
    · rw [setEntry_of_ne apart]
      exact law.inOrder other
  · rcases eq_or_ne other slot with rfl | apart
    · rw [setEntry_self] at isFree ⊢
      exact empty isFree
    · rw [setEntry_of_ne apart] at isFree ⊢
      exact law.empty other isFree
  · have apart : point.slot ≠ slot := law.nobody pid point isPoint
    unfold Told
    rw [setEntry_of_ne apart]
    exact law.told pid point isPoint
  · rw [setEntry_of_ne apart] at isRecv ⊢
    exact law.tended other apart isRecv

/-- The slot says that nobody receives from it. -/
theorem Beside.closed (law : Beside s slot) (idle : (s.udptab slot).udstate ≠ .recv) : Tended s := by
  refine ⟨law.inOrder, law.empty, law.told, law.alone, fun other isRecv => ?_⟩
  rcases eq_or_ne other slot with rfl | apart
  · exact absurd isRecv idle
  · exact law.tended other apart isRecv

/-- A call keeps the law, and the packets that arrived are freed or queued besides those before. -/
structure Kept (s after : System) (arrived : Multiset Nat) : Prop where
  law : Tended after
  balance : after.balance = s.balance + arrived

/-- One more packet in a slot is one more packet. -/
theorem held_add (inside : slot < udpSlots) {buffer : Nat} (more : entry.held = (s.udptab slot).held ++ [buffer]) :
    (s.setEntry slot entry).held = s.held + {buffer} := by
  have changed := @held_setEntry s _ entry inside
  rw [more, ← Multiset.coe_add, ← add_assoc, add_right_comm] at changed
  exact add_right_cancel changed

/-- A slot with the same packets. -/
theorem held_same (inside : slot < udpSlots) (same : entry.held = (s.udptab slot).held) :
    (s.setEntry slot entry).held = s.held := by
  have changed := @held_setEntry s _ entry inside
  rw [same] at changed
  exact add_right_cancel changed

theorem balance_same (inside : slot < udpSlots) (same : entry.held = (s.udptab slot).held) :
    (s.setEntry slot entry).balance = s.balance := by
  unfold System.balance
  rw [held_same inside same]
  rfl

/-- Packets that were removed from a slot. -/
theorem held_remove (inside : slot < udpSlots) {removed : List Nat}
    (fewer : (s.udptab slot).held = removed ++ entry.held) :
    (removed : Multiset Nat) + (s.setEntry slot entry).held = s.held := by
  have changed := @held_setEntry s _ entry inside
  rw [fewer, ← Multiset.coe_add, ← add_assoc] at changed
  rw [add_comm]
  exact add_right_cancel changed

/-- A packet is stored for a process that waits, and the process is told. -/
theorem Tended.acceptWaiting (law : Tended s) (isRecv : (s.udptab slot).udstate = .recv)
    (inOrder : entry.InOrder entry.held []) (isUsed : entry.udstate = .used) (some_ : 0 < entry.udcount) :
    Tended { s.setEntry slot entry with kernel := send s.kernel (s.udptab slot).udpid Messages.ok } := by
  obtain ⟨waiting, isWaiting, here⟩ := law.tended slot isRecv
  obtain ⟨nonneg, _, ⟨_, _, noMessage⟩ | ⟨isOther, _⟩⟩ := law.told _ waiting isWaiting
  case inr =>
    rw [here, isRecv] at isOther
    cases isOther
  have messages := @send_prmsg _ _ _ Messages.ok nonneg noMessage
  refine ⟨fun other => ?_, fun other isFree => ?_, fun pid point isPoint => ?_, ?_, fun other isOther => ?_⟩
  · dsimp only
    rcases eq_or_ne other slot with rfl | apart
    · rw [setEntry_self]
      exact inOrder
    · rw [setEntry_of_ne apart]
      exact law.inOrder other
  · dsimp only at isFree ⊢
    rcases eq_or_ne other slot with rfl | apart
    · rw [setEntry_self, isUsed] at isFree
      cases isFree
    · rw [setEntry_of_ne apart] at isFree ⊢
      exact law.empty other isFree
  · rw [send_point] at isPoint
    unfold Told
    dsimp only
    rw [messages]
    rcases eq_or_ne point.slot slot with there | apart
    · -- only the process that the slot knows receives from it
      have same := law.alone _ _ _ _ isPoint isWaiting (there.trans here.symm)
      subst same
      rw [there, setEntry_self, Function.update_self]
      have inside := (law.told _ _ isPoint).2.1
      rw [there] at inside
      exact ⟨nonneg, inside, Or.inr ⟨isUsed, some_, rfl⟩⟩
    · have different : pid ≠ (s.udptab slot).udpid := by
        rintro rfl
        rw [isWaiting] at isPoint
        cases isPoint
        exact apart here
      rw [setEntry_of_ne apart, Function.update_of_ne different]
      exact law.told pid point isPoint
  · intro pid other point otherPoint isPoint isOther
    rw [send_point] at isPoint isOther
    exact law.alone pid other point otherPoint isPoint isOther
  · dsimp only at isOther ⊢
    rcases eq_or_ne other slot with rfl | apart
    · rw [setEntry_self, isUsed] at isOther
      cases isOther
    · rw [setEntry_of_ne apart] at isOther ⊢
      rw [send_point]
      exact law.tended other isOther

/-- A packet is stored for a slot where nobody waits. -/
theorem Tended.acceptUsed (law : Tended s) (notRecv : (s.udptab slot).udstate ≠ .recv)
    (notFree : (s.udptab slot).udstate ≠ .free) (inOrder : entry.InOrder entry.held [])
    (isUsed : entry.udstate = (s.udptab slot).udstate) (some_ : 0 < entry.udcount) :
    Tended (s.setEntry slot entry) := by
  refine ⟨fun other => ?_, fun other isFree => ?_, fun pid point isPoint => ?_, law.alone, fun other isOther => ?_⟩
  · rcases eq_or_ne other slot with rfl | apart
    · rw [setEntry_self]
      exact inOrder
    · rw [setEntry_of_ne apart]
      exact law.inOrder other
  · rcases eq_or_ne other slot with rfl | apart
    · rw [setEntry_self, isUsed] at isFree
      exact absurd isFree notFree
    · rw [setEntry_of_ne apart] at isFree ⊢
      exact law.empty other isFree
  · have told := law.told pid point isPoint
    rcases eq_or_ne point.slot slot with there | apart
    · obtain ⟨nonneg, inside, ⟨isRecv, _⟩ | ⟨used, _, message⟩⟩ := told
      · rw [there] at isRecv
        exact absurd isRecv notRecv
      · refine ⟨nonneg, inside, Or.inr ?_⟩
        rw [there] at used ⊢
        rw [setEntry_self]
        exact ⟨isUsed.trans used, some_, message⟩
    · unfold Told
      rw [setEntry_of_ne apart]
      exact told
  · rcases eq_or_ne other slot with rfl | apart
    · rw [setEntry_self, isUsed] at isOther
      exact absurd isOther notRecv
    · rw [setEntry_of_ne apart] at isOther ⊢
      exact law.tended other isOther

/-- The records do not matter. -/
theorem Tended.withRecords (law : Tended s) (accepted : Nat → List Nat) (taken : List Taken)
    (discarded freed : List Nat) (number : Nat → Nat) : Tended { s with
      accepted := accepted, taken := taken, discarded := discarded, freed := freed, number := number } :=
  ⟨law.inOrder, law.empty, law.told, law.alone, law.tended⟩

/-- An arriving packet is freed or queued. -/
theorem Tended.udpIn (law : Tended s) (pkt : NetPacket) : Kept s (udpIn s pkt) {pkt.buffer} := by
  unfold UdpEndpoints.udpIn
  cases found : (List.range udpSlots).find? fun slot => (s.udptab slot).accepts pkt with
  | none =>
    refine ⟨law.withRecords _ _ _ _ _, ?_⟩
    show ((s.freed ++ [pkt.buffer] : List Nat) : Multiset Nat) + s.held = s.freed + s.held + {pkt.buffer}
    rw [← Multiset.coe_add, add_right_comm]
    rfl
  | some slot =>
    have inside : slot < udpSlots := List.mem_range.mp (List.mem_of_find?_eq_some found)
    obtain ⟨⟨used, _⟩, space⟩ : ((s.udptab slot).udstate ≠ .free ∧ (s.udptab slot).matches pkt = true) ∧
        (s.udptab slot).udcount < udpQsiz := by
      simpa [Udpentry.accepts] using List.find?_some found
    have count := (law.inOrder slot).bounds.1
    obtain ⟨stays, more⟩ := @held_push _ pkt (law.inOrder slot) space
      (if (s.udptab slot).udstate = .recv then .used else (s.udptab slot).udstate)
    refine ⟨?_, ?_⟩
    · unfold acceptPacket
      dsimp only
      by_cases isRecv : (s.udptab slot).udstate = .recv
      · rw [if_pos isRecv] at stays ⊢
        rw [if_pos isRecv]
        exact (law.acceptWaiting isRecv stays rfl (by dsimp only; omega)).withRecords _ _ _ _ _
      · rw [if_neg isRecv] at stays ⊢
        rw [if_neg isRecv]
        exact (law.acceptUsed isRecv used stays rfl (by dsimp only; omega)).withRecords _ _ _ _ _
    · show (s.freed : Multiset Nat) + (s.setEntry slot _).held = s.freed + s.held + {pkt.buffer}
      rw [held_add inside more, add_assoc]

theorem held_of_empty (nothing : entry.udcount = 0) : entry.held = [] := by
  unfold Udpentry.held
  rw [nothing]
  rfl

/-- A slot is registered, or nothing happens. -/
theorem Tended.register (law : Tended s) (remip : UInt32) (remport locport : UInt16) :
    Kept s (udpRegister s remip remport locport).2 0 := by
  unfold udpRegister
  dsimp only
  split
  · exact ⟨law, (add_zero _).symm⟩
  split
  · exact ⟨law, (add_zero _).symm⟩
  rename_i slot found
  have isFree : (s.udptab slot).udstate = .free := by simpa using List.find?_some found
  have inside : slot < udpSlots := List.mem_range.mp (List.mem_of_find?_eq_some found)
  have nobody : Nobody s slot := by
    rintro pid point isPoint rfl
    rcases (law.told pid point isPoint).2.2 with ⟨isRecv, _⟩ | ⟨isUsed, _⟩
    · rw [isFree] at isRecv
      cases isRecv
    · rw [isFree] at isUsed
      cases isUsed
  have begun : Beside (s.setEntry slot { s.udptab slot with
      udlocport := locport, udremport := remport, udremip := remip, udcount := 0, udhead := 0, udtail := 0
      udpid := -1, udstate := .used }) slot :=
    (law.beside nobody).setEntry (.empty (by decide : 0 < udpQsiz)) fun _ => rfl
  refine ⟨(begun.closed (by simp)).withRecords _ _ _ _ _, ?_⟩
  show (s.freed : Multiset Nat) + (s.setEntry slot _).held = s.freed + s.held + 0
  rw [held_same inside (by rw [held_of_empty (law.empty slot isFree), held_of_empty rfl]), add_zero]

/-- A packet is taken from a slot that nobody receives from. -/
theorem Beside.takePacket (law : Beside s point.slot) (isUsed : (s.udptab point.slot).udstate = .used)
    (inside : point.slot < udpSlots) (some_ : 0 < (s.udptab point.slot).udcount)
    (result : takePacket s pid point = some (reply, after)) : Kept s after 0 := by
  obtain ⟨copied, _, same⟩ := Option.map_eq_some_iff.mp result
  cases same
  obtain ⟨stays, first⟩ := held_pop (law.inOrder point.slot) some_
  have taken := law.setEntry stays fun isFree => by
    rw [isUsed] at isFree
    cases isFree
  refine ⟨(taken.closed (by rw [setEntry_self]; simp [isUsed])).withRecords _ _ _ _ _, ?_⟩
  show ((s.freed ++ [_] : List Nat) : Multiset Nat) + (s.setEntry point.slot _).held = s.freed + s.held + 0
  rw [← Multiset.coe_add, add_assoc, add_zero, @held_remove _ _ _ inside [_] first]

/-- A receive call goes on behind its wait. -/
theorem Beside.afterWait (law : Beside s point.slot) (inside : point.slot < udpSlots) {msg : UInt32}
    (some_ : msg = Messages.ok → 0 < (s.udptab point.slot).udcount)
    (result : afterWait s pid point msg = some (reply, after)) : Kept s after 0 := by
  have used : Beside (s.setEntry point.slot { s.udptab point.slot with udstate := .used }) point.slot :=
    law.setEntry (law.inOrder point.slot) (by simp)
  have balance : (s.setEntry point.slot { s.udptab point.slot with udstate := .used }).balance = s.balance + 0 := by
    rw [add_zero]
    exact balance_same inside rfl
  have closed := used.closed (by simp)
  unfold UdpEndpoints.afterWait at result
  dsimp only at result
  split at result
  · cases result
    exact ⟨closed, balance⟩
  · split at result
    · cases result
      exact ⟨closed, balance⟩
    · rename_i isOk
      obtain ⟨stays, later⟩ := used.takePacket (by simp) inside (by simpa using some_ (not_not.mp isOk)) result
      exact ⟨stays, later.trans (by rw [balance, add_zero, add_zero])⟩

/-- The messages of a process outside of all calls do not matter. -/
theorem Beside.clear (law : Beside s slot) (idle : s.kernel.process pid = .idle) :
    Beside { s with kernel := recvclr s.kernel pid } slot := by
  refine ⟨law.inOrder, law.empty, fun other point isPoint => ?_, law.alone, law.tended, law.nobody⟩
  have before : (s.kernel.process other).point = some point := isPoint
  have apart : other ≠ pid := by
    intro same
    rw [same, idle] at before
    cases before
  have told := law.told other point before
  unfold Told at told ⊢
  dsimp only
  rwa [recvclr_of_ne apart]

/-- A process begins to wait for a slot. -/
theorem Beside.wait (law : Beside s point.slot) (inside : point.slot < udpSlots) (nonneg : 0 ≤ pid)
    (idle : s.kernel.process pid = .idle) (noMessage : s.kernel.prmsg pid = none) :
    Tended { s.setEntry point.slot { s.udptab point.slot with udstate := .recv, udpid := pid } with
      kernel := s.kernel.place pid (.waiting point) } := by
  have begun : Beside (s.setEntry point.slot { s.udptab point.slot with udstate := .recv, udpid := pid }) point.slot :=
    law.setEntry (law.inOrder point.slot) (by simp)
  have other_of : ∀ {this other}, (((s.kernel.place pid (.waiting point)).process this).point = some other) →
      this = pid ∧ other = point ∨ this ≠ pid ∧ (s.kernel.process this).point = some other := by
    intro this other isPoint
    rcases eq_or_ne this pid with rfl | apart
    · rw [place_self] at isPoint
      cases isPoint
      exact Or.inl ⟨rfl, rfl⟩
    · rw [place_of_ne apart] at isPoint
      exact Or.inr ⟨apart, isPoint⟩
  refine ⟨begun.inOrder, begun.empty, fun this other isPoint => ?_, fun this that p q isPoint isThat same => ?_,
    fun other isRecv => ?_⟩
  · rcases other_of isPoint with ⟨rfl, rfl⟩ | ⟨_, before⟩
    · refine ⟨nonneg, inside, Or.inl ⟨?_, ?_, noMessage⟩⟩
      · dsimp only
        rw [setEntry_self]
      · dsimp only
        rw [setEntry_self]
    · exact begun.told this other before
  · rcases other_of isPoint with ⟨rfl, rfl⟩ | ⟨_, before⟩
    · rcases other_of isThat with ⟨rfl, rfl⟩ | ⟨_, thatBefore⟩
      · rfl
      · exact absurd same.symm (law.nobody that q thatBefore)
    · rcases other_of isThat with ⟨rfl, rfl⟩ | ⟨_, thatBefore⟩
      · exact absurd same (law.nobody this p before)
      · exact law.alone this that p q before thatBefore same
  · dsimp only at isRecv ⊢
    rcases eq_or_ne other point.slot with rfl | apart
    · rw [setEntry_self]
      exact ⟨point, by rw [place_self]; rfl, rfl⟩
    · rw [setEntry_of_ne apart] at isRecv ⊢
      obtain ⟨waiting, isWaiting, here⟩ := law.tended other apart isRecv
      refine ⟨waiting, ?_, here⟩
      rw [place_of_ne]
      · exact isWaiting
      · rintro same
        rw [same, idle] at isWaiting
        cases isWaiting

/-- A receive call begins on a slot that nobody else receives from. -/
theorem Tended.receive (law : Tended s) {sender : Bool} {slot len : Int} {wait : UInt32} (nonneg : 0 ≤ pid)
    (idle : s.kernel.process pid = .idle) (nobody : 0 ≤ slot → Nobody s slot.toNat)
    (result : receive sender s pid slot len wait = some (reply, after)) : Kept s after 0 := by
  unfold UdpEndpoints.receive at result
  split at result
  · cases result
    exact ⟨law, (add_zero _).symm⟩
  rename_i valid
  dsimp only at result
  split at result
  · cases result
    exact ⟨law, (add_zero _).symm⟩
  rename_i isUsed
  have used : (s.udptab slot.toNat).udstate = .used := not_not.mp isUsed
  have inside : slot.toNat < udpSlots := by omega
  have beside := law.beside (nobody (by omega))
  split at result
  · have cleared := beside.clear idle
    have balance : (s.setEntry slot.toNat { s.udptab slot.toNat with udstate := .recv, udpid := pid }).balance =
        s.balance + 0 := by
      rw [add_zero]
      exact balance_same inside rfl
    obtain waits | returned := recvtime_cleared s.kernel pid
      (⟨slot.toNat, len, sender, s.number slot.toNat⟩ : Point) wait.toInt32
    · rw [setEntry_kernel, waits] at result
      cases result
      exact ⟨@Beside.wait _ _ ⟨slot.toNat, len, sender, s.number slot.toNat⟩ cleared inside nonneg idle recvclr_self,
        balance⟩
    · rw [setEntry_kernel, returned] at result
      have asked : Beside { s.setEntry slot.toNat { s.udptab slot.toNat with udstate := .recv, udpid := pid } with
          kernel := recvclr s.kernel pid } slot.toNat :=
        cleared.setEntry (law.inOrder slot.toNat) (by simp)
      obtain ⟨stays, later⟩ := @Beside.afterWait _ _ _ ⟨slot.toNat, len, sender, s.number slot.toNat⟩ _ asked inside
        _ (fun isOk => by cases isOk) result
      exact ⟨stays, later.trans (congrArg (· + 0) (balance.trans (add_zero _)))⟩
  · rename_i nonzero
    have count := (law.inOrder slot.toNat).bounds.1
    exact @Beside.takePacket _ _ _ ⟨slot.toNat, len, sender, s.number slot.toNat⟩ _ beside used inside
      (by show 0 < (s.udptab slot.toNat).udcount; lia) result

/-- A slot is released that nobody receives from. -/
theorem Tended.release (law : Tended s) {slot : Int} (nobody : 0 ≤ slot → Nobody s slot.toNat) :
    Kept s (udpRelease s slot).2 0 := by
  unfold udpRelease
  split
  · exact ⟨law, (add_zero _).symm⟩
  rename_i valid
  dsimp only
  split
  · exact ⟨law, (add_zero _).symm⟩
  have inside : slot.toNat < udpSlots := by omega
  have count := (law.inOrder slot.toNat).bounds.1
  obtain ⟨freed, drained, nothing⟩ := releaseLoop_held (s.udptab slot.toNat).udcount.toNat (law.inOrder slot.toNat)
    (by lia)
  have released := @Beside.setEntry _ _ { (releaseLoop (s.udptab slot.toNat).udcount.toNat
    (s.udptab slot.toNat)).2 with udstate := .free } (law.beside (nobody (by omega))) drained fun _ => nothing
  refine ⟨(released.closed (by simp)).withRecords _ _ _ _ _, ?_⟩
  show ((s.freed ++ (releaseLoop (s.udptab slot.toNat).udcount.toNat (s.udptab slot.toNat)).1 : List Nat) :
    Multiset Nat) + (s.setEntry slot.toNat _).held = s.freed + s.held + 0
  have drainedHeld : Udpentry.held { (releaseLoop (s.udptab slot.toNat).udcount.toNat
      (s.udptab slot.toNat)).2 with udstate := .free } = [] := held_of_empty nothing
  have removed := @held_remove s _ _ inside (s.udptab slot.toNat).held
    (by rw [drainedHeld, List.append_nil])
  rw [freed, ← Multiset.coe_add, add_assoc, removed, add_zero]

/-- A process that goes on leaves its slot to nobody. -/
theorem Tended.goOn (law : Tended s) (ready : (s.kernel.process pid).point = some point) :
    Beside { s with kernel := (recvtimeEnd s.kernel pid).2 } point.slot := by
  have other_of : ∀ {this other}, ((recvtimeEnd s.kernel pid).2.process this).point = some other →
      this ≠ pid ∧ (s.kernel.process this).point = some other := by
    intro this other isPoint
    unfold recvtimeEnd at isPoint
    dsimp only at isPoint
    rw [recvclr_process] at isPoint
    rcases eq_or_ne this pid with rfl | apart
    · rw [place_self] at isPoint
      cases isPoint
    · rw [place_of_ne apart] at isPoint
      exact ⟨apart, isPoint⟩
  refine ⟨law.inOrder, law.empty, fun this other isPoint => ?_, fun this that p q isPoint isThat =>
    law.alone this that p q (other_of isPoint).2 (other_of isThat).2, fun other apart isRecv => ?_,
    fun this other isPoint same => ?_⟩
  · obtain ⟨apart, before⟩ := other_of isPoint
    have told := law.told this other before
    unfold Told recvtimeEnd at *
    dsimp only
    rwa [recvclr_of_ne apart]
  · obtain ⟨waiting, isWaiting, here⟩ := law.tended other isRecv
    refine ⟨waiting, ?_, here⟩
    unfold recvtimeEnd
    dsimp only
    rw [recvclr_process, place_of_ne]
    · exact isWaiting
    · intro same
      rw [same, ready] at isWaiting
      cases isWaiting
      exact apart here.symm
  · obtain ⟨apart, before⟩ := other_of isPoint
    exact apart (law.alone this pid other point before ready same)

/-- Every move with one user a slot keeps the packets: an arriving packet is freed or queued, and no other move
adds or loses one. -/
theorem kept_of_step (before : System) (move : Move) (reply : Reply) (after : System) (law : Tended before)
    (single : OneUser before move) (notArrival : ∀ pkt, move ≠ .arrive pkt)
    (completed : step before move = some (reply, after)) : Kept before after 0 := by
  cases move with
  | register remip remport locport =>
    obtain ⟨_, rfl⟩ := step_register completed
    exact law.register remip remport locport
  | recv pid slot len wait =>
    simp only [step, begin_] at completed
    split at completed
    · rename_i calls
      exact law.receive calls.1 calls.2 single completed
    · cases completed
  | recvaddr pid slot len wait =>
    simp only [step, begin_] at completed
    split at completed
    · rename_i calls
      exact law.receive calls.1 calls.2 single completed
    · cases completed
  | arrive pkt => exact absurd rfl (notArrival pkt)
  | release slot =>
    obtain ⟨_, rfl⟩ := step_release completed
    exact law.release single
  | tick pid =>
    cases completed
    refine ⟨⟨law.inOrder, law.empty, fun this point isPoint => ?_, fun this that p q isPoint isThat => ?_,
      fun slot isRecv => ?_⟩, (add_zero _).symm⟩
    · rw [tick_point] at isPoint
      exact law.told this point isPoint
    · rw [tick_point] at isPoint isThat
      exact law.alone this that p q isPoint isThat
    · dsimp only
      rw [tick_point]
      exact law.tended slot isRecv
  | goOn pid =>
    obtain ⟨point, ready, result⟩ := step_goOn completed
    have isPoint : (before.kernel.process pid).point = some point := by
      rw [ready]
      rfl
    obtain ⟨_, inside, told⟩ := law.told pid point isPoint
    have some_ : (recvtimeEnd before.kernel pid).1 = Messages.ok → 0 < (before.udptab point.slot).udcount := by
      intro isOk
      have message := recvtimeEnd_ok_iff.mp isOk
      rcases told with ⟨_, _, nothing⟩ | ⟨_, some_, _⟩
      · rw [nothing] at message
        cases message
      · exact some_
    obtain ⟨stays, balance⟩ := (law.goOn isPoint).afterWait inside some_ result
    exact ⟨stays, balance⟩

end Steps

end Xinu.UdpEndpoints
