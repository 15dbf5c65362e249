import Xinu.IcmpEndpoints
import Xinu.RunConditions

/-!
# Queues of echo replies

The queue of a slot is a bounded first-in-first-out queue only as long as it fits: a reply must not come
when eight are queued, and since the first index is not wrapped at eight, the packet at the last place of
the array must not be removed. A process that was told of a reply must find one when it runs.
-/

namespace Xinu.IcmpEndpoints

open Messages Packets Runs

/-- The queue of a slot is in order. -/
def Icmpentry.InOrder (entry : Icmpentry) (accepted freed : List Nat) : Prop :=
  Packets.InOrder icmpQsiz entry.icqueue entry.ichead entry.ictail entry.iccount accepted freed

/-- The replies that a slot accepted are those that were freed, once and in the order of arrival, and those
in its queue. -/
def Fifo (s : System) : Prop := ∀ slot, (s.icmptab slot).InOrder (s.accepted slot) (s.freed slot)

/-- A call returns the data of the first reply of a slot that has replies, and removes it. -/
def Removes (before after : System) (value : Int) (data : List UInt8) : Prop :=
  ∃ slot len, let entry := before.icmptab slot
    0 < entry.iccount ∧ icmpCopy (entry.icqueue entry.ichead) len = some (value, data) ∧
      after.freed slot = before.freed slot ++ [(entry.icqueue entry.ichead).buffer] ∧
      (after.icmptab slot).iccount = entry.iccount - 1

/-- The first reply of a slot can be removed: there is one, and not at the last place of the array. -/
def Icmpentry.Removable (entry : Icmpentry) : Prop := 0 < entry.iccount ∧ entry.ichead + 1 < icmpQsiz

instance (entry : Icmpentry) : Decidable entry.Removable :=
  inferInstanceAs (Decidable (0 < entry.iccount ∧ entry.ichead + 1 < icmpQsiz))

/-- A reply is accepted when there is room, a reply is removed when it can be, and a slot is released when
no queued reply is at the last place of the array. -/
def Fits (s : System) : Move → Prop
  | .arrive pkt => ∀ slot ∈ replySlot s pkt, (s.icmptab slot).iccount < icmpQsiz
  | .recv _ icmpid _ _ => 0 ≤ icmpid ∧ icmpid < icmpSlots → (s.icmptab icmpid.toNat).icstate = .used →
      (s.icmptab icmpid.toNat).iccount ≠ 0 → (s.icmptab icmpid.toNat).Removable
  | .release icmpid => 0 ≤ icmpid ∧ icmpid < icmpSlots → (s.icmptab icmpid.toNat).icstate = .used →
      (s.icmptab icmpid.toNat).ichead + (s.icmptab icmpid.toNat).iccount < icmpQsiz
  | .goOn pid => ∀ point ∈ (s.kernel.process pid).point, s.kernel.prmsg pid = some Messages.ok →
      (s.icmptab point.slot).Removable
  | .register _ | .tick _ => True

instance (s : System) (move : Move) : Decidable (Fits s move) :=
  match move with
  | .arrive pkt => inferInstanceAs (Decidable (∀ slot ∈ replySlot s pkt, (s.icmptab slot).iccount < icmpQsiz))
  | .recv _ icmpid _ _ => inferInstanceAs (Decidable (0 ≤ icmpid ∧ icmpid < icmpSlots →
      (s.icmptab icmpid.toNat).icstate = .used → (s.icmptab icmpid.toNat).iccount ≠ 0 →
      (s.icmptab icmpid.toNat).Removable))
  | .release icmpid => inferInstanceAs (Decidable (0 ≤ icmpid ∧ icmpid < icmpSlots →
      (s.icmptab icmpid.toNat).icstate = .used →
      (s.icmptab icmpid.toNat).ichead + (s.icmptab icmpid.toNat).iccount < icmpQsiz))
  | .goOn pid => inferInstanceAs (Decidable (∀ point ∈ (s.kernel.process pid).point,
      s.kernel.prmsg pid = some Messages.ok → (s.icmptab point.slot).Removable))
  | .register _ | .tick _ => isTrue trivial

/-- What holds while the queues fit. -/
structure Law (s : System) : Prop where
  fifo : Fifo s
  unused : ∀ slot, (s.icmptab slot).icstate = .free → (s.icmptab slot).iccount = 0

section Steps

variable {s after : System} {entry : Icmpentry} {pkt : NetPacket} {slot : Nat} {pid : Int} {point : Point}
  {reply : Reply} {move : Move} {accepted freed : List Nat}

/-- One slot changes, with the records about it. -/
theorem Law.setEntry (law : Law s) {system : System} (icmptab : system.icmptab = Function.update s.icmptab slot entry)
    (others : ∀ other, other ≠ slot → system.accepted other = s.accepted other ∧ system.freed other = s.freed other)
    (inOrder : entry.InOrder (system.accepted slot) (system.freed slot))
    (unused : entry.icstate = .free → entry.iccount = 0) : Law system := by
  refine ⟨fun other => ?_, fun other isFree => ?_⟩
  · rcases eq_or_ne other slot with rfl | apart
    · rw [icmptab, Function.update_self]
      exact inOrder
    · rw [icmptab, Function.update_of_ne apart, (others other apart).1, (others other apart).2]
      exact law.fifo other
  · rcases eq_or_ne other slot with rfl | apart
    · rw [icmptab, Function.update_self] at isFree ⊢
      exact unused isFree
    · rw [icmptab, Function.update_of_ne apart] at isFree ⊢
      exact law.unused other isFree

theorem Law.acceptReply (law : Law s) (used : (s.icmptab slot).icstate ≠ .free)
    (space : (s.icmptab slot).iccount < icmpQsiz) : Law (acceptReply s slot pkt) := by
  refine law.setEntry rfl (fun other apart => ⟨Function.update_of_ne apart _ _, rfl⟩) ?_ fun isFree => ?_
  · unfold IcmpEndpoints.acceptReply
    dsimp only
    rw [Function.update_self]
    exact (law.fifo slot).push space pkt
  · dsimp only at isFree
    split at isFree
    · cases isFree
    · exact absurd isFree used

theorem replySlot_used (found : replySlot s pkt = some slot) : (s.icmptab slot).icstate ≠ .free := by
  unfold replySlot at found
  dsimp only at found
  split at found
  · cases found
  · split at found
    · cases found
    · rename_i wanted
      cases found
      exact fun isFree => wanted (Or.inl isFree)

theorem Law.icmpReply (law : Law s) (space : ∀ slot ∈ replySlot s pkt, (s.icmptab slot).iccount < icmpQsiz) :
    Law (icmpReply s pkt) := by
  unfold IcmpEndpoints.icmpReply
  cases found : replySlot s pkt with
  | none => exact ⟨law.fifo, law.unused⟩
  | some slot => exact law.acceptReply (replySlot_used found) (space slot found)

/-- A slot is registered: its queue is empty, and the records stay. -/
theorem Law.register (law : Law s) (remip : UInt32) : Law (icmpRegister s remip).2 := by
  unfold icmpRegister
  dsimp only
  split
  · exact law
  split
  · exact law
  rename_i slot found
  have isFree : (s.icmptab slot).icstate = .free := by simpa using List.find?_some found
  have drained : s.accepted slot = s.freed slot := by
    obtain ⟨length, ring, order⟩ := law.fifo slot
    have counted := ring.counted
    rw [law.unused slot isFree] at counted
    obtain rfl : length = 0 := by lia
    exact order.trans (List.append_nil _)
  refine law.setEntry rfl (fun _ _ => ⟨rfl, rfl⟩) ?_ fun isFree => by cases isFree
  rw [setEntry_accepted, setEntry_freed, drained]
  exact .empty (by decide : 0 < icmpQsiz)

/-- A reply that can be removed is removed in order. -/
theorem Icmpentry.InOrder.dequeue (inOrder : entry.InOrder accepted freed) (removable : entry.Removable) :
    ∃ left : Icmpentry, IcmpEndpoints.dequeue entry = some (entry.icqueue entry.ichead, left) ∧
      left.InOrder accepted (freed ++ [(entry.icqueue entry.ichead).buffer]) ∧
      left.icstate = entry.icstate ∧ left.ichead = entry.ichead + 1 ∧ left.iccount = entry.iccount - 1 := by
  obtain ⟨some_, inside⟩ := removable
  have sizes : icmpQsiz = 8 ∧ icmpSlots = 10 := ⟨rfl, rfl⟩
  have popped := inOrder.pop some_
  rw [if_neg (by lia)] at popped
  unfold IcmpEndpoints.dequeue
  rw [if_neg (by lia), if_neg (by lia)]
  exact ⟨_, rfl, popped, rfl, rfl, rfl⟩

/-- A process takes the first reply of its slot. -/
theorem Law.takeReply (law : Law s) (used : (s.icmptab point.slot).icstate ≠ .free)
    (removable : (s.icmptab point.slot).Removable) (result : takeReply s point = some (reply, after)) :
    Law after := by
  obtain ⟨left, removed, inOrder, state, _, _⟩ := (law.fifo point.slot).dequeue removable
  unfold IcmpEndpoints.takeReply at result
  rw [removed, Option.bind_some] at result
  obtain ⟨copied, _, same⟩ := Option.map_eq_some_iff.mp result
  cases same
  refine law.setEntry rfl (fun other apart => ⟨rfl, Function.update_of_ne apart _ _⟩) ?_ fun isFree => ?_
  · dsimp only
    rw [Function.update_self]
    exact inOrder
  · exact absurd (state ▸ isFree) used

/-- The state of a slot changes to a registered one. -/
theorem Law.setState (law : Law s) {state : Icstate} {icpid : Int} (stays : state ≠ .free) :
    Law (s.setEntry slot { s.icmptab slot with icstate := state, icpid := icpid }) :=
  law.setEntry rfl (fun _ _ => ⟨rfl, rfl⟩) (law.fifo slot) fun isFree => absurd isFree stays

/-- The law does not depend on the processes. -/
theorem Law.withKernel (law : Law s) (kernel : Kernel Point) : Law { s with kernel := kernel } :=
  ⟨law.fifo, law.unused⟩

theorem Law.afterWait (law : Law s) {msg : UInt32}
    (removable : msg = Messages.ok → (s.icmptab point.slot).Removable)
    (result : afterWait s point msg = some (reply, after)) : Law after := by
  have idle : Law (s.setEntry point.slot { s.icmptab point.slot with icstate := .used }) :=
    law.setState (by simp)
  unfold IcmpEndpoints.afterWait at result
  dsimp only at result
  split at result
  · cases result
    exact idle
  · split at result
    · cases result
      exact idle
    · rename_i isOk
      refine idle.takeReply (by simp) ?_ result
      rw [setEntry_self]
      exact removable (not_not.mp isOk)

/-- `icmp_recv` does nothing, begins to wait, fails with a negative time, or takes a reply. -/
theorem icmpRecv_cases {icmpid len : Int} {wait : UInt32}
    (result : icmpRecv s pid icmpid len wait = some (reply, after)) :
    (reply = .returns syserr ∧ after = s) ∨ (0 ≤ icmpid ∧ icmpid < icmpSlots) ∧
      (s.icmptab icmpid.toNat).icstate = .used ∧
      ((∃ kernel, reply = .goesOn ∧ after = { s.setEntry icmpid.toNat
          { s.icmptab icmpid.toNat with icstate := .recv, icpid := pid } with kernel := kernel }) ∨
        (∃ kernel, reply = .returns syserr ∧ after = { s.setEntry icmpid.toNat
          { s.icmptab icmpid.toNat with icstate := .used, icpid := pid } with kernel := kernel }) ∨
        (s.icmptab icmpid.toNat).iccount ≠ 0 ∧ takeReply s ⟨icmpid.toNat, len⟩ = some (reply, after)) := by
  unfold icmpRecv at result
  split at result
  · cases result
    exact Or.inl ⟨rfl, rfl⟩
  rename_i valid
  dsimp only at result
  split at result
  · cases result
    exact Or.inl ⟨rfl, rfl⟩
  rename_i isUsed
  refine Or.inr ⟨by omega, not_not.mp isUsed, ?_⟩
  split at result
  · obtain waits | returned := recvtime_cleared s.kernel pid (⟨icmpid.toNat, len⟩ : Point) wait.toInt32
    · rw [setEntry_kernel, waits] at result
      cases result
      exact Or.inl ⟨_, rfl, rfl⟩
    · rw [setEntry_kernel, returned] at result
      cases result
      refine Or.inr (Or.inl ⟨recvclr s.kernel pid, rfl, ?_⟩)
      simp [System.setEntry]
  · rename_i nonzero
    exact Or.inr (Or.inr ⟨nonzero, result⟩)

/-- The loop of `icmp_release` drains a queue that ends before the last place of the array. -/
theorem releaseLoop_drains (count : Nat) (inOrder : entry.InOrder accepted freed) (counted : entry.iccount = count)
    (inside : entry.ichead + count < icmpQsiz) : ∃ (removed : List Nat) (left : Icmpentry),
      releaseLoop count entry = some (removed, left) ∧ left.InOrder accepted (freed ++ removed) ∧ left.iccount = 0 := by
  induction count generalizing entry freed with
  | zero => exact ⟨[], entry, rfl, by rwa [List.append_nil], counted⟩
  | succ count inductionHypothesis =>
    obtain ⟨left, removed, popped, _, head, fewer⟩ := inOrder.dequeue ⟨by omega, by lia⟩
    obtain ⟨rest, last, result, drained, empty⟩ := inductionHypothesis popped (by lia) (by lia)
    unfold releaseLoop
    rw [removed, Option.bind_some, result]
    exact ⟨_, last, rfl, by simpa using drained, empty⟩

/-- The loop of `icmp_release` leaves the array when the queue reaches its last place. -/
theorem releaseLoop_leaves (count : Nat) (counted : 0 < count) (beyond : icmpQsiz ≤ entry.ichead + count)
    (start : entry.ichead < icmpQsiz) {removed : List Nat} {left : Icmpentry}
    (result : releaseLoop count entry = some (removed, left)) : icmpQsiz ≤ left.ichead := by
  have sizes : icmpQsiz = 8 ∧ icmpSlots = 10 := ⟨rfl, rfl⟩
  induction count generalizing entry removed with
  | zero => omega
  | succ count inductionHypothesis =>
    obtain ⟨first, isFirst, tail⟩ := Option.bind_eq_some_iff.mp result
    obtain ⟨rest, isRest, same⟩ := Option.map_eq_some_iff.mp tail
    cases same
    unfold dequeue at isFirst
    rw [if_neg (by lia), if_neg (by lia)] at isFirst
    cases isFirst
    cases count with
    | zero =>
      cases isRest
      exact beyond
    | succ count =>
      rcases lt_or_ge (entry.ichead + 1) icmpQsiz with inside | outside
      · exact inductionHypothesis (by lia) (by dsimp only; lia) inside isRest
      · unfold releaseLoop dequeue at isRest
        rw [if_pos outside] at isRest
        cases isRest

/-- `icmp_release` does nothing, or drains a slot. -/
theorem icmpRelease_cases {icmpid value : Int} (result : icmpRelease s icmpid = some (value, after)) :
    after = s ∨ (0 ≤ icmpid ∧ icmpid < icmpSlots) ∧ (s.icmptab icmpid.toNat).icstate = .used ∧
      ∃ removed left, releaseLoop (s.icmptab icmpid.toNat).iccount.toNat (s.icmptab icmpid.toNat) =
          some (removed, left) ∧
        after = { s.setEntry icmpid.toNat { left with icstate := .free } with
          freed := Function.update s.freed icmpid.toNat (s.freed icmpid.toNat ++ removed) } := by
  unfold icmpRelease at result
  split at result
  · cases result
    exact Or.inl rfl
  rename_i valid
  dsimp only at result
  split at result
  · cases result
    exact Or.inl rfl
  rename_i isUsed
  obtain ⟨released, isReleased, same⟩ := Option.map_eq_some_iff.mp result
  cases same
  exact Or.inr ⟨by omega, not_not.mp isUsed, released.1, released.2, isReleased, rfl⟩

theorem step_recv {icmpid len : Int} {wait : UInt32}
    (completed : step s (.recv pid icmpid len wait) = some (reply, after)) :
    icmpRecv s pid icmpid len wait = some (reply, after) := by
  simp only [step] at completed
  split at completed
  · exact completed
  · cases completed

theorem step_goOn (completed : step s (.goOn pid) = some (reply, after)) :
    ∃ point, s.kernel.process pid = .ready point ∧
      afterWait { s with kernel := (recvtimeEnd s.kernel pid).2 } point (recvtimeEnd s.kernel pid).1 =
        some (reply, after) := by
  simp only [step] at completed
  split at completed
  case h_1 point ready => exact ⟨point, ready, completed⟩
  all_goals cases completed

theorem step_release {icmpid : Int} (completed : step s (.release icmpid) = some (reply, after)) :
    ∃ value, icmpRelease s icmpid = some (value, after) := by
  simp only [step] at completed
  obtain ⟨released, isReleased, same⟩ := Option.map_eq_some_iff.mp completed
  cases same
  exact ⟨released.1, isReleased⟩

/-- Every move that fits keeps the law. -/
theorem law_preserved (before : System) (move : Move) (reply : Reply) (after : System) (law : Law before)
    (fits : Fits before move) (completed : step before move = some (reply, after)) : Law after := by
  cases move with
  | register remip =>
    cases completed
    exact law.register remip
  | arrive pkt =>
    cases completed
    exact law.icmpReply fits
  | recv pid icmpid len wait =>
    rcases icmpRecv_cases (step_recv completed) with ⟨_, rfl⟩ | ⟨valid, used, ⟨kernel, _, rfl⟩ | ⟨kernel, _, rfl⟩ |
      ⟨nonzero, result⟩⟩
    · exact law
    · exact (law.setState (by simp)).withKernel kernel
    · exact (law.setState (by simp)).withKernel kernel
    · exact law.takeReply (by simp [used]) (fits valid used nonzero) result
  | release icmpid =>
    obtain ⟨value, result⟩ := step_release completed
    rcases icmpRelease_cases result with rfl | ⟨valid, used, removed, left, drained, rfl⟩
    · exact law
    · have inside := fits valid used
      have bounds := (law.fifo icmpid.toNat).bounds
      obtain ⟨_, _, isDrained, inOrder, empty⟩ := releaseLoop_drains (before.icmptab icmpid.toNat).iccount.toNat
        (law.fifo icmpid.toNat) (by lia) (by lia)
      cases drained.symm.trans isDrained
      refine law.setEntry rfl (fun other apart => ⟨rfl, Function.update_of_ne apart _ _⟩) ?_ fun _ => empty
      dsimp only
      rw [Function.update_self]
      exact inOrder
  | tick pid =>
    cases completed
    exact law.withKernel _
  | goOn pid =>
    obtain ⟨point, ready, result⟩ := step_goOn completed
    exact (law.withKernel (recvtimeEnd before.kernel pid).2).afterWait
      (fun isOk => fits point (by rw [ready]; rfl) (recvtimeEnd_ok_iff.mp isOk)) result

/-- A reply that cannot be removed is removed all the same, and the queue is no longer in order. -/
theorem takeReply_spoils (inOrder : entry.InOrder accepted freed) (same : s.icmptab point.slot = entry)
    (stuck : ¬ entry.Removable) (result : takeReply s point = some (reply, after)) : ¬ Fifo after := by
  have sizes : icmpQsiz = 8 ∧ icmpSlots = 10 := ⟨rfl, rfl⟩
  have bounds := inOrder.bounds
  obtain ⟨removed, isRemoved, rest⟩ := Option.bind_eq_some_iff.mp result
  obtain ⟨copied, _, isAfter⟩ := Option.map_eq_some_iff.mp rest
  rw [same] at isRemoved
  unfold dequeue at isRemoved
  rw [if_neg (by lia), if_neg (by lia)] at isRemoved
  cases isRemoved
  cases isAfter
  intro fifo
  have later := (fifo point.slot).bounds
  simp only [setEntry_self] at later
  exact stuck ⟨by omega, by omega⟩

theorem not_fifo_of_full (found : replySlot s pkt = some slot)
    (full : ¬ (s.icmptab slot).iccount < icmpQsiz) : ¬ Fifo (icmpReply s pkt) := by
  intro fifo
  have later := (fifo slot).bounds
  unfold icmpReply acceptReply at later
  rw [found] at later
  simp only [System.setEntry, Function.update_self] at later
  omega

/-- A move that does not fit spoils the order of a queue. -/
theorem misfit_spoils (before : System) (move : Move) (reply : Reply) (after : System) (law : Law before)
    (misfit : ¬ Fits before move) (completed : step before move = some (reply, after)) : ¬ Fifo after := by
  cases move with
  | register remip => exact absurd trivial misfit
  | arrive pkt =>
    cases completed
    obtain ⟨slot, found, full⟩ : ∃ slot, replySlot before pkt = some slot ∧
        ¬ (before.icmptab slot).iccount < icmpQsiz := by simpa [Fits] using misfit
    exact not_fifo_of_full found full
  | recv pid icmpid len wait =>
    obtain ⟨valid, used, nonzero, stuck⟩ : (0 ≤ icmpid ∧ icmpid < icmpSlots) ∧
        (before.icmptab icmpid.toNat).icstate = .used ∧ (before.icmptab icmpid.toNat).iccount ≠ 0 ∧
        ¬ (before.icmptab icmpid.toNat).Removable := by
      simpa only [Fits, Classical.not_imp] using misfit
    have result := step_recv completed
    unfold icmpRecv at result
    rw [if_neg (by omega)] at result
    dsimp only at result
    rw [if_neg (not_not.mpr used), if_neg nonzero] at result
    exact takeReply_spoils (law.fifo icmpid.toNat) rfl stuck result
  | release icmpid =>
    obtain ⟨valid, used, beyond⟩ : (0 ≤ icmpid ∧ icmpid < icmpSlots) ∧
        (before.icmptab icmpid.toNat).icstate = .used ∧
        ¬ (before.icmptab icmpid.toNat).ichead + (before.icmptab icmpid.toNat).iccount < icmpQsiz := by
      simpa only [Fits, Classical.not_imp] using misfit
    have bounds := (law.fifo icmpid.toNat).bounds
    obtain ⟨value, result⟩ := step_release completed
    unfold icmpRelease at result
    rw [if_neg (by omega)] at result
    dsimp only at result
    rw [if_neg (not_not.mpr used)] at result
    obtain ⟨released, isReleased, same⟩ := Option.map_eq_some_iff.mp result
    cases same
    have outside := releaseLoop_leaves (before.icmptab icmpid.toNat).iccount.toNat (by lia) (by lia)
      (by omega) isReleased
    intro fifo
    have later := (fifo icmpid.toNat).bounds
    simp only [setEntry_self] at later
    omega
  | tick pid => exact absurd trivial misfit
  | goOn pid =>
    obtain ⟨point, isPoint, isOk, stuck⟩ : ∃ point, (before.kernel.process pid).point = some point ∧
        before.kernel.prmsg pid = some Messages.ok ∧ ¬ (before.icmptab point.slot).Removable := by
      simpa [Fits] using misfit
    obtain ⟨this, ready, result⟩ := step_goOn completed
    rw [ready] at isPoint
    cases isPoint
    rw [recvtimeEnd_ok_iff.mpr isOk] at result
    exact @takeReply_spoils _ _ { before.icmptab point.slot with icstate := .used } _ _ _ _
      (law.fifo point.slot) setEntry_self stuck result

/-- What a process returns that takes a reply. -/
theorem takeReply_data {value : Int} {data : List UInt8} (inOrder : entry.InOrder accepted freed)
    (removable : entry.Removable) (same : s.icmptab point.slot = entry)
    (result : takeReply s point = some (.delivers value data, after)) :
    icmpCopy (entry.icqueue entry.ichead) point.len = some (value, data) ∧
      after.freed point.slot = s.freed point.slot ++ [(entry.icqueue entry.ichead).buffer] ∧
      (after.icmptab point.slot).iccount = entry.iccount - 1 := by
  obtain ⟨left, removed, _, _, _, fewer⟩ := inOrder.dequeue removable
  unfold takeReply at result
  rw [same, removed, Option.bind_some] at result
  obtain ⟨copied, isCopied, isAfter⟩ := Option.map_eq_some_iff.mp result
  cases isAfter
  exact ⟨isCopied, Function.update_self _ _ _, by simpa using fewer⟩

/-- Data is returned by removing the first reply of a queue. -/
theorem step_removes (law : Law s) (fits : Fits s move) {value : Int} {data : List UInt8}
    (completed : step s move = some (.delivers value data, after)) : Removes s after value data := by
  cases move with
  | recv pid icmpid len wait =>
    rcases icmpRecv_cases (step_recv completed) with ⟨other, _⟩ | ⟨valid, used, ⟨_, other, _⟩ | ⟨_, other, _⟩ |
      ⟨nonzero, result⟩⟩
    · cases other
    · cases other
    · cases other
    · have removable := fits valid used nonzero
      exact ⟨icmpid.toNat, len, removable.1, takeReply_data (law.fifo icmpid.toNat) removable rfl result⟩
  | goOn pid =>
    obtain ⟨point, ready, result⟩ := step_goOn completed
    unfold afterWait at result
    dsimp only at result
    split at result
    · cases result
    · split at result
      · cases result
      · rename_i isOk
        have removable := fits point (by rw [ready]; rfl) (recvtimeEnd_ok_iff.mp (not_not.mp isOk))
        have taken := @takeReply_data _ _ { s.icmptab point.slot with icstate := .used } _ _ _ _ _
          (law.fifo point.slot) removable setEntry_self result
        exact ⟨point.slot, point.len, removable.1, taken⟩
  | release icmpid =>
    simp only [step] at completed
    obtain ⟨_, _, same⟩ := Option.map_eq_some_iff.mp completed
    cases same
  | register remip => cases completed
  | arrive pkt => cases completed
  | tick pid => cases completed

end Steps

theorem icmpInit_law (prmsg : Int → Option UInt32) (nothing : NetPacket) : Law (icmpInit prmsg nothing) :=
  ⟨fun _ => InOrder.empty (by decide : 0 < icmpQsiz), fun _ _ => rfl⟩

/-- In every run, the queues of all slots are bounded and in order, with every accepted reply freed once and
in the order of arrival or still queued, just when every move fits. Then data is returned only by removing
the first reply of a queue. -/
theorem reply_queues_are_fifo (prmsg : Int → Option UInt32) (nothing : NetPacket)
    (events : List (Event System Move Reply)) (last : System)
    (run : Run step (icmpInit prmsg nothing) events last) :
    ((∀ event ∈ events, Fifo event.after) ↔ Meets Fits events) ∧
    (Meets Fits events → ∀ event ∈ events, ∀ value data, event.reply = .delivers value data →
      Removes event.before event.after value data) := by
  refine ⟨?_, fun fits event member value data isReply => ?_⟩
  · exact good_iff_meets Law Fifo (fun _ _ => True) Fits
      (fun before move reply after law _ => law_preserved before move reply after law) (fun _ law => law.fifo)
      misfit_spoils _ _ _ run (fun _ _ => trivial) (icmpInit_law prmsg nothing)
  · obtain ⟨law, _, completed⟩ := invariant_events Law Fits law_preserved _ _ _ run
      (icmpInit_law prmsg nothing) fits event member
    rw [isReply] at completed
    exact step_removes law (fits event member) completed

/-- An echo reply for slot zero with one byte of data, from host zero, as `ip_in` hands it to `icmp_in`. -/
def smallReply (buffer : Nat) : NetPacket where
  buffer := buffer
  bytes := fun k => if k = 16 then 29 else if k = 42 then 65 else 0

/-- A process waits for a reply and gets it. -/
theorem waiting_process_gets_reply : ∃ events last,
    Run step (icmpInit (fun _ => none) (smallReply 0)) events last ∧
    (∀ event ∈ events, Fifo event.after) ∧ last.freed 0 = [10] ∧ last.accepted 0 = [10, 11] := by
  obtain ⟨events, last, run, checked⟩ := trace_exists step (icmpInit (fun _ => none) (smallReply 0))
    [.register 0, .recv 3 0 100 1000, .arrive (smallReply 10), .goOn 3, .arrive (smallReply 11)]
    (fun events (last : System) => decide ((∀ event ∈ events, Fits event.before event.call) ∧
      last.freed 0 = [10] ∧ last.accepted 0 = [10, 11])) (by decide +kernel)
  obtain ⟨fits, freed, accepted⟩ := of_decide_eq_true checked
  exact ⟨events, last, run, (reply_queues_are_fifo _ _ events last run).1.mpr fits, freed, accepted⟩

/-- Nine replies come for a slot: the ninth one is stored over the first one. -/
theorem ninth_reply_is_stored : ∃ events last,
    Run step (icmpInit (fun _ => none) (smallReply 0)) events last ∧
    (last.icmptab 0).iccount = 9 ∧ ((last.icmptab 0).icqueue 0).buffer = 18 ∧ ¬ Fifo last := by
  obtain ⟨events, last, run, checked⟩ := trace_exists step (icmpInit (fun _ => none) (smallReply 0))
    [.register 0, .arrive (smallReply 10), .arrive (smallReply 11), .arrive (smallReply 12),
      .arrive (smallReply 13), .arrive (smallReply 14), .arrive (smallReply 15), .arrive (smallReply 16),
      .arrive (smallReply 17), .arrive (smallReply 18)]
    (fun _ (last : System) => decide ((last.icmptab 0).iccount = 9 ∧
      ((last.icmptab 0).icqueue 0).buffer = 18)) (by decide +kernel)
  obtain ⟨count, buffer⟩ := of_decide_eq_true checked
  refine ⟨events, last, run, count, buffer, fun fifo => ?_⟩
  have bounds := (fifo 0).bounds
  rw [count] at bounds
  have sizes : icmpQsiz = 8 := rfl
  omega

end Xinu.IcmpEndpoints
