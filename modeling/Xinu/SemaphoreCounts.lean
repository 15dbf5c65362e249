import Xinu.ProcessAgreement

/-!
# What the count of a semaphore means

The log of a semaphore tells who waits for it and in which order, how many waits were
allowed since the count was last set, and how many the count and the signals since then
allow. A negative count is the length of the queue; the count and the waits allowed
together are what was given.
-/

namespace Xinu.Processes

open Runs CIntegers

/-- The semaphore that an entry of the log is about. -/
def Entry.about : Entry → Option Int
  | .semSet sem _ | .signalled sem | .passed _ sem | .blocked _ sem | .released _ sem
  | .discharged _ sem | .withdrawn _ sem => some sem
  | _ => none

/-- Who waits for a semaphore, those who called `wait` first in front. -/
def waiting (sem : Int) : List Entry → List Int
  | [] => []
  | entry :: log =>
    if entry.about = some sem then
      match entry with
      | .blocked pid _ => waiting sem log ++ [pid]
      | .released pid _ | .discharged pid _ | .withdrawn pid _ => (waiting sem log).erase pid
      | _ => waiting sem log
    else waiting sem log

/-- Each process that was released had called `wait` before all others that waited then. -/
def InOrder (sem : Int) : List Entry → Prop
  | [] => True
  | entry :: log => InOrder sem log ∧
    ∀ pid, entry = .released pid sem ∨ entry = .discharged pid sem →
      (waiting sem log).head? = some pid

/-- The waits that were allowed since the count was set, without those that were discharged. -/
def granted (sem : Int) : List Entry → Int
  | [] => 0
  | entry :: log =>
    if entry.about = some sem then
      match entry with
      | .semSet _ _ => 0
      | .passed _ _ | .released _ _ => granted sem log + 1
      | _ => granted sem log
    else granted sem log

/-- The count that was set and the signals since then. -/
def given (sem : Int) : List Entry → Int
  | [] => 0
  | entry :: log =>
    if entry.about = some sem then
      match entry with
      | .semSet _ count => count.toInt
      | .signalled _ => given sem log + 1
      | _ => given sem log
    else given sem log

/-- The count encodes the queue. -/
def Counted (count : Int32) (queue : List Int) : Prop :=
  (count.toInt < 0 → (queue.length : Int) = -count.toInt) ∧ (0 ≤ count.toInt → queue = [])

/-- The law of one semaphore. Its queue is being emptied while `clearing` names it. -/
structure SemLaw (b : Board) (sem : Int) : Prop where
  queue : b.queues (semQueue sem) = waiting sem b.log
  order : InOrder sem b.log
  bound : granted sem b.log ≤ given sem b.log
  counted : ((b.semtab sem).sstate = .used ↔ b.clearing ≠ some sem) →
    Counted (b.semtab sem).scount (b.queues (semQueue sem))
  unused : (b.semtab sem).sstate = .free → b.clearing ≠ some sem → b.queues (semQueue sem) = []
  exact : (b.semtab sem).sstate = .used → b.clearing ≠ some sem →
    granted sem b.log + max 0 (b.semtab sem).scount.toInt = given sem b.log

section Log

variable {sem : Int} {entry : Entry} {log entries : List Entry}

/-- Entries about other things. -/
theorem log_silent (log : List Entry) (silent : ∀ entry ∈ entries, entry.about ≠ some sem) :
    waiting sem (entries ++ log) = waiting sem log ∧
      (InOrder sem (entries ++ log) ↔ InOrder sem log) ∧
      granted sem (entries ++ log) = granted sem log ∧
      given sem (entries ++ log) = given sem log := by
  induction entries with
  | nil => exact ⟨rfl, Iff.rfl, rfl, rfl⟩
  | cons entry entries inductionHypothesis =>
    have here := silent entry List.mem_cons_self
    obtain ⟨waits, order, grants, gives⟩ :=
      inductionHypothesis fun other member => silent other (List.mem_cons_of_mem _ member)
    refine ⟨?_, ?_, ?_, ?_⟩
    · simp only [List.cons_append, waiting, if_neg here]
      exact waits
    · simp only [List.cons_append, InOrder]
      refine (and_iff_left ?_).trans order
      rintro pid (rfl | rfl) <;> exact absurd rfl here
    · simp only [List.cons_append, granted, if_neg here]
      exact grants
    · simp only [List.cons_append, given, if_neg here]
      exact gives

end Log

/-- Nothing changes for a semaphore. -/
structure SemFrame (b after : Board) (sem : Int) : Prop where
  queues : after.queues (semQueue sem) = b.queues (semQueue sem)
  semtab : after.semtab sem = b.semtab sem
  clearing : after.clearing = some sem ↔ b.clearing = some sem
  log : ∃ entries, after.log = entries ++ b.log ∧ ∀ entry ∈ entries, entry.about ≠ some sem

section Frame

variable {b after middle : Board} {sem pid : Int}

theorem SemLaw.frame (law : SemLaw b sem) (frame : SemFrame b after sem) : SemLaw after sem := by
  obtain ⟨entries, log, silent⟩ := frame.log
  obtain ⟨waits, order, grants, gives⟩ := log_silent b.log silent
  rw [← log] at waits order grants gives
  have clearing : after.clearing ≠ some sem ↔ b.clearing ≠ some sem := not_congr frame.clearing
  refine ⟨?_, order.mpr law.order, ?_, ?_, ?_, ?_⟩
  · rw [frame.queues, waits, law.queue]
  · rw [grants, gives]
    exact law.bound
  · rw [frame.semtab, frame.queues, clearing]
    exact law.counted
  · rw [frame.semtab, frame.queues, clearing]
    exact law.unused
  · rw [frame.semtab, clearing, grants, gives]
    exact law.exact

theorem SemFrame.trans (front : SemFrame b middle sem) (back : SemFrame middle after sem) :
    SemFrame b after sem := by
  obtain ⟨early, earlyLog, earlySilent⟩ := front.log
  obtain ⟨late, lateLog, lateSilent⟩ := back.log
  refine ⟨back.queues.trans front.queues, back.semtab.trans front.semtab,
    back.clearing.trans front.clearing, late ++ early, ?_, ?_⟩
  · rw [lateLog, earlyLog, List.append_assoc]
  · intro entry member
    exact (List.mem_append.mp member).elim (lateSilent entry) (earlySilent entry)

/-- The log stays or gets one more entry. -/
theorem SemFrame.quiet (queues : after.queues (semQueue sem) = b.queues (semQueue sem))
    (semtab : after.semtab sem = b.semtab sem) (clearing : after.clearing = b.clearing)
    (log : after.log = b.log) : SemFrame b after sem :=
  ⟨queues, semtab, by rw [clearing], [], log, by simp⟩

theorem SemFrame.entry (entry : Entry) (queues : after.queues (semQueue sem) = b.queues (semQueue sem))
    (semtab : after.semtab sem = b.semtab sem) (clearing : after.clearing = b.clearing)
    (log : after.log = entry :: b.log) (silent : entry.about ≠ some sem) : SemFrame b after sem :=
  ⟨queues, semtab, by rw [clearing], [entry], log, by simpa using silent⟩

theorem SemFrame.note (b : Board) {entry : Entry} (silent : entry.about ≠ some sem) :
    SemFrame b (b.note entry) sem :=
  SemFrame.entry _ rfl rfl rfl rfl silent

theorem SemFrame.answer (b : Board) (value : Int) : SemFrame b (b.answer value) sem :=
  SemFrame.entry _ rfl rfl rfl rfl (by simp [Entry.about])

theorem SemFrame.becomeReady (b : Board) (pid : Int) (range : SemRange sem) :
    SemFrame b (b.becomeReady pid) sem := by
  refine SemFrame.entry _ ?_ rfl rfl rfl (by simp [Entry.about])
  simp [Board.becomeReady, Board.setState, Board.setProc, Board.setQueue, Board.setKey, Board.note,
    semQueue_ne_ready range]

theorem SemFrame.leave (b : Board) (pid : Int) {q : Int} (apart : semQueue sem ≠ q) :
    SemFrame b (b.leave pid q) sem := by
  refine SemFrame.quiet ?_ rfl rfl rfl
  simp [Board.leave, Board.setQueue, apart]

theorem SemFrame.rouse (b : Board) (pid : Int) (range : SemRange sem) :
    SemFrame b (b.rouse pid) sem := by
  refine SemFrame.quiet ?_ rfl rfl rfl
  simp [Board.rouse, Board.leave, Board.setQueue, semQueue_ne_sleep range]

theorem SemFrame.alert (b : Board) (pid : Int) (range : SemRange sem) :
    SemFrame b (b.alert pid) sem := by
  unfold Board.alert
  split
  case h_1 => exact SemFrame.becomeReady b pid range
  case h_2 =>
    refine (SemFrame.rouse b pid range).trans (SemFrame.trans ?_ (SemFrame.becomeReady _ pid range))
    exact SemFrame.note _ (by simp [Entry.about])
  all_goals exact SemFrame.quiet rfl rfl rfl rfl

end Frame

section Steps

variable {b : Board} {sem pid : Int}

/-- One more or one less, where no word overflows. -/
theorem count_succ (count : Int32) (low : count.toInt < 2 ^ 31 - 1) :
    (count + 1).toInt = count.toInt + 1 := by
  have range := toInt_range count
  have one : (1 : Int32).toInt = 1 := rfl
  rw [toInt_add_of_range count 1 (by lia) (by omega), one]

theorem count_pred (count : Int32) (high : -2 ^ 31 < count.toInt) :
    (count - 1).toInt = count.toInt - 1 := by
  have range := toInt_range count
  have one : (1 : Int32).toInt = 1 := rfl
  rw [toInt_sub_of_range count 1 (by omega) (by omega), one]

/-- A queue is never as long as a word is large. -/
theorem Counted.low {count : Int32} (agree : Agree b) (range : SemRange sem)
    (counted : Counted count (b.queues (semQueue sem))) : -2 ^ 31 < count.toInt := by
  have length := agree.placed.length_le (isQueue_sem range)
  by_contra tooLow
  have negative := counted.1 (by omega)
  omega

/-- A wait that passes. -/
theorem SemLaw.pass (law : SemLaw b sem) (agree : Agree b) (lawful : b.Lawful (.pass sem)) :
    SemLaw (b.next (.pass sem)) sem := by
  obtain ⟨_, range, used, enough, clearing⟩ := lawful
  have away : b.clearing ≠ some sem := by simp [clearing]
  have counted := law.counted (iff_of_true used away)
  have exact := law.exact used away
  have pred := count_pred _ (counted.low agree range)
  have isEmpty : b.queues (semQueue sem) = [] := counted.2 (by lia)
  refine ⟨?_, ?_, ?_, fun _ => ⟨?_, ?_⟩, ?_, ?_⟩
  · simpa [Board.next, Board.note, Board.setCount, waiting, Entry.about] using law.queue
  · simpa [Board.next, Board.note, Board.setCount, InOrder] using law.order
  · simp only [Board.next, Board.note, Board.setCount, granted, given, Entry.about, if_pos]
    lia
  · simp only [Board.next, Board.note, Board.setCount, Function.update_self, isEmpty]
    lia
  · simp only [Board.next, Board.note, Board.setCount, isEmpty]
    simp
  · simp only [Board.next, Board.note, Board.setCount, isEmpty]
    simp
  · simp only [Board.next, Board.note, Board.setCount, granted, given, Entry.about, if_pos,
      Function.update_self]
    lia

/-- A wait that blocks. -/
theorem SemLaw.block (law : SemLaw b sem) (agree : Agree b) (lawful : b.Lawful (.block sem)) :
    SemLaw (b.next (.block sem)) sem := by
  obtain ⟨_, range, used, few, clearing⟩ := lawful
  have away : b.clearing ≠ some sem := by simp [clearing]
  have counted := law.counted (iff_of_true used away)
  have exact := law.exact used away
  have pred := count_pred _ (counted.low agree range)
  have queue : (b.next (.block sem)).queues (semQueue sem) =
      b.queues (semQueue sem) ++ [b.currpid] := by
    simp [Board.next, Board.note, Board.setCount, Board.setProc, Board.setQueue]
  have entry : (b.next (.block sem)).semtab sem =
      { b.semtab sem with scount := (b.semtab sem).scount - 1 } := by
    simp [Board.next, Board.note, Board.setCount, Board.setProc, Board.setQueue]
  have log : (b.next (.block sem)).log = .blocked b.currpid sem :: b.log := rfl
  have grants : granted sem (b.next (.block sem)).log = granted sem b.log := by
    simp [log, granted, Entry.about]
  have gives : given sem (b.next (.block sem)).log = given sem b.log := by
    simp [log, given, Entry.about]
  refine ⟨?_, ?_, ?_, fun _ => ⟨?_, ?_⟩, ?_, ?_⟩
  · rw [queue, law.queue, log]
    simp [waiting, Entry.about]
  · rw [log]
    simpa [InOrder] using law.order
  · rw [grants, gives]
    exact law.bound
  · intro _
    rw [queue, entry, List.length_append, List.length_singleton]
    dsimp only
    by_cases negative : (b.semtab sem).scount.toInt < 0
    · have length := counted.1 negative
      push_cast
      lia
    · rw [counted.2 (not_lt.mp negative)]
      simp only [List.length_nil]
      lia
  · rw [entry]
    dsimp only
    lia
  · rw [entry]
    intro isFree
    rw [used] at isFree
    cases isFree
  · rw [entry, grants, gives]
    dsimp only
    lia

/-- A signal that nobody waits for. -/
theorem SemLaw.signal (law : SemLaw b sem) (lawful : b.Lawful (.signal sem))
    (low : (b.semtab sem).scount.toInt < 2 ^ 31 - 1) : SemLaw (b.next (.signal sem)) sem := by
  obtain ⟨range, used, clearing, idle⟩ := lawful
  have away : b.clearing ≠ some sem := by simp [clearing]
  have counted := law.counted (iff_of_true used away)
  have exact := law.exact used away
  have succ := count_succ _ low
  have enough : 0 ≤ (b.semtab sem).scount.toInt := by
    rcases idle with enough | isEmpty
    · exact enough
    · by_contra negative
      have length := counted.1 (not_le.mp negative)
      rw [isEmpty, List.length_nil] at length
      lia
  have isEmpty := counted.2 enough
  refine ⟨?_, ?_, ?_, fun _ => ⟨?_, ?_⟩, ?_, ?_⟩
  · simpa [Board.next, Board.note, Board.setCount, waiting, Entry.about] using law.queue
  · simpa [Board.next, Board.note, Board.setCount, InOrder] using law.order
  · simp only [Board.next, Board.note, Board.setCount, granted, given, Entry.about, if_pos]
    lia
  · simp only [Board.next, Board.note, Board.setCount, Function.update_self, isEmpty]
    lia
  · simp only [Board.next, Board.note, Board.setCount, isEmpty]
    simp
  · simp only [Board.next, Board.note, Board.setCount, isEmpty]
    simp
  · simp only [Board.next, Board.note, Board.setCount, granted, given, Entry.about, if_pos,
      Function.update_self]
    lia

/-- The queue without its first process. -/
theorem length_erase_head {queue : List Int} (first : queue.head? = some pid) :
    ((queue.erase pid).length : Int) = queue.length - 1 := by
  have member := List.mem_of_mem_head? first
  have fewer := List.length_erase_of_mem member
  have positive := List.length_pos_of_mem member
  lia

/-- The first process of the queue is taken out, and the count is raised or not. -/
theorem Counted.succ {count : Int32} {queue : List Int} (counted : Counted count queue)
    (negative : count.toInt < 0) (first : queue.head? = some pid) :
    Counted (count + 1) (queue.erase pid) := by
  have length := counted.1 negative
  have fewer := length_erase_head first
  have succ := count_succ count (by lia)
  refine ⟨fun _ => by omega, fun enough => ?_⟩
  have none_ : (queue.erase pid).length = 0 := by lia
  exact List.length_eq_zero_iff.mp none_

/-- A signal that releases a process. -/
theorem SemLaw.release (law : SemLaw b sem) (lawful : b.Lawful (.release sem pid)) :
    SemLaw (b.next (.release sem pid)) sem := by
  obtain ⟨range, used, clearing, negative, first⟩ := lawful
  have away : b.clearing ≠ some sem := by simp [clearing]
  have counted := law.counted (iff_of_true used away)
  have exact := law.exact used away
  have succ := count_succ (b.semtab sem).scount (by omega)
  have queue : (b.next (.release sem pid)).queues (semQueue sem) =
      (b.queues (semQueue sem)).erase pid := by
    simp [Board.next, Board.becomeReady, Board.note, Board.leave, Board.setQueue, Board.setState,
      Board.setProc, Board.setKey, Board.setCount, semQueue_ne_ready range]
  have entry : (b.next (.release sem pid)).semtab sem =
      { b.semtab sem with scount := (b.semtab sem).scount + 1 } := by
    simp [Board.next, Board.becomeReady, Board.note, Board.leave, Board.setQueue, Board.setState,
      Board.setProc, Board.setKey, Board.setCount]
  have log : (b.next (.release sem pid)).log =
      .readied pid :: .released pid sem :: .signalled sem :: b.log := rfl
  have waits : waiting sem (b.next (.release sem pid)).log = (waiting sem b.log).erase pid := by
    simp [log, waiting, Entry.about]
  have grants : granted sem (b.next (.release sem pid)).log = granted sem b.log + 1 := by
    simp [log, granted, Entry.about]
  have gives : given sem (b.next (.release sem pid)).log = given sem b.log + 1 := by
    simp [log, given, Entry.about]
  refine ⟨?_, ?_, ?_, fun _ => ?_, ?_, ?_⟩
  · rw [queue, waits, law.queue]
  · rw [log]
    simpa [InOrder, waiting, Entry.about, law.order, ← law.queue] using first
  · rw [grants, gives]
    lia
  · rw [queue, entry]
    exact counted.succ negative first
  · rw [entry]
    intro isFree
    rw [used] at isFree
    cases isFree
  · rw [entry, grants, gives]
    dsimp only
    lia

/-- The count is set while nobody waits. -/
theorem SemLaw.set {after : Board} {count : Int32} (law : SemLaw b sem)
    (isEmpty : b.queues (semQueue sem) = []) (enough : 0 ≤ count.toInt)
    (queues : after.queues = b.queues)
    (scount : (after.semtab sem).scount = count)
    (log : after.log = .semSet sem count :: b.log) : SemLaw after sem := by
  have grants : granted sem after.log = 0 := by simp [log, granted, Entry.about]
  have gives : given sem after.log = count.toInt := by simp [log, given, Entry.about]
  refine ⟨?_, ?_, ?_, fun _ => ⟨?_, fun _ => ?_⟩, fun _ _ => ?_, fun _ _ => ?_⟩
  · rw [queues, law.queue, log]
    simp [waiting, Entry.about]
  · rw [log]
    simpa [InOrder] using law.order
  · rw [grants, gives]
    exact enough
  · rw [scount]
    lia
  · rw [queues]
    exact isEmpty
  · rw [queues]
    exact isEmpty
  · rw [grants, gives, scount]
    lia

/-- A process is taken out of the queue of a semaphore that is being cleared. -/
theorem SemLaw.discharge (law : SemLaw b sem) (lawful : b.Lawful (.discharge sem pid)) :
    SemLaw (b.next (.discharge sem pid)) sem := by
  obtain ⟨range, used, clearing, first⟩ := lawful
  have queue : (b.next (.discharge sem pid)).queues (semQueue sem) =
      (b.queues (semQueue sem)).erase pid := by
    simp [Board.next, Board.becomeReady, Board.note, Board.leave, Board.setQueue, Board.setState,
      Board.setProc, Board.setKey, semQueue_ne_ready range]
  have log : (b.next (.discharge sem pid)).log =
      .readied pid :: .discharged pid sem :: b.log := rfl
  have still : (b.next (.discharge sem pid)).clearing = some sem := clearing
  have entry : (b.next (.discharge sem pid)).semtab sem = b.semtab sem := rfl
  refine ⟨?_, ?_, ?_, ?_, fun _ away => absurd still away, fun _ away => absurd still away⟩
  · rw [queue, law.queue, log]
    simp [waiting, Entry.about]
  · rw [log]
    simpa [InOrder, waiting, Entry.about, law.order, ← law.queue] using first
  · rw [log]
    simpa [granted, given, Entry.about] using law.bound
  · rw [entry, still, used]
    simp

/-- A process is taken out of the queue of a semaphore that was deleted. -/
theorem SemLaw.dischargeOne (law : SemLaw b sem) (lawful : b.Lawful (.dischargeOne sem pid)) :
    SemLaw (b.next (.dischargeOne sem pid)) sem := by
  obtain ⟨range, isFree, clearing, negative, first⟩ := lawful
  have counted := law.counted (by simp [isFree, clearing])
  have queue : (b.next (.dischargeOne sem pid)).queues (semQueue sem) =
      (b.queues (semQueue sem)).erase pid := by
    simp [Board.next, Board.becomeReady, Board.note, Board.leave, Board.setQueue, Board.setState,
      Board.setProc, Board.setKey, Board.setCount, semQueue_ne_ready range]
  have entry : (b.next (.dischargeOne sem pid)).semtab sem =
      { b.semtab sem with scount := (b.semtab sem).scount + 1 } := by
    simp [Board.next, Board.becomeReady, Board.note, Board.leave, Board.setQueue, Board.setState,
      Board.setProc, Board.setKey, Board.setCount]
  have log : (b.next (.dischargeOne sem pid)).log =
      .readied pid :: .discharged pid sem :: b.log := rfl
  have still : (b.next (.dischargeOne sem pid)).clearing = some sem := clearing
  refine ⟨?_, ?_, ?_, fun _ => ?_, fun _ away => absurd still away, fun _ away => absurd still away⟩
  · rw [queue, law.queue, log]
    simp [waiting, Entry.about]
  · rw [log]
    simpa [InOrder, waiting, Entry.about, law.order, ← law.queue] using first
  · rw [log]
    simpa [granted, given, Entry.about] using law.bound
  · rw [queue, entry]
    exact counted.succ negative first

/-- A waiting process is killed. -/
theorem SemLaw.withdraw {after : Board} (law : SemLaw b sem) (clearing : b.clearing = none)
    (member : pid ∈ b.queues (semQueue sem))
    (queue : after.queues (semQueue sem) = (b.queues (semQueue sem)).erase pid)
    (entry : after.semtab sem = { b.semtab sem with scount := (b.semtab sem).scount + 1 })
    (still : after.clearing = none) (log : after.log = .withdrawn pid sem :: b.log) :
    SemLaw after sem := by
  have away : b.clearing ≠ some sem := by simp [clearing]
  have stillAway : after.clearing ≠ some sem := by simp [still]
  have used : (b.semtab sem).sstate = .used := by
    cases state : (b.semtab sem).sstate with
    | used => rfl
    | free =>
      rw [law.unused state away] at member
      cases member
  have counted := law.counted (iff_of_true used away)
  have exact := law.exact used away
  have negative : (b.semtab sem).scount.toInt < 0 := by
    by_contra enough
    rw [counted.2 (not_lt.mp enough)] at member
    cases member
  have length := counted.1 negative
  have fewer := List.length_erase_of_mem member
  have positive := List.length_pos_of_mem member
  have succ := count_succ (b.semtab sem).scount (by lia)
  refine ⟨?_, ?_, ?_, fun _ => ⟨?_, ?_⟩, ?_, ?_⟩
  · rw [queue, law.queue, log]
    simp [waiting, Entry.about]
  · rw [log]
    simpa [InOrder] using law.order
  · rw [log]
    simpa [granted, given, Entry.about] using law.bound
  · rw [queue, entry]
    dsimp only
    lia
  · rw [queue, entry]
    dsimp only
    intro enough
    have none_ : ((b.queues (semQueue sem)).erase pid).length = 0 := by lia
    exact List.length_eq_zero_iff.mp none_
  · rw [entry]
    intro isFree
    rw [used] at isFree
    cases isFree
  · intro _ _
    have grants : granted sem after.log = granted sem b.log := by simp [log, granted, Entry.about]
    have gives : given sem after.log = given sem b.log := by simp [log, given, Entry.about]
    rw [entry, grants, gives]
    dsimp only
    lia

/-- A process that is killed leaves the semaphore that it waits for. -/
theorem SemLaw.quit (law : SemLaw b sem) (agree : Agree b) (clearing : b.clearing = none)
    (pidRange : InRange pid) (range : SemRange sem) : SemLaw (b.quit pid) sem := by
  unfold Board.quit
  split
  case h_1 | h_6 | h_7 | h_8 => exact law.frame (SemFrame.quiet rfl rfl rfl rfl)
  case h_2 | h_3 =>
    exact law.frame ((SemFrame.rouse _ pid range).trans (SemFrame.note _ (by simp [Entry.about])))
  case h_4 waits =>
    have inside : (b.proctab pid).place = some (semQueue (b.proctab pid).prsem) := by
      simp [Procent.place, waits]
    dsimp only
    rcases eq_or_ne (b.proctab pid).prsem sem with rfl | apart
    · have member := (agree.placed.member _ (isQueue_sem range) pid).mpr ⟨pidRange, inside⟩
      refine law.withdraw clearing member ?_ ?_ clearing rfl
      · simp [Board.leave, Board.setQueue, Board.note, Board.setCount]
      · simp [Board.leave, Board.setQueue, Board.note, Board.setCount]
    · refine law.frame (SemFrame.entry (.withdrawn pid (b.proctab pid).prsem) ?_ ?_ rfl rfl ?_)
      · have other : semQueue sem ≠ semQueue (b.proctab pid).prsem := fun same =>
          apart (semQueue_injective same).symm
        simp [Board.leave, Board.setQueue, Board.note, Board.setCount, other]
      · simp [Board.leave, Board.setQueue, Board.note, Board.setCount, Ne.symm apart]
      · simpa [Entry.about] using apart
  case h_5 => exact law.frame (SemFrame.leave _ pid (semQueue_ne_ready range))

/-- The rest of a `kill`. -/
theorem SemLaw.finish (law : SemLaw b sem) (agree : Agree b) (lawful : b.Lawful (.finish pid))
    (range : SemRange sem) : SemLaw (b.next (.finish pid)) sem := by
  obtain ⟨_, _, pidRange, _, clearing⟩ := lawful
  have noted : SemLaw (b.note (.stackFreed pid (b.proctab pid).prstkbase
      (b.proctab pid).prstklen)) sem := law.frame (SemFrame.note _ (by simp [Entry.about]))
  have quits := noted.quit (agree.note _) clearing pidRange range
  have freed : SemLaw (b.freeSlot pid) sem :=
    quits.frame (SemFrame.entry _ rfl rfl rfl rfl (by simp [Entry.about]))
  unfold Board.next
  dsimp only
  split
  · exact freed.frame (SemFrame.quiet rfl rfl rfl rfl)
  · exact freed.frame (SemFrame.answer _ _)

/-- Moving a process from a queue to the ready list says nothing about other semaphores. -/
theorem SemFrame.moveReady {after : Board} {other : Int} (entries : List Entry) (range : SemRange sem)
    (apart : sem ≠ other) (queues : after.queues = Function.update b.queues (semQueue other)
      ((b.queues (semQueue other)).erase pid))
    (semtab : after.semtab sem = b.semtab sem) (clearing : after.clearing = b.clearing)
    (log : after.log = entries ++ b.log) (silent : ∀ entry ∈ entries, entry.about ≠ some sem) :
    SemFrame b (after.becomeReady pid) sem := by
  have other : semQueue sem ≠ semQueue other := fun same => apart (semQueue_injective same)
  have moved : SemFrame b after sem := by
    refine ⟨?_, semtab, by rw [clearing], entries, log, silent⟩
    rw [queues, Function.update_of_ne other]
  exact moved.trans (SemFrame.becomeReady after pid range)

/-- Every lawful action keeps the law of every semaphore, as long as no signal makes a count
overflow. -/
theorem SemLaw.next (law : SemLaw b sem) (agree : Agree b) {action : Action}
    (lawful : b.Lawful action)
    (low : ∀ other, action = .signal other → (b.semtab other).scount.toInt < 2 ^ 31 - 1)
    (range : SemRange sem) : SemLaw (b.next action) sem := by
  cases action with
  | goOnAt point | keep | tickEnd | chprio pid priority =>
    exact law.frame (SemFrame.quiet rfl rfl rfl rfl)
  | answer value => exact law.frame (SemFrame.answer b value)
  | leak base len => exact law.frame (SemFrame.note b (by simp [Entry.about]))
  | timed => exact law.frame (SemFrame.note b (by simp [Entry.about]))
  | tick => exact law.frame (SemFrame.entry _ rfl rfl rfl rfl (by simp [Entry.about]))
  | killBegin pid => exact law.frame (SemFrame.entry _ rfl rfl rfl rfl (by simp [Entry.about]))
  | timeOut =>
    exact law.frame ((SemFrame.note b (by simp [Entry.about])).trans (SemFrame.answer _ _))
  | take =>
    refine law.frame (SemFrame.trans ?_ (SemFrame.answer _ _))
    exact SemFrame.entry _ rfl rfl rfl rfl (by simp [Entry.about])
  | preempt pid =>
    refine law.frame ((SemFrame.becomeReady b b.currpid range).trans ?_)
    exact (SemFrame.leave _ pid (semQueue_ne_ready range)).trans (SemFrame.quiet rfl rfl rfl rfl)
  | dispatch pid =>
    refine law.frame ((SemFrame.leave _ pid (semQueue_ne_ready range)).trans ?_)
    exact SemFrame.quiet rfl rfl rfl rfl
  | create pid priority base len =>
    exact law.frame (SemFrame.entry _ rfl rfl rfl rfl (by simp [Entry.about]))
  | resume pid => exact law.frame (SemFrame.becomeReady b pid range)
  | suspend pid =>
    unfold Board.next
    dsimp only
    split
    · refine law.frame ((SemFrame.leave _ pid (semQueue_ne_ready range)).trans ?_)
      exact SemFrame.quiet rfl rfl rfl rfl
    · exact law.frame (SemFrame.quiet rfl rfl rfl rfl)
  | pass other =>
    rcases eq_or_ne sem other with rfl | apart
    · exact law.pass agree lawful
    · refine law.frame (SemFrame.entry _ rfl ?_ rfl rfl (by simpa [Entry.about] using Ne.symm apart))
      simp [Board.next, Board.note, Board.setCount, apart]
  | block other =>
    rcases eq_or_ne sem other with rfl | apart
    · exact law.block agree lawful
    · have otherQueue : semQueue sem ≠ semQueue other := fun same => apart (semQueue_injective same)
      refine law.frame (SemFrame.entry _ ?_ ?_ rfl rfl (by simpa [Entry.about] using Ne.symm apart))
      · simp [Board.next, Board.note, Board.setCount, Board.setProc, Board.setQueue, otherQueue]
      · simp [Board.next, Board.note, Board.setCount, Board.setProc, Board.setQueue, apart]
  | signal other =>
    rcases eq_or_ne sem other with rfl | apart
    · exact law.signal lawful (low sem rfl)
    · refine law.frame (SemFrame.entry _ rfl ?_ rfl rfl (by simpa [Entry.about] using Ne.symm apart))
      simp [Board.next, Board.note, Board.setCount, apart]
  | release other pid =>
    rcases eq_or_ne sem other with rfl | apart
    · exact law.release lawful
    · refine law.frame (SemFrame.moveReady [.released pid other, .signalled other] range
        apart rfl ?_ rfl rfl (by simpa [Entry.about] using Ne.symm apart))
      simp [Board.note, Board.setCount, Board.leave, Board.setQueue, apart]
  | semMake other count =>
    rcases eq_or_ne sem other with rfl | apart
    · have isEmpty := law.unused lawful.2.2.1 (by simp [lawful.2.2.2.1])
      refine law.set isEmpty lawful.2.2.2.2 rfl ?_ rfl
      simp [Board.next, Board.note]
    · refine law.frame (SemFrame.entry _ rfl ?_ rfl rfl (by simpa [Entry.about] using Ne.symm apart))
      simp [Board.next, Board.note, apart]
  | semReset other =>
    have clearing := lawful.2.2
    rcases eq_or_ne sem other with rfl | apart
    · refine ⟨law.queue, law.order, law.bound, ?_, fun _ away => absurd rfl away,
        fun _ away => absurd rfl away⟩
      simp [Board.next, lawful.2.1]
    · refine law.frame ⟨rfl, rfl, ?_, [], rfl, by simp⟩
      simp [Board.next, clearing, Ne.symm apart]
  | discharge other pid =>
    rcases eq_or_ne sem other with rfl | apart
    · exact law.discharge lawful
    · exact law.frame (SemFrame.moveReady [.discharged pid other] range apart rfl rfl rfl
        rfl (by simpa [Entry.about] using Ne.symm apart))
  | semSet other count =>
    obtain ⟨_, used, clearing, isEmpty, enough⟩ := lawful
    rcases eq_or_ne sem other with rfl | apart
    · refine law.set isEmpty enough rfl ?_ rfl
      simp [Board.next, Board.note, Board.setCount]
    · refine law.frame ⟨rfl, ?_, ?_, [.semSet other count], rfl, ?_⟩
      · simp [Board.next, Board.note, Board.setCount, apart]
      · simp [Board.next, clearing, Ne.symm apart]
      · simpa [Entry.about] using Ne.symm apart
  | semDelete other =>
    obtain ⟨_, used, clearing⟩ := lawful
    rcases eq_or_ne sem other with rfl | apart
    · have counted := law.counted (by simp [used, clearing])
      refine ⟨?_, ?_, ?_, fun _ => ?_, fun _ away => absurd rfl away, fun _ away => absurd rfl away⟩
      · simpa [Board.next, Board.note, waiting, Entry.about] using law.queue
      · simpa [Board.next, Board.note, InOrder] using law.order
      · simpa [Board.next, Board.note, granted, given, Entry.about] using law.bound
      · simpa [Board.next, Board.note] using counted
    · refine law.frame ⟨rfl, ?_, ?_, [.semGone other], rfl, by simp [Entry.about]⟩
      · simp [Board.next, Board.note, apart]
      · simp [Board.next, clearing, Ne.symm apart]
  | dischargeOne other pid =>
    rcases eq_or_ne sem other with rfl | apart
    · exact law.dischargeOne lawful
    · refine law.frame (SemFrame.moveReady [.discharged pid other] range apart rfl ?_ rfl
        rfl (by simpa [Entry.about] using Ne.symm apart))
      simp [Board.note, Board.setCount, Board.leave, Board.setQueue, apart]
  | raise other =>
    obtain ⟨_, isFree, clearing, negative, isEmpty⟩ := lawful
    rcases eq_or_ne sem other with rfl | apart
    · have length := (law.counted (by simp [isFree, clearing])).1 negative
      rw [isEmpty, List.length_nil] at length
      omega
    · refine law.frame (SemFrame.quiet rfl ?_ rfl rfl)
      simp [Board.next, Board.setCount, apart]
  | semGone other =>
    obtain ⟨_, isFree, clearing, enough⟩ := lawful
    rcases eq_or_ne sem other with rfl | apart
    · have isEmpty := (law.counted (by simp [isFree, clearing])).2 enough
      have gone : ((b.next (.semGone sem)).semtab sem).sstate = .free := by
        simpa [Board.next, Board.setCount] using isFree
      refine ⟨law.queue, law.order, law.bound, ?_, fun _ _ => isEmpty, ?_⟩
      · rw [gone]
        simp [Board.next]
      · rw [gone]
        simp
    · refine law.frame ⟨rfl, ?_, ?_, [], rfl, by simp⟩
      · simp [Board.next, Board.setCount, apart]
      · simp [Board.next, clearing, Ne.symm apart]
  | receive => exact law.frame (SemFrame.quiet rfl rfl rfl rfl)
  | sleep delay state =>
    refine law.frame (SemFrame.entry _ ?_ rfl rfl rfl (by simp [Entry.about]))
    simp [Board.next, Board.note, Board.setProc, Board.setQueue, Board.setKey, Board.fallAsleep,
      Board.goOnAt, Board.setState, semQueue_ne_sleep range]
  | deliver pid msg =>
    have stored : SemFrame b ((b.setProc pid { b.proctab pid with
        prmsg := msg, prhasmsg := true }).note (.sent pid msg)) sem :=
      SemFrame.entry _ rfl rfl rfl rfl (by simp [Entry.about])
    exact law.frame (stored.trans (SemFrame.alert _ pid range))
  | wake pid =>
    refine law.frame ((SemFrame.leave _ pid (semQueue_ne_sleep range)).trans (SemFrame.trans ?_
      (SemFrame.becomeReady _ pid range)))
    exact SemFrame.note _ (by simp [Entry.about])
  | finish pid => exact law.finish agree lawful range

end Steps

/-- The calls that raise a count above the largest `int32`. -/
def Kernel.overflows (k : Kernel) : Move → Bool
  | .call (.signal sem) => decide (SemRange sem ∧ (k.semtab sem).sstate = .used ∧
    2 ^ 31 - 1 < (k.semtab sem).scount.toInt + 1)
  | .call (.signaln sem count) => decide (SemRange sem ∧ (k.semtab sem).sstate = .used ∧
    2 ^ 31 - 1 < (k.semtab sem).scount.toInt + count.toInt)
  | _ => false

/-- No count exceeds the largest `int32`. -/
def CountsFit (k : Kernel) (move : Move) : Prop := k.overflows move = false

instance (k : Kernel) (move : Move) : Decidable (CountsFit k move) :=
  inferInstanceAs (Decidable (k.overflows move = false))

/-- The signals of such calls are below it. -/
theorem countsFit_signal {k : Kernel} {first b : Board} {move : Move} {sem : Int}
    (shows_ : Shows k first) (fits : CountsFit k move) (lawful : b.Lawful (.signal sem))
    (origin : Origin move first b (.signal sem)) : (b.semtab sem).scount.toInt < 2 ^ 31 - 1 := by
  obtain ⟨used, ⟨rfl, same⟩ | ⟨count, round, rfl, below, same⟩⟩ := origin
  · have bound := of_decide_eq_false fits
    rw [shows_.semtab] at bound
    have fit : ¬ 2 ^ 31 - 1 < (first.semtab sem).scount.toInt + 1 := fun high =>
      bound ⟨lawful.1, used, high⟩
    rw [same]
    omega
  · have bound := of_decide_eq_false fits
    rw [shows_.semtab] at bound
    have fit : ¬ 2 ^ 31 - 1 < (first.semtab sem).scount.toInt + count.toInt := fun high =>
      bound ⟨lawful.1, used, high⟩
    have countRange := toInt_range count
    have firstRange := toInt_range (first.semtab sem).scount
    have rounds : (Int32.ofNat round).toInt = round := Int32.toInt_ofNat_of_lt (by omega)
    rw [same, toInt_add_of_range _ _ (by lia) (by omega), rounds]
    lia

/-- In every run in which no count exceeds the largest `int32`, after every step: the count
of a semaphore in use encodes its queue, nobody waits for a free one, processes are released
in the order of their calls of `wait`, and no more waits were allowed since the count was
set than it and the signals allow. -/
theorem semaphore_counts_hold (events : List (Event Kernel Move Unit)) (last : Kernel)
    (run : Run step boot events last) (met : Meets CountsFit events) :
    ∃ queues, Consistent last queues ∧ ∀ sem, SemRange sem →
      ((last.semtab sem).sstate = .used →
        Counted (last.semtab sem).scount (queues (last.semtab sem).squeue)) ∧
      ((last.semtab sem).sstate = .free → queues (last.semtab sem).squeue = []) ∧
      queues (last.semtab sem).squeue = waiting sem last.log ∧ InOrder sem last.log ∧
      granted sem last.log ≤ given sem last.log := by
  have initial : ∀ sem, SemRange sem → SemLaw bootBoard sem := fun sem _ =>
    ⟨rfl, trivial, le_refl _, by simp [bootBoard], fun _ _ => rfl, by simp [bootBoard]⟩
  obtain ⟨b, sound, laws⟩ := run_law (fun b => ∀ sem, SemRange sem → SemLaw b sem) CountsFit initial
    (by
      intro k first move b action sound _ fits agree laws lawful origin sem range
      refine (laws sem range).next agree lawful ?_ range
      rintro other rfl
      exact countsFit_signal sound.shows_ fits lawful origin) events last run met
  refine ⟨b.queues, sound.consistent, fun sem range => ?_⟩
  have law := laws sem range
  have away : b.clearing ≠ some sem := by simp [sound.rested.clearing]
  rw [sound.shows_.squeue sem range, sound.shows_.semtab, sound.shows_.log]
  exact ⟨fun used => law.counted (iff_of_true used away), fun isFree => law.unused isFree away,
    law.queue, law.order, law.bound⟩

/-- Two processes wait for a semaphore with a count of zero; a signal releases the first, and
the other one is killed. -/
theorem two_waiters_counted : ∃ events last, Run step boot events last ∧
    waiting 0 last.log = [] ∧ granted 0 last.log = 1 ∧ given 0 last.log = 1 ∧
      ∃ queues, Consistent last queues ∧ Counted (last.semtab 0).scount
        (queues (last.semtab 0).squeue) := by
  obtain ⟨events, last, run, checked⟩ := trace_exists step boot
    [.call (.semcreate 0), .call (.create 400 20 (some 4096)), .call (.create 400 20 (some 8192)),
      .call (.resume 1), .call (.wait 0), .goOn, .call (.resume 2), .call (.wait 0), .goOn,
      .call (.signal 0), .goOn, .call (.receive), .goOn, .call (.kill 2), .goOn]
    (fun events last => decide (waiting 0 last.log = [] ∧ granted 0 last.log = 1 ∧
      given 0 last.log = 1 ∧ (last.semtab 0).sstate = .used ∧
      ∀ event ∈ events, CountsFit event.before event.call)) (by decide +kernel)
  obtain ⟨nobody, grants, gives, used, met⟩ := of_decide_eq_true checked
  obtain ⟨queues, consistent, laws⟩ := semaphore_counts_hold events last run met
  exact ⟨events, last, run, nobody, grants, gives, queues, consistent,
    (laws 0 ⟨by decide, by decide⟩).1 used⟩

end Xinu.Processes
