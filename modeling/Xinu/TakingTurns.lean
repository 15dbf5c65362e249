import Xinu.PriorityOrder

/-!
# Processes of one priority take turns

A process that yields, or is interrupted by the clock, goes behind the ready processes of its own priority, and the
first of these runs. While nothing else happens, the current process and these take turns: they are a ring that each
reschedule turns by one place.
-/

namespace Xinu.Processes

open Runs DeltaList

/-- The current process, and the ready ones of its priority at the head of the ready list. -/
def ring (proctab : Int → Procent) (currpid : Int) (queue : List Int) : List Int :=
  currpid :: queue.takeWhile fun pid => decide ((proctab pid).prprio = (proctab currpid).prprio)

/-- The current process yields, is interrupted by a clock that wakes nobody, or returns from a call. -/
def Turn (k : Kernel) : Move → Prop
  | .call .yield => True
  | .tick .armQemu => k.nonempty k.sleepq = false
  | .goOn => ∃ value, (k.proctab k.currpid).prstkptr = .answer value
  | _ => False

/-- The moves that reschedule. -/
def Move.reschedules : Move → Bool
  | .call _ | .tick _ => true
  | .goOn => false

/-- A kernel between two steps whose ready list is in order, with its ring. -/
structure Turning (k : Kernel) (b : Board) : Prop where
  sound : Sound k b
  law : PrioLaw b

def Board.ring (b : Board) : List Int := Processes.ring b.proctab b.currpid (b.queues readyQueue)

section Lists

variable {proctab : Int → Procent} {keys : Int → Int32} {currpid pid : Int} {queue rest : List Int}

/-- Among processes no more urgent than the current one, those with its priority are those with at least its key. -/
theorem split_ring {prio : Int16} (same : ∀ pid ∈ queue, keys pid = (proctab pid).prprio.toInt32)
    (top : ∀ pid ∈ queue, (keys pid).toInt ≤ prio.toInt) :
    queue.takeWhile (fun pid => decide (prio.toInt32.toInt ≤ (keys pid).toInt)) =
        queue.takeWhile (fun pid => decide ((proctab pid).prprio = prio)) ∧
      queue.dropWhile (fun pid => decide (prio.toInt32.toInt ≤ (keys pid).toInt)) =
        queue.dropWhile (fun pid => decide ((proctab pid).prprio = prio)) := by
  induction queue with
  | nil => exact ⟨rfl, rfl⟩
  | cons pid queue inductionHypothesis =>
    obtain ⟨take, drop⟩ := inductionHypothesis (fun other member => same other (List.mem_cons_of_mem _ member))
      (fun other member => top other (List.mem_cons_of_mem _ member))
    have key := same pid List.mem_cons_self
    have below := top pid List.mem_cons_self
    have alike : (prio.toInt32.toInt ≤ (keys pid).toInt) ↔ (proctab pid).prprio = prio := by
      rw [key, Int16.toInt_toInt32] at below
      rw [key, Int16.toInt_toInt32, Int16.toInt_toInt32, ← Int16.toInt_inj]
      omega
    simp only [List.takeWhile_cons, List.dropWhile_cons, alike, take, drop, and_self]

theorem takeWhile_dropWhile (test : Int → Bool) (queue : List Int) : (queue.dropWhile test).takeWhile test = [] := by
  induction queue with
  | nil => rfl
  | cons pid queue inductionHypothesis =>
    by_cases passes : test pid = true
    · rw [List.dropWhile_cons_of_pos passes, inductionHypothesis]
    · rw [List.dropWhile_cons_of_neg passes, List.takeWhile_cons_of_neg passes]

end Lists

section Rings

variable {b : Board} {pid : Int} {rest : List Int}

/-- A process that is more urgent than the ready ones is its ring. -/
theorem PrioLaw.ring_alone (law : PrioLaw b) (lower : ∀ pid ∈ (b.queues readyQueue).head?,
    (b.key pid).toInt < (b.proctab b.currpid).prprio.toInt) : b.ring = [b.currpid] := by
  have noEqual : (b.queues readyQueue).takeWhile
      (fun pid => decide ((b.proctab pid).prprio = (b.proctab b.currpid).prprio)) = [] := by
    cases queue : b.queues readyQueue with
    | nil => rfl
    | cons pid rest =>
      have key := law.keys pid (by rw [queue]; exact List.mem_cons_self)
      have below := lower pid (by rw [queue]; rfl)
      refine List.takeWhile_cons_of_neg fun same => ?_
      rw [key, of_decide_eq_true same, Int16.toInt_toInt32] at below
      exact lt_irrefl _ below
  unfold Board.ring ring
  rw [noEqual]

/-- A ready process that may take over has the priority of the current one. -/
theorem PrioLaw.equal (law : PrioLaw b) (settled : b.due = false) (member : pid ∈ b.queues readyQueue)
    (urgent : (b.proctab b.currpid).prprio.toInt ≤ (b.key pid).toInt) :
    (b.proctab pid).prprio = (b.proctab b.currpid).prprio := by
  have below := law.top settled pid member
  rw [law.keys pid member, Int16.toInt_toInt32] at below urgent
  exact Int16.toInt_inj.mp (by lia)

/-- The current process becomes ready behind the processes of its priority. -/
theorem PrioLaw.becomeReady_ready (law : PrioLaw b) (settled : b.due = false)
    (queue : b.queues readyQueue = pid :: rest) (equal : (b.proctab pid).prprio = (b.proctab b.currpid).prprio) :
    (b.becomeReady b.currpid).queues readyQueue = pid :: (rest.takeWhile
      (fun other => decide ((b.proctab other).prprio = (b.proctab b.currpid).prprio)) ++ b.currpid ::
      rest.dropWhile fun other => decide ((b.proctab other).prprio = (b.proctab b.currpid).prprio)) := by
  obtain ⟨take, drop⟩ := split_ring law.keys fun other member => law.top settled other member
  have inserted : (b.becomeReady b.currpid).queues readyQueue =
      insertByKey b.key b.currpid (b.proctab b.currpid).prprio.toInt32 (b.queues readyQueue) := by
    simp [Board.becomeReady, Board.setState, Board.setProc, Board.setQueue, Board.setKey, Board.note]
  rw [inserted, insertByKey, take, drop, queue, List.takeWhile_cons_of_pos (by simpa using equal),
    List.dropWhile_cons_of_pos (by simpa using equal), List.cons_append]

/-- The first process takes over: the ring is turned. -/
theorem PrioLaw.ring_preempt (law : PrioLaw b) (settled : b.due = false)
    (queue : b.queues readyQueue = pid :: rest) (equal : (b.proctab pid).prprio = (b.proctab b.currpid).prprio) :
    (b.next (.preempt pid)).ring = b.ring.rotate 1 := by
  have prios : ∀ other, ((b.next (.preempt pid)).proctab other).prprio = (b.proctab other).prprio := by
    intro other
    exact (prprio_update (by rfl) other).trans (prprio_update (by rfl) other)
  have behind : (b.next (.preempt pid)).queues readyQueue =
      ((b.becomeReady b.currpid).queues readyQueue).erase pid := by
    simp [Board.next, Board.dispatch, Board.leave, Board.setState, Board.setProc, Board.setQueue]
  have current : (b.next (.preempt pid)).currpid = pid := rfl
  unfold Board.ring ring
  simp only [prios, current, behind, law.becomeReady_ready settled queue equal, List.erase_cons_head, queue, equal]
  rw [List.takeWhile_append_of_pos fun other member => by simpa using List.mem_takeWhile_imp member,
    List.takeWhile_cons_of_pos (by simp), takeWhile_dropWhile, List.takeWhile_cons_of_pos (by simpa using equal),
    List.rotate_cons_succ, List.rotate_zero, List.cons_append]

end Rings

section Steps

variable {k after : Kernel} {b : Board} {move : Move}

/-- `resched` turns the ring. -/
theorem Turning.resched (turning : Turning k b) : ∃ after last, Processes.resched k = some after ∧ Turning after last ∧
    last.ring = b.ring.rotate 1 := by
  obtain ⟨⟨shows_, agree, points, rested⟩, law⟩ := turning
  have runs := agree.running rested.due
  -- Nobody else has the priority of the current process, and this goes on.
  have stays : (∀ pid ∈ (b.queues readyQueue).head?, (b.key pid).toInt < (b.proctab b.currpid).prprio.toInt) →
      ∃ after last, some k = some after ∧ Turning after last ∧ last.ring = b.ring.rotate 1 := by
    intro lower
    refine ⟨k, b, rfl, ⟨⟨shows_, agree, points, rested⟩, law⟩, ?_⟩
    rw [law.ring_alone lower, List.rotate_singleton]
  unfold Processes.resched
  rw [if_neg (by have := rested.ndefers; omega), shows_.proctab, shows_.currpid]
  dsimp only
  rw [if_pos runs]
  cases head : (b.queues readyQueue).head? with
  | none =>
    have urgent := prio_high (b.proctab b.currpid).prprio
    rw [Int16.toInt_toInt32] at urgent
    rw [shows_.firstkey_nil (List.head?_eq_none_iff.mp head), if_pos urgent]
    exact stays (by simp [head])
  | some pid =>
    have key : k.firstkey k.readylist = b.key pid := by
      rw [shows_.readylist]
      exact (shows_.firstkey isQueue_ready head).2
    rw [key]
    by_cases urgent : (b.key pid).toInt < (b.proctab b.currpid).prprio.toInt
    · rw [if_pos urgent]
      exact stays (by simpa [head] using urgent)
    · rw [if_neg urgent]
      have outside : (b.proctab b.currpid).place = none := by simp [Procent.place, runs]
      obtain ⟨middle, stepped, shown, defers, _⟩ := shows_.becomeReady agree.placed agree.current outside
      obtain ⟨rest, queue⟩ := List.head?_eq_some_iff.mp head
      have equal := law.equal rested.due (List.mem_of_mem_head? head) (by omega)
      obtain ⟨last, switched, reached, defersLast, _⟩ :=
        shown.switch (agree.becomeReady agree.current outside).placed
          (by rw [law.becomeReady_ready rested.due queue equal]; rfl)
      have lawful : b.Lawful (.preempt pid) := ⟨runs, head, by omega⟩
      rw [stepped]
      exact ⟨last, b.next (.preempt pid), switched, ⟨⟨reached, agree.next lawful, points.next agree lawful,
        ⟨by rw [defersLast, defers, rested.ndefers], rfl, rested.ticking, rested.clearing⟩⟩,
        law.next agree lawful (by simp)⟩, law.ring_preempt rested.due queue equal⟩

/-- A move that takes a turn turns the ring, and no other one does. -/
theorem Turning.step (turning : Turning k b) (turn : Turn k move) (completed : step k move = some ((), after)) :
    ∃ last, Turning after last ∧ last.ring = b.ring.rotate (if move.reschedules then 1 else 0) := by
  by_cases enabled : Enabled k move
  case neg =>
    rw [step_disabled enabled] at completed
    cases completed
  rw [step_enabled enabled] at completed
  obtain ⟨_, done, isAfter⟩ := Option.map_eq_some_iff.mp completed
  obtain rfl := congrArg Prod.snd isAfter
  obtain ⟨⟨shows_, agree, points, rested⟩, law⟩ := turning
  have same : ∀ point, (b.goOnAt point).ring = b.ring := by
    intro point
    have prios : ∀ other, ((b.goOnAt point).proctab other).prprio = (b.proctab other).prprio :=
      fun other => prprio_update (by rfl) other
    have current : (b.goOnAt point).currpid = b.currpid := rfl
    unfold Board.ring ring
    simp only [prios, current]
    rfl
  cases move with
  | call call =>
    cases call with
    | yield =>
      have away : Turning (k.goOnAt (.answer ok)) (b.goOnAt (.answer ok)) :=
        ⟨⟨shows_.goOnAt _, agree.goOnAt _, points.goOnAt _ (by simp) (by simp),
          ⟨rested.ndefers, rested.due, rested.ticking, rested.clearing⟩⟩, law.goOnAt _⟩
      obtain ⟨final, last, rescheduled, turning, turned⟩ := away.resched
      cases done.symm.trans rescheduled
      exact ⟨last, turning, turned.trans (congrArg (List.rotate · 1) (same _))⟩
    | _ => cases turn
  | tick platform =>
    cases platform with
    | armBbb => cases turn
    | armQemu =>
      have nobody : (k.note .ticked).nonempty (k.note .ticked).sleepq = false := turn
      have noted : Turning (k.note .ticked) (b.note .ticked) :=
        ⟨⟨shows_.note _, agree.note _, points.note _,
          ⟨rested.ndefers, rested.due, rested.ticking, rested.clearing⟩⟩, law.note _ (by simp)⟩
      obtain ⟨final, last, rescheduled, turning, turned⟩ := noted.resched
      unfold act clkhandler at done
      dsimp only at done
      rw [nobody] at done
      cases done.symm.trans rescheduled
      exact ⟨last, turning, turned⟩
  | goOn =>
    obtain ⟨value, isAnswer⟩ := turn
    unfold act at done
    rw [isAnswer] at done
    cases done
    exact ⟨b.answer value, ⟨⟨shows_.answer value, agree.answer value, points.answer value,
      ⟨rested.ndefers, rested.due, rested.ticking, rested.clearing⟩⟩,
      law.answer value⟩, (same .user).trans (List.rotate_zero _).symm⟩

end Steps

/-- A run of such moves turns the ring once for each reschedule. -/
theorem Turning.run {k last : Kernel} {b : Board} {events : List (Event Kernel Move Unit)} (turning : Turning k b)
    (run : Run Processes.step k events last) (turns : Meets Turn events) :
    ∃ final, Turning last final ∧ final.ring = b.ring.rotate (events.countP fun event => event.call.reschedules) := by
  induction run generalizing b with
  | done state => exact ⟨b, turning, (List.rotate_zero _).symm⟩
  | taken before call reply after last events completed tail inductionHypothesis =>
    obtain ⟨turn, others⟩ := (meets_cons ..).mp turns
    obtain ⟨middle, turningMiddle, once⟩ := turning.step turn completed
    obtain ⟨final, turningFinal, later⟩ := inductionHypothesis turningMiddle others
    refine ⟨final, turningFinal, ?_⟩
    rw [later, once, List.rotate_rotate, List.countP_cons, Nat.add_comm]

end Xinu.Processes
