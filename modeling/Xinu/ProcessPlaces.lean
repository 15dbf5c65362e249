import Xinu.ProcessBoard

/-!
# Every process is where its state says

A queue holds exactly the processes whose state and semaphore name it. A process that
changes its state leaves one queue and enters another one with it, so each action keeps the
agreement. It says at once that the queues are disjoint.

One process at most is current. While no reschedule is due it is the one that runs.
-/

namespace Xinu.Processes

open DeltaList

/-- The queues hold the processes that belong there. -/
structure Placed (proctab : Int → Procent) (queues : Int → List Int) : Prop where
  member : ∀ q, IsQueue q → ∀ pid, pid ∈ queues q ↔ InRange pid ∧ (proctab pid).place = some q
  distinct : ∀ q, IsQueue q → (queues q).Nodup
  waits : ∀ pid, InRange pid → (proctab pid).prstate = .wait → SemRange (proctab pid).prsem

theorem isQueue_ready : IsQueue readyQueue := ⟨nsem, by decide, by decide, rfl⟩

theorem isQueue_sleep : IsQueue sleepQueue := ⟨nsem + 1, by decide, by decide, rfl⟩

theorem isQueue_sem {sem : Int} (range : SemRange sem) : IsQueue (semQueue sem) :=
  ⟨sem, range.1, by have := range.2; omega, rfl⟩

theorem semQueue_ne_ready {sem : Int} (range : SemRange sem) : semQueue sem ≠ readyQueue := by
  have high := range.2
  unfold semQueue readyQueue nsem at *
  lia

theorem semQueue_ne_sleep {sem : Int} (range : SemRange sem) : semQueue sem ≠ sleepQueue := by
  have high := range.2
  unfold semQueue sleepQueue nsem at *
  lia

theorem sleep_ne_ready : sleepQueue ≠ readyQueue := by decide

theorem semQueue_injective {sem other : Int} (same : semQueue sem = semQueue other) :
    sem = other := by
  unfold semQueue at same
  lia

section Insertion

variable {keys : Int → Int32} {pid other : Int} {key : Int32} {queue : List Int}

theorem mem_insertByKey : other ∈ insertByKey keys pid key queue ↔ other = pid ∨ other ∈ queue := by
  have whole : other ∈ queue ↔
      other ∈ queue.takeWhile (fun other => key.toInt ≤ (keys other).toInt) ∨
        other ∈ queue.dropWhile (fun other => key.toInt ≤ (keys other).toInt) := by
    rw [← List.mem_append, List.takeWhile_append_dropWhile]
  unfold insertByKey
  rw [List.mem_append, List.mem_cons, whole]
  tauto

theorem insertByKey_perm : (insertByKey keys pid key queue).Perm (pid :: queue) := by
  unfold insertByKey
  refine List.perm_middle.trans ?_
  rw [List.takeWhile_append_dropWhile]

end Insertion

section Placed

variable {proctab : Int → Procent} {queues : Int → List Int} {pid q : Int} {entry : Procent}
  {queue : List Int}

theorem Placed.absent (placed : Placed proctab queues) (isQueue : IsQueue q)
    (elsewhere : (proctab pid).place ≠ some q) : pid ∉ queues q := fun member =>
  elsewhere ((placed.member q isQueue pid).mp member).2

/-- Nothing that concerns the queues changes. -/
theorem Placed.relabel (placed : Placed proctab queues) (state : entry.prstate = (proctab pid).prstate)
    (sem : entry.prsem = (proctab pid).prsem) : Placed (Function.update proctab pid entry) queues := by
  have same : entry.place = (proctab pid).place := by
    unfold Procent.place
    rw [state, sem]
  refine ⟨?_, placed.distinct, ?_⟩
  · intro q isQueue other
    rw [placed.member q isQueue other]
    rcases eq_or_ne other pid with rfl | apart
    · rw [Function.update_self, same]
    · rw [Function.update_of_ne apart]
  · intro other range waiting
    rcases eq_or_ne other pid with rfl | apart
    · rw [Function.update_self] at waiting ⊢
      rw [sem]
      exact placed.waits other range (state ▸ waiting)
    · rw [Function.update_of_ne apart] at waiting ⊢
      exact placed.waits other range waiting

/-- A process outside of all queues stays outside. -/
theorem Placed.outside (placed : Placed proctab queues) (before : (proctab pid).place = none)
    (after : entry.place = none) : Placed (Function.update proctab pid entry) queues := by
  refine ⟨?_, placed.distinct, ?_⟩
  · intro q isQueue other
    rw [placed.member q isQueue other]
    rcases eq_or_ne other pid with rfl | apart
    · rw [Function.update_self, before, after]
    · rw [Function.update_of_ne apart]
  · intro other range waiting
    rcases eq_or_ne other pid with rfl | apart
    · rw [Function.update_self] at waiting
      simp [Procent.place, waiting] at after
    · rw [Function.update_of_ne apart] at waiting ⊢
      exact placed.waits other range waiting

/-- A process outside of all queues enters one. -/
theorem Placed.enter (placed : Placed proctab queues) (entry : Procent) (range : InRange pid)
    (before : (proctab pid).place = none) (after : entry.place = some q)
    (sem : entry.prstate = .wait → SemRange entry.prsem) (perm : queue.Perm (pid :: queues q)) :
    Placed (Function.update proctab pid entry) (Function.update queues q queue) := by
  refine ⟨?_, ?_, ?_⟩
  · intro other isQueue member
    rcases eq_or_ne other q with rfl | otherQueue
    · rw [Function.update_self, perm.mem_iff, List.mem_cons, placed.member other isQueue member]
      rcases eq_or_ne member pid with rfl | apart
      · simp [range, after]
      · simp [apart]
    · rw [Function.update_of_ne otherQueue, placed.member other isQueue member]
      rcases eq_or_ne member pid with rfl | apart
      · rw [Function.update_self, before, after]
        simp [Ne.symm otherQueue]
      · rw [Function.update_of_ne apart]
  · intro other isQueue
    rcases eq_or_ne other q with rfl | otherQueue
    · rw [Function.update_self]
      refine perm.nodup_iff.mpr (List.nodup_cons.mpr ⟨?_, placed.distinct other isQueue⟩)
      exact placed.absent isQueue (by rw [before]; simp)
    · rw [Function.update_of_ne otherQueue]
      exact placed.distinct other isQueue
  · intro other otherRange waiting
    rcases eq_or_ne other pid with rfl | apart
    · rw [Function.update_self] at waiting ⊢
      exact sem waiting
    · rw [Function.update_of_ne apart] at waiting ⊢
      exact placed.waits other otherRange waiting

/-- A process leaves its queue. -/
theorem Placed.leave (placed : Placed proctab queues) (entry : Procent) (isQueue : IsQueue q)
    (before : (proctab pid).place = some q) (after : entry.place = none) :
    Placed (Function.update proctab pid entry)
      (Function.update queues q ((queues q).erase pid)) := by
  refine ⟨?_, ?_, ?_⟩
  · intro other otherIsQueue member
    rcases eq_or_ne other q with rfl | otherQueue
    · rw [Function.update_self, (placed.distinct other isQueue).mem_erase_iff,
        placed.member other isQueue member]
      rcases eq_or_ne member pid with rfl | apart
      · simp [after]
      · simp [apart]
    · rw [Function.update_of_ne otherQueue, placed.member other otherIsQueue member]
      rcases eq_or_ne member pid with rfl | apart
      · rw [Function.update_self, before, after]
        simp [Ne.symm otherQueue]
      · rw [Function.update_of_ne apart]
  · intro other otherIsQueue
    rcases eq_or_ne other q with rfl | otherQueue
    · rw [Function.update_self]
      exact (placed.distinct other isQueue).erase pid
    · rw [Function.update_of_ne otherQueue]
      exact placed.distinct other otherIsQueue
  · intro other range waiting
    rcases eq_or_ne other pid with rfl | apart
    · rw [Function.update_self] at waiting
      simp [Procent.place, waiting] at after
    · rw [Function.update_of_ne apart] at waiting ⊢
      exact placed.waits other range waiting

/-- A process goes from one queue to another. -/
theorem Placed.transfer (placed : Placed proctab queues) {source : Int} (range : InRange pid)
    (isQueue : IsQueue source) (before : (proctab pid).place = some source) (apart : source ≠ q)
    (after : entry.place = some q) (sem : entry.prstate = .wait → SemRange entry.prsem)
    (perm : queue.Perm (pid :: queues q)) :
    Placed (Function.update proctab pid entry)
      (Function.update (Function.update queues source ((queues source).erase pid)) q queue) := by
  have left := placed.leave { entry with prstate := .susp } isQueue before rfl
  have moved : queue.Perm (pid ::
      Function.update queues source ((queues source).erase pid) q) := by
    rw [Function.update_of_ne (Ne.symm apart)]
    exact perm
  have entered := left.enter entry range (by rw [Function.update_self]; rfl) after sem moved
  rwa [Function.update_idem] at entered

end Placed

/-- The queues agree with the process table, and one process is current. -/
structure Agree (b : Board) : Prop where
  placed : Placed b.proctab b.queues
  current : InRange b.currpid
  single : ∀ pid, InRange pid → (b.proctab pid).prstate = .curr → pid = b.currpid
  running : b.due = false → (b.proctab b.currpid).prstate = .curr

section Agree

variable {b after : Board} {pid q : Int} {entry : Procent}

/-- The agreement is about four fields. -/
theorem Agree.congr (agree : Agree b) (proctab : after.proctab = b.proctab)
    (queues : after.queues = b.queues) (currpid : after.currpid = b.currpid)
    (due : after.due = b.due) : Agree after := by
  refine ⟨?_, ?_, ?_, ?_⟩
  · rw [proctab, queues]
    exact agree.placed
  · rw [currpid]
    exact agree.current
  · rw [proctab, currpid]
    exact agree.single
  · rw [proctab, currpid, due]
    exact agree.running

theorem Agree.note (agree : Agree b) (entry : Entry) : Agree (b.note entry) :=
  agree.congr rfl rfl rfl rfl

/-- An entry changes in fields that do not place the process. -/
theorem Agree.relabel (agree : Agree b) (state : entry.prstate = (b.proctab pid).prstate)
    (sem : entry.prsem = (b.proctab pid).prsem) : Agree (b.setProc pid entry) := by
  have states : ∀ other, (Function.update b.proctab pid entry other).prstate =
      (b.proctab other).prstate := by
    intro other
    rcases eq_or_ne other pid with rfl | apart
    · rw [Function.update_self, state]
    · rw [Function.update_of_ne apart]
  refine ⟨agree.placed.relabel state sem, agree.current, ?_, ?_⟩
  · intro other range isCurrent
    exact agree.single other range ((states other).symm.trans isCurrent)
  · intro settled
    exact (states b.currpid).trans (agree.running settled)

theorem Agree.goOnAt (agree : Agree b) (point : Point) : Agree (b.goOnAt point) :=
  agree.relabel rfl rfl

theorem Agree.answer (agree : Agree b) (value : Int) : Agree (b.answer value) :=
  (agree.goOnAt .user).note _

/-- A process that is not current takes another state that is not current either. -/
theorem Agree.single_update (agree : Agree b) (entry : Procent) (state : entry.prstate ≠ .curr)
    (other : Int)
    (range : InRange other)
    (isCurrent : (Function.update b.proctab pid entry other).prstate = .curr) : other = b.currpid ∧ other ≠ pid := by
  rcases eq_or_ne other pid with rfl | apart
  · rw [Function.update_self] at isCurrent
    exact absurd isCurrent state
  · rw [Function.update_of_ne apart] at isCurrent
    exact ⟨agree.single other range isCurrent, apart⟩

/-- A process outside of all queues enters the ready list. -/
theorem Agree.becomeReady (agree : Agree b) (range : InRange pid)
    (outside : (b.proctab pid).place = none) : Agree (b.becomeReady pid) := by
  refine ⟨?_, agree.current, ?_, fun settled => absurd settled (by simp [Board.becomeReady])⟩
  · exact agree.placed.enter _ range outside rfl (fun waiting => by cases waiting) insertByKey_perm
  · intro other otherRange isCurrent
    exact (agree.single_update _ (by simp) other otherRange isCurrent).1

/-- A process that has left another queue goes to the ready list. -/
theorem Agree.moveReady (agree : Agree b) (range : InRange pid) (isQueue : IsQueue q)
    (inside : (b.proctab pid).place = some q) (apart : q ≠ readyQueue)
    (proctab : after.proctab = b.proctab)
    (queues : after.queues = Function.update b.queues q ((b.queues q).erase pid))
    (currpid : after.currpid = b.currpid) : Agree (after.becomeReady pid) := by
  have placed : Placed (Function.update b.proctab pid { b.proctab pid with prstate := .ready })
      (Function.update (Function.update b.queues q ((b.queues q).erase pid)) readyQueue
        (insertByKey after.key pid (b.proctab pid).prprio.toInt32 (b.queues readyQueue))) :=
    agree.placed.transfer range isQueue inside apart rfl (fun waiting => by cases waiting)
      insertByKey_perm
  refine ⟨?_, ?_, ?_, fun settled => absurd settled (by simp [Board.becomeReady])⟩
  · simpa only [Board.becomeReady, Board.setState, Board.setProc, Board.setQueue, Board.setKey,
      Board.note, proctab, Function.update_self, queues,
      Function.update_of_ne (Ne.symm apart)] using placed
  · exact currpid.symm ▸ agree.current
  · intro other otherRange isCurrent
    have before : other = b.currpid ∧ other ≠ pid := by
      refine agree.single_update { b.proctab pid with prstate := .ready } (by simp) other
        otherRange ?_
      simpa only [Board.becomeReady, Board.setState, Board.setProc, Board.setQueue, Board.setKey,
        Board.note, proctab] using isCurrent
    exact before.1.trans currpid.symm

/-- The first process of a queue is one that belongs there. -/
theorem Agree.first (agree : Agree b) (isQueue : IsQueue q) (first : (b.queues q).head? = some pid) :
    InRange pid ∧ (b.proctab pid).place = some q :=
  (agree.placed.member q isQueue pid).mp (List.mem_of_mem_head? first)

/-- The first ready process takes over from one that does not run any more. -/
theorem Agree.dispatch (agree : Agree b) (stopped : (b.proctab b.currpid).prstate ≠ .curr)
    (range : InRange pid) (inside : (b.proctab pid).place = some readyQueue) :
    Agree (b.dispatch pid) := by
  refine ⟨agree.placed.leave _ isQueue_ready inside rfl, range, ?_, ?_⟩
  · intro other otherRange isCurrent
    rcases eq_or_ne other pid with rfl | apart
    · rfl
    · have before : (b.proctab other).prstate = .curr := by
        simpa [Board.dispatch, Board.leave, Board.setState, Board.setProc, Board.setQueue,
          apart] using isCurrent
      rw [agree.single other otherRange before] at before
      exact absurd before stopped
  · intro _
    simp [Board.dispatch, Board.setState, Board.setProc]

/-- The current process makes room for the first ready one. -/
theorem Agree.preempt (agree : Agree b) (runs : (b.proctab b.currpid).prstate = .curr)
    (range : InRange pid) (inside : (b.proctab pid).place = some readyQueue) :
    Agree ((b.becomeReady b.currpid).dispatch pid) := by
  have outside : (b.proctab b.currpid).place = none := by
    simp [Procent.place, runs]
  have apart : pid ≠ b.currpid := by
    rintro rfl
    rw [outside] at inside
    cases inside
  refine (agree.becomeReady agree.current outside).dispatch ?_ range ?_
  · simp [Board.becomeReady, Board.setState, Board.setProc, Board.setQueue, Board.setKey, Board.note]
  · simpa [Board.becomeReady, Board.setState, Board.setProc, Board.setQueue, Board.setKey, Board.note,
      apart] using inside

/-- The current process stops running outside of all queues. -/
theorem Agree.stop (agree : Agree b) (entry : Procent) (settled : b.due = false)
    (after : entry.place = none)
    (stopped : entry.prstate ≠ .curr) :
    Agree { b.setProc b.currpid entry with due := true } := by
  have outside : (b.proctab b.currpid).place = none := by
    simp [Procent.place, agree.running settled]
  refine ⟨agree.placed.outside outside after, agree.current, ?_, fun settled => by cases settled⟩
  intro other range isCurrent
  exact (agree.single_update entry stopped other range isCurrent).1

/-- The current process stops running in a queue. -/
theorem Agree.stopIn (agree : Agree b) (entry : Procent) (queue : List Int)
    (settled : b.due = false)
    (after : entry.place = some q) (sem : entry.prstate = .wait → SemRange entry.prsem)
    (stopped : entry.prstate ≠ .curr) (perm : queue.Perm (b.currpid :: b.queues q)) :
    Agree { (b.setProc b.currpid entry).setQueue q queue with due := true } := by
  have outside : (b.proctab b.currpid).place = none := by
    simp [Procent.place, agree.running settled]
  refine ⟨agree.placed.enter entry agree.current outside after sem perm, agree.current, ?_,
    fun settled => by cases settled⟩
  intro other range isCurrent
  exact (agree.single_update entry stopped other range isCurrent).1

/-- A process that is not current is taken out of its queue. -/
theorem Agree.takeOut (agree : Agree b) (entry : Procent) (settled : b.due = false)
    (isQueue : IsQueue q)
    (inside : (b.proctab pid).place = some q) (after : entry.place = none)
    (stopped : entry.prstate ≠ .curr) : Agree ((b.leave pid q).setProc pid entry) := by
  refine ⟨agree.placed.leave entry isQueue inside after, agree.current, ?_, ?_⟩
  · intro other range isCurrent
    exact (agree.single_update entry stopped other range isCurrent).1
  · intro _
    have runs := agree.running settled
    have apart : b.currpid ≠ pid := by
      rintro rfl
      simp [Procent.place, runs] at inside
    simpa [Board.leave, Board.setProc, Board.setQueue, apart] using runs

/-- A process outside of all queues that is not current changes its state. -/
theorem Agree.aside (agree : Agree b) (pid : Int) (entry : Procent) (settled : b.due = false)
    (outside : (b.proctab pid).place = none) (resting : (b.proctab pid).prstate ≠ .curr)
    (after : entry.place = none) (stopped : entry.prstate ≠ .curr) : Agree (b.setProc pid entry) := by
  refine ⟨agree.placed.outside outside after, agree.current, ?_, ?_⟩
  · intro other range isCurrent
    exact (agree.single_update entry stopped other range isCurrent).1
  · intro _
    have runs := agree.running settled
    have apart : b.currpid ≠ pid := by
      rintro rfl
      exact resting runs
    simpa [Board.setProc, apart] using runs

/-- The rest of a `kill` takes the process out of whatever place it is in. -/
theorem Agree.finish (agree : Agree b) (settled : b.due = false) (range : InRange pid) :
    Agree (b.next (.finish pid)) := by
  have placed : Agree ((b.quit pid).setState pid .free) := by
    unfold Board.quit
    split
    case h_1 runs =>
      obtain rfl := agree.single pid range runs
      exact agree.stop { b.proctab b.currpid with prstate := .free } settled rfl (by simp)
    case h_2 sleeps | h_3 sleeps =>
      have inside : (b.proctab pid).place = some sleepQueue := by simp [Procent.place, sleeps]
      have out := agree.takeOut { b.proctab pid with prstate := .free } settled
        isQueue_sleep inside rfl (by simp)
      exact out.congr rfl rfl rfl rfl
    case h_4 waits =>
      have inside : (b.proctab pid).place = some (semQueue (b.proctab pid).prsem) := by
        simp [Procent.place, waits]
      have isQueue := isQueue_sem (agree.placed.waits pid range waits)
      have out := agree.takeOut { b.proctab pid with prstate := .free } settled
        isQueue inside rfl (by simp)
      exact out.congr rfl rfl rfl rfl
    case h_5 waits =>
      have inside : (b.proctab pid).place = some readyQueue := by simp [Procent.place, waits]
      exact agree.takeOut { b.proctab pid with prstate := .free } settled
        isQueue_ready inside rfl (by simp)
    case h_6 state | h_7 state | h_8 state =>
      exact agree.aside pid _ settled (by simp [Procent.place, state]) (by simp [state]) rfl (by simp)
  have freed : Agree (b.freeSlot pid) := by
    refine placed.congr ?_ ?_ ?_ ?_
    all_goals
      unfold Board.freeSlot Board.quit
      cases state : (b.proctab pid).prstate <;> simp only [Board.note, state] <;> rfl
  unfold Board.next
  dsimp only
  split
  · exact freed.goOnAt _
  · exact freed.answer _

/-- Every lawful action keeps the agreement. -/
theorem Agree.next (agree : Agree b) {action : Action} (lawful : b.Lawful action) :
    Agree (b.next action) := by
  cases action with
  | goOnAt point => exact agree.goOnAt point
  | answer value => exact agree.answer value
  | keep =>
    exact ⟨agree.placed, agree.current, agree.single, fun _ => lawful.1⟩
  | preempt pid =>
    obtain ⟨range, inside⟩ := agree.first isQueue_ready lawful.2.1
    exact agree.preempt lawful.1 range inside
  | dispatch pid =>
    obtain ⟨range, inside⟩ := agree.first isQueue_ready lawful.2
    exact agree.dispatch lawful.1 range inside
  | create pid priority base len =>
    obtain ⟨settled, _, isFree, _⟩ := lawful
    refine Agree.congr (agree.aside pid _ settled (by simp [Procent.place, isFree])
      (by simp [isFree]) rfl ?_) rfl rfl rfl rfl
    simp [Procent.fresh]
  | leak base len => exact agree.note _
  | resume pid =>
    obtain ⟨_, range, suspended⟩ := lawful
    exact agree.becomeReady range (by simp [Procent.place, suspended])
  | suspend pid =>
    obtain ⟨settled, range, _, state⟩ := lawful
    unfold Board.next
    dsimp only
    split
    case isTrue isReady =>
      exact agree.takeOut _ settled isQueue_ready (by simp [Procent.place, isReady]) rfl (by simp)
    case isFalse notReady =>
      obtain rfl := agree.single pid range (state.resolve_left notReady)
      exact agree.stop _ settled rfl (by simp)
  | pass sem => exact agree.congr rfl rfl rfl rfl
  | block sem =>
    obtain ⟨settled, range, _⟩ := lawful
    exact Agree.congr (agree.stopIn { b.proctab b.currpid with prstate := .wait, prsem := sem }
      (b.queues (semQueue sem) ++ [b.currpid]) settled (q := semQueue sem) rfl (fun _ => range)
      (by simp) (List.perm_append_singleton ..)) rfl rfl rfl rfl
  | signal sem => exact agree.congr rfl rfl rfl rfl
  | release sem pid =>
    obtain ⟨range, _, _, _, first⟩ := lawful
    obtain ⟨pidRange, inside⟩ := agree.first (isQueue_sem range) first
    exact agree.moveReady pidRange (isQueue_sem range) inside (semQueue_ne_ready range) rfl rfl rfl
  | semMake sem count => exact agree.congr rfl rfl rfl rfl
  | semReset sem => exact agree.congr rfl rfl rfl rfl
  | discharge sem pid =>
    obtain ⟨range, _, _, first⟩ := lawful
    obtain ⟨pidRange, inside⟩ := agree.first (isQueue_sem range) first
    exact agree.moveReady pidRange (isQueue_sem range) inside (semQueue_ne_ready range) rfl rfl rfl
  | semSet sem count => exact agree.congr rfl rfl rfl rfl
  | semDelete sem => exact agree.congr rfl rfl rfl rfl
  | dischargeOne sem pid =>
    obtain ⟨range, _, _, _, first⟩ := lawful
    obtain ⟨pidRange, inside⟩ := agree.first (isQueue_sem range) first
    exact agree.moveReady pidRange (isQueue_sem range) inside (semQueue_ne_ready range) rfl rfl rfl
  | raise sem => exact agree.congr rfl rfl rfl rfl
  | semGone sem => exact agree.congr rfl rfl rfl rfl
  | receive =>
    refine Agree.congr (agree.stop { b.proctab b.currpid with
      prstate := .recv, prstkptr := .receiveEnd } lawful.1 rfl (by simp)) ?_ rfl rfl rfl
    simp [Board.next, Board.setState, Board.setProc, Board.goOnAt]
  | sleep delay state =>
    have sleeping : ({ b.proctab b.currpid with prstate := state, prstkptr :=
        if state = .rectim then .recvtimeEnd else .answer ok } : Procent).place = some sleepQueue ∧
        state ≠ .curr ∧ state ≠ .wait := by
      rcases lawful.2.2 with rfl | ⟨rfl, _⟩ <;> simp [Procent.place]
    refine Agree.congr (agree.stopIn _ ((deltaSplit b.key delay (b.queues sleepQueue)).1 ++
      b.currpid :: (deltaSplit b.key delay (b.queues sleepQueue)).2.2) lawful.1 sleeping.1
      (fun waiting => absurd waiting sleeping.2.2) sleeping.2.1 ?_) ?_ rfl rfl rfl
    · refine List.perm_middle.trans ?_
      rw [deltaSplit_queue]
    · simp [Board.next, Board.setState, Board.setProc, Board.goOnAt, Board.fallAsleep, Board.note,
        Board.setQueue, Board.setKey]
  | timed => exact agree.note _
  | timeOut => exact (agree.note _).answer _
  | deliver pid msg =>
    obtain ⟨_, range, _⟩ := lawful
    have stored : Agree (b.setProc pid { b.proctab pid with prmsg := msg, prhasmsg := true }) :=
      agree.relabel rfl rfl
    have labelled := stored.note (.sent pid msg)
    unfold Board.next Board.alert
    dsimp only
    split
    case h_1 receiving =>
      exact labelled.becomeReady range (by simp [Procent.place, receiving])
    case h_2 receiving =>
      exact labelled.moveReady range isQueue_sleep (by simp [Procent.place, receiving])
        sleep_ne_ready rfl rfl rfl
    all_goals exact labelled
  | take =>
    have emptied : Agree (b.setProc b.currpid { b.proctab b.currpid with prhasmsg := false }) :=
      agree.relabel rfl rfl
    exact (emptied.note _).answer _
  | tick => exact agree.congr rfl rfl rfl rfl
  | wake pid =>
    obtain ⟨range, inside⟩ := agree.first isQueue_sleep lawful.2.1
    exact agree.moveReady range isQueue_sleep inside sleep_ne_ready rfl rfl rfl
  | tickEnd => exact agree.congr rfl rfl rfl rfl
  | chprio pid priority => exact agree.relabel rfl rfl
  | killBegin pid =>
    exact Agree.congr (agree.goOnAt (.killSent pid)) rfl rfl rfl rfl
  | finish pid => exact agree.finish lawful.1 lawful.2.2.1

/-- Whatever lawful actions keep under a condition holds at the end of a sequence of them. -/
theorem Board.Leads.invariant {condition : Board → Action → Prop} (invariant : Board → Prop)
    (leads : b.Leads condition after) (agree : Agree b) (initial : invariant b)
    (kept : ∀ (b : Board) (action : Action), Agree b → invariant b → b.Lawful action →
      condition b action → invariant (b.next action)) : Agree after ∧ invariant after := by
  induction leads with
  | refl => exact ⟨agree, initial⟩
  | tail _ last inductionHypothesis =>
    obtain ⟨action, lawful, met, rfl⟩ := last
    exact ⟨inductionHypothesis.1.next lawful,
      kept _ action inductionHypothesis.1 inductionHypothesis.2 lawful met⟩

theorem Board.Leads.agree {condition : Board → Action → Prop} (leads : b.Leads condition after)
    (agree : Agree b) : Agree after :=
  (leads.invariant (fun _ => True) agree trivial (fun _ _ _ _ _ _ => trivial)).1

end Agree

end Xinu.Processes
