import Xinu.ProcessAgreement

/-!
# The process with the highest priority runs

The ready list is kept by the keys that `ready` copies from the priorities. As long as the
copies are the priorities, the list is in their order, equal ones as they became ready, and
the current process is at least as urgent as the first of them whenever no reschedule is
due. `chprio` changes the original only and calls no `resched`, so the order holds in the
runs in which it changes no ready process and does not put the current process below one.
-/

namespace Xinu.Processes

open Runs DeltaList

/-- The last time the one process became ready is before the last time of the other. -/
def ReadiedBefore (log : List Entry) (pid other : Int) : Prop :=
  log.idxOf (.readied other) < log.idxOf (.readied pid)

/-- More urgent by the keys, or ready for a longer time. -/
def Ahead (keys : Int → Int32) (log : List Entry) (pid other : Int) : Prop :=
  (keys other).toInt < (keys pid).toInt ∨
    (keys other).toInt = (keys pid).toInt ∧ ReadiedBefore log pid other

/-- The law of the ready list. -/
structure PrioLaw (b : Board) : Prop where
  keys : ∀ pid ∈ b.queues readyQueue, b.key pid = (b.proctab pid).prprio.toInt32
  sorted : (b.queues readyQueue).Pairwise (Ahead b.key b.log)
  top : b.due = false → ∀ pid ∈ b.queues readyQueue,
    (b.key pid).toInt ≤ (b.proctab b.currpid).prprio.toInt

section Lists

variable {keys : Int → Int32} {log : List Entry} {pid other : Int} {key : Int32} {queue : List Int}

/-- An entry that makes nobody ready changes no order. -/
theorem readiedBefore_cons {entry : Entry} (silent : ∀ pid, entry ≠ .readied pid) :
    ReadiedBefore (entry :: log) pid other ↔ ReadiedBefore log pid other := by
  unfold ReadiedBefore
  rw [List.idxOf_cons_ne _ (silent other), List.idxOf_cons_ne _ (silent pid)]
  lia

theorem Ahead.append {entries : List Entry} (silent : ∀ entry ∈ entries, ∀ pid, entry ≠ .readied pid)
    (ahead : Ahead keys log pid other) : Ahead keys (entries ++ log) pid other := by
  induction entries with
  | nil => exact ahead
  | cons entry entries inductionHypothesis =>
    have later := inductionHypothesis fun other member => silent other (List.mem_cons_of_mem _ member)
    refine later.imp_right (And.imp_right ?_)
    exact (readiedBefore_cons (silent entry List.mem_cons_self)).mpr

/-- The first process of an ordered list is at least as urgent as all. -/
theorem head_urgent (sorted : queue.Pairwise (Ahead keys log)) (first : queue.head? = some pid)
    (member : other ∈ queue) : (keys other).toInt ≤ (keys pid).toInt := by
  obtain ⟨rest, rfl⟩ := List.head?_eq_some_iff.mp first
  rcases List.mem_cons.mp member with rfl | later
  · exact le_refl _
  · rcases List.rel_of_pairwise_cons sorted later with less | ⟨same, _⟩
    · exact le_of_lt less
    · exact le_of_eq same

/-- Behind the place of a new process all are less urgent. -/
theorem mem_behind (sorted : queue.Pairwise (Ahead keys log))
    (member : other ∈ queue.dropWhile (fun other => key.toInt ≤ (keys other).toInt)) :
    (keys other).toInt < key.toInt := by
  cases rest : queue.dropWhile (fun other => key.toInt ≤ (keys other).toInt) with
  | nil =>
    rw [rest] at member
    cases member
  | cons first back =>
    have stopped : ¬ key.toInt ≤ (keys first).toInt := by
      have failed := List.head?_dropWhile_not (fun other => decide (key.toInt ≤ (keys other).toInt))
        queue
      rw [rest] at failed
      simpa using failed
    have still : (first :: back).Pairwise (Ahead keys log) := by
      rw [← rest]
      exact sorted.sublist (List.dropWhile_sublist _)
    rw [rest] at member
    have urgent := head_urgent still (List.head?_cons) member
    omega

/-- A process that becomes ready goes behind those of its priority, and was ready last. -/
theorem insertByKey_sorted (sorted : queue.Pairwise (Ahead keys log)) (fresh : pid ∉ queue) :
    (insertByKey keys pid key queue).Pairwise
      (Ahead (Function.update keys pid key) (.readied pid :: log)) := by
  have apart : ∀ other ∈ queue, other ≠ pid := fun other member same => fresh (same ▸ member)
  have kept : queue.Pairwise (Ahead (Function.update keys pid key) (.readied pid :: log)) := by
    refine sorted.imp_of_mem fun {one two} oneMember twoMember ahead => ?_
    unfold Ahead ReadiedBefore
    rw [Function.update_of_ne (apart one oneMember), Function.update_of_ne (apart two twoMember),
      List.idxOf_cons_ne _ (by simpa using Ne.symm (apart two twoMember)),
      List.idxOf_cons_ne _ (by simpa using Ne.symm (apart one oneMember))]
    unfold Ahead ReadiedBefore at ahead
    lia
  unfold insertByKey
  rw [List.pairwise_append]
  refine ⟨kept.sublist (List.takeWhile_sublist _), ?_, ?_⟩
  · refine List.pairwise_cons.mpr ⟨fun other member => Or.inl ?_,
      kept.sublist (List.dropWhile_sublist _)⟩
    have inside : other ∈ queue := (List.dropWhile_sublist _).subset member
    rw [Function.update_self, Function.update_of_ne (apart other inside)]
    exact mem_behind sorted member
  · intro one oneMember two twoMember
    have inside : one ∈ queue := (List.takeWhile_sublist _).subset oneMember
    have large : key.toInt ≤ (keys one).toInt := by simpa using List.mem_takeWhile_imp oneMember
    rcases List.mem_cons.mp twoMember with rfl | later
    · -- The new process has the largest place in the log.
      unfold Ahead ReadiedBefore
      rw [Function.update_self, Function.update_of_ne (apart one inside), List.idxOf_cons_self,
        List.idxOf_cons_ne _ (by simpa using Ne.symm (apart one inside))]
      lia
    · have behind := mem_behind sorted later
      have insideTwo : two ∈ queue := (List.dropWhile_sublist _).subset later
      refine Or.inl ?_
      rw [Function.update_of_ne (apart one inside), Function.update_of_ne (apart two insideTwo)]
      omega

end Lists

section Steps

variable {b after : Board} {pid : Int} {entry : Procent}

/-- Processes may leave the ready list, and the current process may get more urgent. -/
theorem PrioLaw.frame (law : PrioLaw b) (entries : List Entry)
    (queue : (after.queues readyQueue).Sublist (b.queues readyQueue))
    (keys : ∀ pid ∈ b.queues readyQueue, after.key pid = b.key pid)
    (prios : ∀ pid ∈ b.queues readyQueue, (after.proctab pid).prprio = (b.proctab pid).prprio)
    (log : after.log = entries ++ b.log) (silent : ∀ entry ∈ entries, ∀ pid, entry ≠ .readied pid)
    (due : after.due = false → b.due = false ∧
      (b.proctab b.currpid).prprio.toInt ≤ (after.proctab after.currpid).prprio.toInt) :
    PrioLaw after := by
  refine ⟨fun pid member => ?_, ?_, fun settled pid member => ?_⟩
  · have inside := queue.subset member
    rw [keys pid inside, prios pid inside]
    exact law.keys pid inside
  · refine (law.sorted.sublist queue).imp_of_mem fun {one two} oneMember twoMember ahead => ?_
    have later : Ahead b.key after.log one two := by
      rw [log]
      exact ahead.append silent
    unfold Ahead at later ⊢
    rw [keys one (queue.subset oneMember), keys two (queue.subset twoMember)]
    exact later
  · obtain ⟨before, urgent⟩ := due settled
    have inside := queue.subset member
    rw [keys pid inside]
    exact (law.top before pid inside).trans urgent

/-- One entry of the table changes and its priority stays. -/
theorem prprio_update {proctab : Int → Procent} (same : entry.prprio = (proctab pid).prprio)
    (other : Int) : (Function.update proctab pid entry other).prprio = (proctab other).prprio := by
  rcases eq_or_ne other pid with rfl | apart
  · rw [Function.update_self, same]
  · rw [Function.update_of_ne apart]

/-- Neither the ready list nor a priority changes. -/
theorem PrioLaw.calm (law : PrioLaw b) (entries : List Entry)
    (queue : after.queues readyQueue = b.queues readyQueue)
    (keys : ∀ pid ∈ b.queues readyQueue, after.key pid = b.key pid)
    (prios : ∀ pid, (after.proctab pid).prprio = (b.proctab pid).prprio)
    (log : after.log = entries ++ b.log) (silent : ∀ entry ∈ entries, ∀ pid, entry ≠ .readied pid)
    (currpid : after.currpid = b.currpid) (due : after.due = false → b.due = false) :
    PrioLaw after := by
  refine law.frame entries (by rw [queue]) keys (fun pid _ => prios pid) log silent fun settled => ?_
  rw [currpid, prios]
  exact ⟨due settled, le_refl _⟩

theorem PrioLaw.note (law : PrioLaw b) (entry : Entry) (silent : ∀ pid, entry ≠ .readied pid) :
    PrioLaw (b.note entry) :=
  law.calm [entry] rfl (fun _ _ => rfl) (fun _ => rfl) rfl (by simpa using silent) rfl id

theorem PrioLaw.setProc (law : PrioLaw b) (same : entry.prprio = (b.proctab pid).prprio) :
    PrioLaw (b.setProc pid entry) :=
  law.calm [] rfl (fun _ _ => rfl) (prprio_update same) rfl (by simp) rfl id

theorem PrioLaw.goOnAt (law : PrioLaw b) (point : Point) : PrioLaw (b.goOnAt point) :=
  law.setProc rfl

theorem PrioLaw.answer (law : PrioLaw b) (value : Int) : PrioLaw (b.answer value) :=
  (law.goOnAt .user).note _ (by simp)

/-- A process outside of the ready list enters it. -/
theorem PrioLaw.becomeReady (law : PrioLaw b) (fresh : pid ∉ b.queues readyQueue) :
    PrioLaw (b.becomeReady pid) := by
  have queue : (b.becomeReady pid).queues readyQueue =
      insertByKey b.key pid (b.proctab pid).prprio.toInt32 (b.queues readyQueue) := by
    simp [Board.becomeReady, Board.setState, Board.setProc, Board.setQueue, Board.setKey, Board.note]
  have key : (b.becomeReady pid).key =
      Function.update b.key pid (b.proctab pid).prprio.toInt32 := by
    simp [Board.becomeReady, Board.setState, Board.setProc, Board.setQueue, Board.setKey, Board.note]
  have prios : ∀ other, ((b.becomeReady pid).proctab other).prprio = (b.proctab other).prprio :=
    prprio_update rfl
  refine ⟨fun other member => ?_, ?_, fun settled => by cases settled⟩
  · rw [queue, mem_insertByKey] at member
    rw [key, prios]
    rcases eq_or_ne other pid with rfl | apart
    · rw [Function.update_self]
    · rw [Function.update_of_ne apart]
      exact law.keys other (member.resolve_left apart)
  · rw [queue, key]
    exact insertByKey_sorted law.sorted fresh

/-- The first ready process takes over. -/
theorem PrioLaw.dispatch (law : PrioLaw b) (first : (b.queues readyQueue).head? = some pid) :
    PrioLaw (b.dispatch pid) := by
  have queue : (b.dispatch pid).queues readyQueue = (b.queues readyQueue).erase pid := by
    simp [Board.dispatch, Board.leave, Board.setState, Board.setProc, Board.setQueue]
  have prios : ∀ other, ((b.dispatch pid).proctab other).prprio = (b.proctab other).prprio :=
    prprio_update rfl
  refine ⟨fun other member => ?_, ?_, fun _ other member => ?_⟩
  · rw [queue] at member
    rw [prios]
    exact law.keys other (List.mem_of_mem_erase member)
  · rw [queue]
    exact law.sorted.sublist List.erase_sublist
  · rw [queue] at member
    have urgent := head_urgent law.sorted first (List.mem_of_mem_erase member)
    rw [law.keys pid (List.mem_of_mem_head? first), Int16.toInt_toInt32] at urgent
    have current : (b.dispatch pid).currpid = pid := rfl
    rw [current, prios]
    exact urgent

theorem Agree.readyAwake (agree : Agree b) (member : pid ∈ b.queues readyQueue) :
    pid ∉ b.queues sleepQueue := by
  have inside := ((agree.placed.member _ isQueue_ready pid).mp member).2
  refine agree.placed.absent isQueue_sleep ?_
  rw [inside]
  simp [Ne.symm sleep_ne_ready]

theorem PrioLaw.rouse (law : PrioLaw b) (agree : Agree b) : PrioLaw (b.rouse pid) := by
  refine law.calm [] ?_ (fun other member => ?_) (fun _ => rfl) rfl (by simp) rfl id
  · simp [Board.rouse, Board.leave, Board.setQueue, Ne.symm sleep_ne_ready]
  · have key : (b.rouse pid).key = adjustFirst b.key (fun key => key + b.key pid)
        ((b.queues sleepQueue).dropWhile (fun other => other ≠ pid)).tail := rfl
    rw [key]
    refine adjustFirst_away fun behind => agree.readyAwake member ?_
    exact (List.dropWhile_sublist _).subset (List.mem_of_mem_tail behind)

/-- A process leaves the ready list. -/
theorem PrioLaw.leaveReady (law : PrioLaw b) : PrioLaw (b.leave pid readyQueue) := by
  refine law.frame [] ?_ (fun _ _ => rfl) (fun _ _ => rfl) rfl (by simp)
    fun settled => ⟨settled, le_refl _⟩
  simp [Board.leave, Board.setQueue, List.erase_sublist]

/-- A process leaves another queue. -/
theorem PrioLaw.leave (law : PrioLaw b) (pid : Int) {q : Int} (apart : readyQueue ≠ q) :
    PrioLaw (b.leave pid q) := by
  refine law.calm [] ?_ (fun _ _ => rfl) (fun _ => rfl) rfl (by simp) rfl id
  simp [Board.leave, Board.setQueue, apart]

/-- The count of a semaphore does not matter. -/
theorem PrioLaw.setCount (law : PrioLaw b) (sem : Int) (count : Int32) :
    PrioLaw (b.setCount sem count) :=
  law.calm [] rfl (fun _ _ => rfl) (fun _ => rfl) rfl (by simp) rfl id

/-- A process of another queue becomes ready. -/
theorem PrioLaw.moveReady {q : Int} (law : PrioLaw after) (agree : Agree b)
    (inside : (b.proctab pid).place = some q) (apart : q ≠ readyQueue)
    (queue : after.queues readyQueue = b.queues readyQueue) : PrioLaw (after.becomeReady pid) := by
  refine law.becomeReady ?_
  rw [queue]
  refine agree.placed.absent isQueue_ready ?_
  rw [inside]
  simpa using apart

/-- A process that is killed leaves its queue. -/
theorem PrioLaw.quit (law : PrioLaw b) (agree : Agree b) (range : InRange pid) :
    PrioLaw (b.quit pid) := by
  unfold Board.quit
  split
  case h_1 =>
    exact law.calm [] rfl (fun _ _ => rfl) (fun _ => rfl) rfl (by simp) rfl fun settled => by cases settled
  case h_2 | h_3 => exact (law.rouse agree).note _ (by simp)
  case h_4 waits =>
    have apart := semQueue_ne_ready (agree.placed.waits pid range waits)
    exact ((law.setCount _ _).note _ (by simp)).leave pid (Ne.symm apart)
  case h_5 => exact law.leaveReady
  case h_6 | h_7 | h_8 => exact law

/-- A receiver becomes ready. -/
theorem PrioLaw.alert (law : PrioLaw b) (agree : Agree b) : PrioLaw (b.alert pid) := by
  unfold Board.alert
  split
  case h_1 state =>
    refine law.becomeReady (agree.placed.absent isQueue_ready ?_)
    simp [Procent.place, state]
  case h_2 state =>
    have inside : (b.proctab pid).place = some sleepQueue := by simp [Procent.place, state]
    refine ((law.rouse agree).note _ (by simp)).moveReady agree inside sleep_ne_ready ?_
    simp [Board.note, Board.rouse, Board.leave, Board.setQueue, Ne.symm sleep_ne_ready]
  all_goals exact law

/-- Every lawful action keeps the order, as long as a change of a priority does. -/
theorem PrioLaw.next (law : PrioLaw b) (agree : Agree b) {action : Action}
    (lawful : b.Lawful action)
    (kept : ∀ pid priority, action = .chprio pid priority →
      ((b.proctab pid).prstate = .ready → priority = (b.proctab pid).prprio) ∧
      (pid = b.currpid → ∀ other ∈ b.queues readyQueue,
        (b.proctab other).prprio.toInt ≤ priority.toInt)) : PrioLaw (b.next action) := by
  cases action with
  | goOnAt point => exact law.goOnAt point
  | answer value => exact law.answer value
  | keep =>
    refine ⟨law.keys, law.sorted, fun _ pid member => ?_⟩
    cases head : (b.queues readyQueue).head? with
    | none =>
      have isEmpty : b.queues readyQueue = [] := List.head?_eq_none_iff.mp head
      have none_ : pid ∈ b.queues readyQueue := member
      rw [isEmpty] at none_
      cases none_
    | some first =>
      have urgent := head_urgent law.sorted head member
      have below := lawful.2 first (by rw [head]; rfl)
      exact urgent.trans (le_of_lt below)
  | preempt pid =>
    obtain ⟨runs, first, weak⟩ := lawful
    have outside : (b.proctab b.currpid).place = none := by simp [Procent.place, runs]
    have fresh : b.currpid ∉ b.queues readyQueue :=
      agree.placed.absent isQueue_ready (by rw [outside]; simp)
    refine (law.becomeReady fresh).dispatch ?_
    have weakKey : (b.proctab b.currpid).prprio.toInt32.toInt ≤ (b.key pid).toInt := by
      rw [Int16.toInt_toInt32]
      exact weak
    simpa [Board.becomeReady, Board.setState, Board.setProc, Board.setQueue, Board.setKey,
      Board.note] using head_insertByKey b.currpid first weakKey
  | dispatch pid => exact law.dispatch lawful.2
  | create pid priority base len =>
    obtain ⟨settled, _, isFree, _⟩ := lawful
    have outside : (b.proctab pid).place = none := by simp [Procent.place, isFree]
    have apart : ∀ other ∈ b.queues readyQueue, other ≠ pid := by
      rintro other member rfl
      exact agree.placed.absent isQueue_ready (by rw [outside]; simp) member
    have current : b.currpid ≠ pid := by
      rintro rfl
      rw [agree.running settled] at isFree
      cases isFree
    refine law.frame [.created pid base len] (List.Sublist.refl _) (fun _ _ => rfl)
      (fun other member => ?_) rfl (by simp) fun _ => ⟨settled, ?_⟩
    · simp [Board.next, Board.setProc, Board.note, apart other member]
    · simp [Board.next, Board.setProc, Board.note, current]
  | leak base len => exact law.note _ (by simp)
  | resume pid =>
    refine law.becomeReady (agree.placed.absent isQueue_ready ?_)
    simp [Procent.place, lawful.2.2]
  | suspend pid =>
    unfold Board.next
    dsimp only
    split
    · exact law.leaveReady.setProc rfl
    · have stopped : PrioLaw (b.setState pid .susp) := law.setProc rfl
      exact stopped.calm [] rfl (fun _ _ => rfl) (fun _ => rfl) rfl (by simp) rfl
        fun settled => by cases settled
  | pass sem => exact (law.setCount _ _).note _ (by simp)
  | block sem =>
    have apart : readyQueue ≠ semQueue sem := Ne.symm (semQueue_ne_ready lawful.2.1)
    refine law.calm [.blocked b.currpid sem] ?_ (fun _ _ => rfl) (prprio_update rfl) rfl (by simp) rfl
      fun settled => by cases settled
    simp [Board.next, Board.setQueue, Board.setProc, Board.note, Board.setCount, apart]
  | signal sem => exact (law.setCount _ _).note _ (by simp)
  | release sem pid =>
    have apart := semQueue_ne_ready lawful.1
    have inside := (agree.first (isQueue_sem lawful.1) lawful.2.2.2.2).2
    have left := (((law.setCount sem ((b.semtab sem).scount + 1)).note (.signalled sem)
      (by simp)).leave pid (Ne.symm apart)).note (.released pid sem) (by simp)
    refine left.moveReady agree inside apart ?_
    simp [Board.leave, Board.setQueue, Board.note, Board.setCount, Ne.symm apart]
  | semMake sem count =>
    exact law.calm [.semSet sem count] rfl (fun _ _ => rfl) (fun _ => rfl) rfl (by simp) rfl id
  | semReset sem | raise sem | semGone sem | tickEnd =>
    exact law.calm [] rfl (fun _ _ => rfl) (fun _ => rfl) rfl (by simp) rfl id
  | discharge sem pid =>
    have apart := semQueue_ne_ready lawful.1
    have inside := (agree.first (isQueue_sem lawful.1) lawful.2.2.2).2
    have left := (law.leave pid (Ne.symm apart)).note (.discharged pid sem) (by simp)
    refine left.moveReady agree inside apart ?_
    simp [Board.leave, Board.setQueue, Board.note, Ne.symm apart]
  | semSet sem count =>
    exact law.calm [.semSet sem count] rfl (fun _ _ => rfl) (fun _ => rfl) rfl (by simp) rfl id
  | semDelete sem =>
    exact law.calm [.semGone sem] rfl (fun _ _ => rfl) (fun _ => rfl) rfl (by simp) rfl id
  | dischargeOne sem pid =>
    have apart := semQueue_ne_ready lawful.1
    have inside := (agree.first (isQueue_sem lawful.1) lawful.2.2.2.2).2
    have left := ((law.setCount sem ((b.semtab sem).scount + 1)).leave pid
      (Ne.symm apart)).note (.discharged pid sem) (by simp)
    refine left.moveReady agree inside apart ?_
    simp [Board.leave, Board.setQueue, Board.note, Board.setCount, Ne.symm apart]
  | receive =>
    have waits : PrioLaw (b.setState b.currpid .recv) := law.setProc rfl
    exact (waits.goOnAt .receiveEnd).calm [] rfl (fun _ _ => rfl) (fun _ => rfl) rfl (by simp) rfl
      fun settled => by cases settled
  | sleep delay state =>
    have runs := agree.running lawful.1
    have asleep : PrioLaw (b.fallAsleep b.currpid delay) := by
      refine law.calm [] ?_ (fun other member => ?_) (fun _ => rfl) rfl (by simp) rfl id
      · simp [Board.fallAsleep, Board.setQueue, Board.setKey, Ne.symm sleep_ne_ready]
      · have apart : other ≠ b.currpid := by
          rintro rfl
          refine agree.placed.absent isQueue_ready ?_ member
          simp [Procent.place, runs]
        have away : other ∉ (deltaSplit b.key delay (b.queues sleepQueue)).2.2 := by
          intro behind
          refine agree.readyAwake member ?_
          have whole : (deltaSplit b.key delay (b.queues sleepQueue)).1 ++
              (deltaSplit b.key delay (b.queues sleepQueue)).2.2 = b.queues sleepQueue :=
            deltaSplit_queue _ _ delay
          rw [← whole]
          exact List.mem_append_right _ behind
        simp only [Board.fallAsleep, Board.setKey, Board.setQueue]
        rw [adjustFirst_away away, Function.update_of_ne apart]
    have stopped : PrioLaw ((b.fallAsleep b.currpid delay).setState b.currpid state) :=
      asleep.setProc rfl
    exact ((stopped.note (.slept b.currpid delay) (by simp)).goOnAt _).calm [] rfl (fun _ _ => rfl)
      (fun _ => rfl) rfl (by simp) rfl fun settled => by cases settled
  | timed => exact law.note _ (by simp)
  | timeOut => exact (law.note _ (by simp)).answer _
  | deliver pid msg =>
    have stored : PrioLaw (b.setProc pid { b.proctab pid with prmsg := msg, prhasmsg := true }) :=
      law.setProc rfl
    have relabelled : Agree (b.setProc pid { b.proctab pid with prmsg := msg, prhasmsg := true }) :=
      agree.relabel rfl rfl
    exact (stored.note (.sent pid msg) (by simp)).alert (relabelled.note _)
  | take =>
    have emptied : PrioLaw (b.setProc b.currpid { b.proctab b.currpid with prhasmsg := false }) :=
      law.setProc rfl
    exact (emptied.note _ (by simp)).answer _
  | tick =>
    refine law.calm [.ticked] rfl (fun other member => ?_) (fun _ => rfl) rfl (by simp) rfl id
    have key : (b.next .tick).key =
        adjustFirst b.key (fun key => key - 1) (b.queues sleepQueue) := rfl
    rw [key]
    exact adjustFirst_away (agree.readyAwake member)
  | wake pid =>
    have inside := (agree.first isQueue_sleep lawful.2.1).2
    have left := (law.leave pid (Ne.symm sleep_ne_ready)).note (.woken pid) (by simp)
    refine left.moveReady agree inside sleep_ne_ready ?_
    simp [Board.leave, Board.setQueue, Board.note, Ne.symm sleep_ne_ready]
  | chprio pid priority =>
    obtain ⟨same, urgent⟩ := kept pid priority rfl
    have prios : ∀ other ∈ b.queues readyQueue,
        ((b.next (.chprio pid priority)).proctab other).prprio = (b.proctab other).prprio := by
      intro other member
      rcases eq_or_ne other pid with rfl | apart
      · simp [Board.next, Board.setProc, same (agree.readyState member)]
      · simp [Board.next, Board.setProc, apart]
    refine ⟨fun other member => ?_, law.sorted, fun settled other member => ?_⟩
    · rw [prios other member]
      exact law.keys other member
    · rcases eq_or_ne b.currpid pid with isCurrent | apart
      · have copied := law.keys other member
        have above := urgent isCurrent.symm other member
        have key : (b.next (.chprio pid priority)).key other = b.key other := rfl
        rw [key, copied, Int16.toInt_toInt32]
        simpa [Board.next, Board.setProc, isCurrent] using above
      · simpa [Board.next, Board.setProc, apart] using law.top settled other member
  | killBegin pid =>
    exact (law.goOnAt (.killSent pid)).calm [.killBegun pid] rfl (fun _ _ => rfl) (fun _ => rfl) rfl
      (by simp) rfl id
  | finish pid =>
    obtain ⟨_, _, range, _⟩ := lawful
    have noted := law.note (.stackFreed pid (b.proctab pid).prstkbase (b.proctab pid).prstklen)
      (by simp)
    have quits := noted.quit (agree.note _) range
    have gone : PrioLaw (((b.note (.stackFreed pid (b.proctab pid).prstkbase
        (b.proctab pid).prstklen)).quit pid).setState pid .free) := quits.setProc rfl
    have freed : PrioLaw (b.freeSlot pid) := gone.note _ (by simp)
    unfold Board.next
    dsimp only
    split
    · exact freed.goOnAt _
    · exact freed.answer _

end Steps

/-- A change of a priority leaves a ready process as it is, and puts the current process below
no ready one. -/
def PriorityKept (k : Kernel) : Move → Prop
  | .call (.chprio pid newprio) => InRange pid →
    ((k.proctab pid).prstate = .ready → newprio = (k.proctab pid).prprio) ∧
    (pid = k.currpid → ∀ other, InRange other → (k.proctab other).prstate = .ready →
      (k.proctab other).prprio.toInt ≤ newprio.toInt)
  | _ => True

/-- In every run in which the changes of priorities are of this kind, after every step the
current process is at least as urgent as every ready one, and the ready list is in the order
of the priorities, equal ones in the order in which they became ready. -/
theorem highest_priority_runs (events : List (Event Kernel Move Unit)) (last : Kernel)
    (run : Run step boot events last) (met : Meets PriorityKept events) :
    (∀ pid, InRange pid → (last.proctab pid).prstate = .ready →
      (last.proctab pid).prprio.toInt ≤ (last.proctab last.currpid).prprio.toInt) ∧
    ∃ queues, Consistent last queues ∧ (queues last.readylist).Pairwise fun pid other =>
      (last.proctab other).prprio.toInt < (last.proctab pid).prprio.toInt ∨
        (last.proctab other).prprio = (last.proctab pid).prprio ∧
          ReadiedBefore last.log pid other := by
  have initial : PrioLaw bootBoard := ⟨by simp [bootBoard], List.Pairwise.nil, by simp [bootBoard]⟩
  obtain ⟨b, sound, law⟩ := run_law PrioLaw PriorityKept initial
    (by
      intro k first move b action sound _ isKept agree law lawful origin
      refine law.next agree lawful ?_
      rintro pid priority rfl
      obtain ⟨rfl, rfl⟩ := origin
      obtain ⟨same, urgent⟩ := isKept lawful.2.1
      rw [sound.shows_.proctab] at same urgent
      rw [sound.shows_.currpid] at urgent
      refine ⟨same, fun isCurrent other member => ?_⟩
      have range := ((agree.placed.member _ isQueue_ready other).mp member).1
      exact urgent isCurrent other range (agree.readyState member)) events last run met
  rw [sound.shows_.proctab, sound.shows_.currpid, sound.shows_.readylist, sound.shows_.log]
  refine ⟨fun pid range state => ?_, b.queues, sound.consistent, ?_⟩
  · have member := (sound.agree.placed.member _ isQueue_ready pid).mpr
      ⟨range, place_ready.mpr (Or.inl state)⟩
    have below := law.top sound.rested.due pid member
    rwa [law.keys pid member, Int16.toInt_toInt32] at below
  · refine law.sorted.imp_of_mem fun {one two} oneMember twoMember ahead => ?_
    unfold Ahead at ahead
    rw [law.keys one oneMember, law.keys two twoMember, Int16.toInt_toInt32,
      Int16.toInt_toInt32] at ahead
    exact ahead.imp_right (And.imp_left Int16.toInt_inj.mp)

/-- No priority of a ready process or of the current one changes. -/
def Kernel.spares (k : Kernel) : Move → Bool
  | .call (.chprio pid _) => decide ((k.proctab pid).prstate ≠ .ready ∧ pid ≠ k.currpid)
  | _ => true

theorem priorityKept_of_spares {k : Kernel} {move : Move} (spares : k.spares move = true) :
    PriorityKept k move := by
  unfold PriorityKept
  split
  case h_1 pid newprio =>
    obtain ⟨notReady, notCurrent⟩ := of_decide_eq_true spares
    exact fun _ => ⟨fun state => absurd state notReady, fun isCurrent => absurd isCurrent notCurrent⟩
  case h_2 => trivial

/-- A suspended process gets another priority before it runs. -/
theorem raised_before_it_runs : ∃ events last, Run step boot events last ∧
    last.currpid = 1 ∧ (last.proctab 1).prprio = 25 ∧ (last.proctab 2).prprio.toInt ≤ 25 ∧
      ∃ queues, Consistent last queues ∧ (queues last.readylist).Pairwise fun pid other =>
        (last.proctab other).prprio.toInt < (last.proctab pid).prprio.toInt ∨
          (last.proctab other).prprio = (last.proctab pid).prprio ∧
            ReadiedBefore last.log pid other := by
  obtain ⟨events, last, run, checked⟩ := trace_exists step boot
    [.call (.create 400 20 (some 4096)), .call (.chprio 1 25), .call (.resume 1),
      .call (.create 400 20 (some 8192)), .call (.resume 2), .goOn]
    (fun events last => decide (last.currpid = 1 ∧ (last.proctab 1).prprio = 25 ∧
      (last.proctab 2).prstate = .ready ∧
      ∀ event ∈ events, event.before.spares event.call = true)) (by decide +kernel)
  obtain ⟨current, raised, isReady, spares⟩ := of_decide_eq_true checked
  obtain ⟨top, ordered⟩ := highest_priority_runs events last run fun event member =>
    priorityKept_of_spares (spares event member)
  have below := top 2 (by decide) isReady
  rw [current, raised] at below
  exact ⟨events, last, run, current, raised, below, ordered⟩

/-- A process puts itself below a ready one and goes on running. -/
theorem lowered_process_runs_on : ¬ ∀ events last, Run step boot events last → ∀ pid,
    InRange pid → (last.proctab pid).prstate = .ready →
      (last.proctab pid).prprio.toInt ≤ (last.proctab last.currpid).prprio.toInt := by
  intro always
  obtain ⟨events, last, run, checked⟩ := trace_exists step boot
    [.call (.create 400 20 (some 4096)), .call (.create 400 10 (some 8192)), .call (.resume 1),
      .call (.resume 2), .goOn, .call (.chprio 1 5)]
    (fun _ last => decide ((last.proctab 2).prstate = .ready ∧
      (last.proctab last.currpid).prprio.toInt < (last.proctab 2).prprio.toInt)) (by decide +kernel)
  obtain ⟨state, below⟩ := of_decide_eq_true checked
  exact absurd (always events last run 2 (by decide) state) (not_le.mpr below)

end Xinu.Processes
