import Xinu.QueueTable

/-!
# The tables follow the lists

A kernel shows a board when the tables are the same and the queue table holds its queues.
What the code does to the tables, the actions do to the board: each function either
completes in a state that shows the board after some lawful actions, or it gives up after
actions that leave nobody to run.

Some actions are performed by certain calls only. Their origin is recorded with them,
because the laws that hold under a condition on the calls need it.
-/

namespace Xinu.Processes

/-- The kernel has the tables of the board and the queues in its queue table. -/
structure Shows (k : Kernel) (b : Board) : Prop where
  proctab : k.proctab = b.proctab
  semtab : k.semtab = b.semtab
  currpid : k.currpid = b.currpid
  prcount : k.prcount = b.prcount
  log : k.log = b.log
  threads : k.Threads b.queues
  keys : k.keys = b.key
  readylist : k.readylist = readyQueue
  sleepq : k.sleepq = sleepQueue
  squeue : ∀ sem, SemRange sem → (k.semtab sem).squeue = semQueue sem
  nextsem : k.nextsem < nsem.toNat

/-- The current process does not run and nobody is ready. -/
def Board.Starved (b : Board) : Prop :=
  (b.proctab b.currpid).prstate ≠ .curr ∧ b.queues readyQueue = []

/-- The call from which an action comes, and the state in which the step began. -/
def Origin (move : Move) (first b : Board) : Action → Prop
  | .chprio pid priority => move = .call (.chprio pid priority) ∧ b = first
  | .killBegin pid => move = .call (.kill pid) ∧ b = first
  | .finish _ => move = .goOn ∧ b = first
  | .leak _ _ => b = first ∧ ∃ ssize priority base, move = .call (.create ssize priority (some base)) ∧
    (priority.toInt < 1 ∨ ∀ pid, InRange pid → (b.proctab pid).prstate ≠ .free)
  | .block sem => move = .call (.wait sem) ∧ b = first
  | .receive => move = .call .receive ∧ b = first
  | .sleep delay state => b.currpid = first.currpid ∧
    ((∃ ticks : UInt32, move = .call (.sleepms ticks) ∧ ticks ≠ 0 ∧ delay = ticks.toInt32) ∨
      (state = .rectim ∧ move = .call (.recvtime delay) ∧ 0 ≤ delay.toInt ∧
        (first.proctab first.currpid).prhasmsg = false))
  | .signal sem | .release sem _ => (first.semtab sem).sstate = .used ∧
    ((move = .call (.signal sem) ∧ (b.semtab sem).scount = (first.semtab sem).scount) ∨
      ∃ (count : Int32) (round : Nat), move = .call (.signaln sem count) ∧
        (round : Int) < count.toInt ∧
        (b.semtab sem).scount = (first.semtab sem).scount + Int32.ofNat round)
  | _ => True

/-- A function completes after lawful actions, or gives up after them. -/
def Reach (move : Move) (first b : Board) (claim : Kernel → Board → Prop) : Option Kernel → Prop
  | some k => ∃ after, b.Leads (Origin move first) after ∧ Shows k after ∧ claim k after
  | none => ∃ after, b.Leads (Origin move first) after ∧ after.Starved

section Reach

variable {move : Move} {first b middle : Board} {claim other : Kernel → Board → Prop} {k : Kernel}
  {result : Option Kernel}

/-- A lawful action. -/
theorem Board.Leads.one {condition : Board → Action → Prop} {action : Action}
    (lawful : b.Lawful action) (met : condition b action) : b.Leads condition (b.next action) :=
  Relation.ReflTransGen.single ⟨action, lawful, met, rfl⟩

theorem Reach.done (shows_ : Shows k b) (holds : claim k b) : Reach move first b claim (some k) :=
  ⟨b, Relation.ReflTransGen.refl, shows_, holds⟩

/-- Actions before those of a function. -/
theorem Reach.after (leads : b.Leads (Origin move first) middle)
    (reach : Reach move first middle claim result) : Reach move first b claim result := by
  cases result with
  | none =>
    obtain ⟨last, rest, starved⟩ := reach
    exact ⟨last, Relation.ReflTransGen.trans leads rest, starved⟩
  | some k =>
    obtain ⟨last, rest, shows_, holds⟩ := reach
    exact ⟨last, Relation.ReflTransGen.trans leads rest, shows_, holds⟩

/-- One action before those of a function. -/
theorem Reach.act (action : Action) (lawful : b.Lawful action) (met : Origin move first b action)
    (reach : Reach move first (b.next action) claim result) : Reach move first b claim result :=
  reach.after (Board.Leads.one lawful met)

/-- Two functions in a row. -/
theorem Reach.bind {next : Kernel → Option Kernel} (agree : Agree b)
    (reach : Reach move first b claim result)
    (later : ∀ k middle, Agree middle → b.Leads (Origin move first) middle → Shows k middle →
      claim k middle → Reach move first middle other (next k)) :
    Reach move first b other (result.bind next) := by
  cases result with
  | none => exact reach
  | some k =>
    obtain ⟨middle, leads, shows_, holds⟩ := reach
    exact (later k middle (leads.agree agree) leads shows_ holds).after leads

theorem Reach.weaken (reach : Reach move first b claim result)
    (implied : ∀ k middle, claim k middle → other k middle) : Reach move first b other result := by
  cases result with
  | none => exact reach
  | some k =>
    obtain ⟨middle, leads, shows_, holds⟩ := reach
    exact ⟨middle, leads, shows_, implied k middle holds⟩

end Reach

section Shows

variable {k after : Kernel} {b : Board} {pid sem : Int} {proctab : Int → Procent}

theorem Shows.note (shows_ : Shows k b) (entry : Entry) : Shows (k.note entry) (b.note entry) :=
  { shows_ with log := congrArg (entry :: ·) shows_.log }

theorem Shows.setProc (shows_ : Shows k b) (pid : Int) (entry : Procent) :
    Shows (k.setProc pid entry) (b.setProc pid entry) := by
  refine { shows_ with proctab := ?_ }
  unfold Kernel.setProc Board.setProc
  rw [shows_.proctab]

theorem Shows.setState (shows_ : Shows k b) (pid : Int) (state : Prstate) :
    Shows (k.setState pid state) (b.setState pid state) := by
  have same := shows_.setProc pid { b.proctab pid with prstate := state }
  unfold Kernel.setState
  rw [shows_.proctab]
  exact same

theorem Shows.goOnAt (shows_ : Shows k b) (point : Point) :
    Shows (k.goOnAt point) (b.goOnAt point) := by
  have same := shows_.setProc b.currpid { b.proctab b.currpid with prstkptr := point }
  unfold Kernel.goOnAt
  rw [shows_.proctab, shows_.currpid]
  exact same

theorem Shows.answer (shows_ : Shows k b) (value : Int) : Shows (k.answer value) (b.answer value) := by
  have same := (shows_.goOnAt .user).note (.returned b.currpid value)
  unfold Kernel.answer
  rw [shows_.currpid]
  exact same

/-- A semaphore changes and keeps its queue. -/
theorem Shows.setSem (shows_ : Shows k b) (sem : Int) (entry : Sentry)
    (same : entry.squeue = (b.semtab sem).squeue) :
    Shows { k with semtab := Function.update b.semtab sem entry }
      { b with semtab := Function.update b.semtab sem entry } := by
  refine { shows_ with semtab := rfl, squeue := ?_ }
  intro other range
  dsimp only
  have queue : (b.semtab other).squeue = semQueue other := shows_.semtab ▸ shows_.squeue other range
  rcases eq_or_ne other sem with rfl | apart
  · rw [Function.update_self, same, queue]
  · rw [Function.update_of_ne apart, queue]

theorem Shows.setCount (shows_ : Shows k b) (sem : Int) (count : Int32) :
    Shows (k.setCount sem count) (b.setCount sem count) := by
  unfold Kernel.setCount
  rw [shows_.semtab]
  exact shows_.setSem sem { b.semtab sem with scount := count } rfl

/-- A queue and the keys change in the table. -/
theorem Shows.requeue (shows_ : Shows k b) (same : k.SameBut after) {queues : Int → List Int}
    {key : Int → Int32} (threads : after.Threads queues) (keys : after.keys = key) :
    Shows after { b with queues := queues, key := key } := by
  unfold Kernel.SameBut at same
  refine ⟨?_, ?_, ?_, ?_, ?_, threads, keys, ?_, ?_, ?_, ?_⟩
  all_goals rw [same]
  · exact shows_.proctab
  · exact shows_.semtab
  · exact shows_.currpid
  · exact shows_.prcount
  · exact shows_.log
  · exact shows_.readylist
  · exact shows_.sleepq
  · exact shows_.squeue
  · exact shows_.nextsem

theorem Shows.good (shows_ : Shows k b) (range : InRange pid)
    (used : (b.proctab pid).prstate ≠ .free) : k.isbadpid pid = false := by
  unfold Kernel.isbadpid
  rw [shows_.proctab]
  refine decide_eq_false ?_
  have low := range.1
  have high := range.2
  rintro (below | above | isFree)
  · omega
  · omega
  · exact used isFree

/-- What `isbadpid` refuses. -/
theorem Shows.range (shows_ : Shows k b) (good : ¬ k.isbadpid pid = true) :
    InRange pid ∧ (b.proctab pid).prstate ≠ .free := by
  unfold Kernel.isbadpid at good
  rw [shows_.proctab, decide_eq_true_iff, not_or, not_or, not_lt, not_le] at good
  exact ⟨⟨good.1, good.2.1⟩, good.2.2⟩

/-- Priorities are above the smallest key. -/
theorem prio_high (prio : Int16) : minkey.toInt < prio.toInt32.toInt := by
  have low := Int16.le_toInt prio
  rw [Int16.toInt_toInt32]
  have small : minkey.toInt = -2147483648 := by decide
  omega

/-- A process outside of all queues enters the ready list. -/
theorem Shows.becomeReady (shows_ : Shows k b) (placed : Placed proctab b.queues)
    (range : InRange pid) (outside : (proctab pid).place = none) :
    ∃ after, k.becomeReady pid = some after ∧ Shows after (b.becomeReady pid) ∧
      after.ndefers = k.ndefers ∧ after.attempt = k.attempt := by
  have changed := shows_.setState pid .ready
  have good : (k.setState pid .ready).isbadpid pid = false :=
    changed.good range (by simp [Board.setState, Board.setProc])
  obtain ⟨after, inserted, same, keys, threads⟩ := insert_spec changed.threads placed isQueue_ready
    range outside good (prio_high ((b.setState pid .ready).proctab pid).prprio)
  rw [changed.keys] at keys threads
  have requeued := (changed.requeue same threads keys).note (.readied pid)
  refine ⟨after.note (.readied pid), ?_, ?_, ?_, ?_⟩
  · unfold Kernel.becomeReady
    dsimp only
    rw [changed.proctab, changed.readylist, inserted]
    rfl
  · exact { requeued with }
  · rw [same]
    rfl
  · rw [same]
    rfl

/-- The first ready process is switched to. -/
theorem Shows.switch (shows_ : Shows k b) (placed : Placed b.proctab b.queues)
    (first : (b.queues readyQueue).head? = some pid) :
    ∃ after, k.switch = some after ∧ Shows after (b.dispatch pid) ∧
      after.ndefers = k.ndefers ∧ after.attempt = k.attempt := by
  have range : InRange pid :=
    ((placed.member _ isQueue_ready pid).mp (List.mem_of_mem_head? first)).1
  obtain ⟨after, taken, same, keys, threads⟩ :=
    dequeue_spec shows_.threads placed isQueue_ready first
  rw [shows_.keys] at keys
  have requeued := shows_.requeue same threads keys
  have moved : Shows { after with currpid := pid, preempt := quantum }
      { b.leave pid readyQueue with currpid := pid } := { requeued with currpid := rfl }
  refine ⟨_, ?_, { moved.setState pid .curr with }, ?_, ?_⟩
  · unfold Kernel.switch
    dsimp only
    rw [shows_.readylist, taken]
    dsimp only
    rw [if_neg (not_lt.mpr range.1)]
  · rw [same]
    rfl
  · rw [same]
    rfl

/-- The first key of the ready list. -/
theorem Shows.firstkey_nil (shows_ : Shows k b) (isEmpty : b.queues readyQueue = []) :
    k.firstkey k.readylist = minkey := by
  have here : k.firstid k.readylist = readyQueue + 1 := by
    rw [shows_.readylist, shows_.threads.firstid isQueue_ready, isEmpty]
    rfl
  unfold Kernel.firstkey
  rw [here]
  exact shows_.threads.tails readyQueue isQueue_ready

theorem Shows.firstkey (shows_ : Shows k b) {q : Int} (isQueue : IsQueue q)
    (first : (b.queues q).head? = some pid) : k.firstid q = pid ∧ k.firstkey q = b.key pid := by
  have here : k.firstid q = pid := by
    rw [shows_.threads.firstid isQueue, List.headD_eq_head?_getD, first]
    rfl
  refine ⟨here, ?_⟩
  unfold Kernel.firstkey
  rw [here, ← shows_.keys]
  rfl

/-- A process that is at least as urgent stays in front of a new one. -/
theorem head_insertByKey {keys : Int → Int32} {key : Int32} {queue : List Int} (other : Int)
    (first : queue.head? = some pid) (urgent : key.toInt ≤ (keys pid).toInt) :
    (insertByKey keys other key queue).head? = some pid := by
  obtain ⟨rest, rfl⟩ := List.head?_eq_some_iff.mp first
  unfold insertByKey
  rw [List.takeWhile_cons_of_pos (by simpa using urgent)]
  rfl

end Shows

/-- What `resched` leaves: the marks for the clock and for a semaphore are not its own. -/
def Settled (b : Board) (k : Kernel) (after : Board) : Prop :=
  k.ndefers = 0 ∧ after.due = false ∧ after.ticking = b.ticking ∧ after.clearing = b.clearing

section Resched

variable {move : Move} {first b : Board} {k : Kernel} {pid : Int}

/-- `resched` keeps the current process or switches to the first ready one. -/
theorem resched_reach (shows_ : Shows k b) (agree : Agree b) (open_ : k.ndefers = 0) :
    Reach move first b (Settled b) (resched k) := by
  unfold resched
  rw [if_neg (by omega), shows_.proctab, shows_.currpid]
  dsimp only
  by_cases runs : (b.proctab b.currpid).prstate = .curr
  · rw [if_pos runs]
    cases head : (b.queues readyQueue).head? with
    | none =>
      have isEmpty : b.queues readyQueue = [] := List.head?_eq_none_iff.mp head
      have urgent := prio_high (b.proctab b.currpid).prprio
      rw [Int16.toInt_toInt32] at urgent
      rw [shows_.firstkey_nil isEmpty, if_pos urgent]
      refine Reach.act .keep ⟨runs, by simp [head]⟩ trivial ?_
      exact Reach.done { shows_ with } ⟨open_, rfl, rfl, rfl⟩
    | some pid =>
      have key : k.firstkey k.readylist = b.key pid := by
        rw [shows_.readylist]
        exact (shows_.firstkey isQueue_ready head).2
      rw [key]
      by_cases urgent : (b.key pid).toInt < (b.proctab b.currpid).prprio.toInt
      · rw [if_pos urgent]
        refine Reach.act .keep ⟨runs, by simpa [head] using urgent⟩ trivial ?_
        exact Reach.done { shows_ with } ⟨open_, rfl, rfl, rfl⟩
      · rw [if_neg urgent]
        have outside : (b.proctab b.currpid).place = none := by simp [Procent.place, runs]
        obtain ⟨middle, stepped, shown, defers, _⟩ :=
          shows_.becomeReady agree.placed agree.current outside
        have stillFirst : ((b.becomeReady b.currpid).queues readyQueue).head? = some pid := by
          have weak : (b.proctab b.currpid).prprio.toInt32.toInt ≤ (b.key pid).toInt := by
            rw [Int16.toInt_toInt32]
            omega
          have inserted := head_insertByKey b.currpid head weak
          simpa [Board.becomeReady, Board.setState, Board.setProc, Board.setQueue, Board.setKey,
            Board.note] using inserted
        obtain ⟨last, switched, reached, defersLast, _⟩ :=
          shown.switch (agree.becomeReady agree.current outside).placed stillFirst
        rw [stepped]
        dsimp only [Option.bind_eq_bind, Option.bind_some]
        rw [switched]
        refine Reach.act (.preempt pid) ⟨runs, head, by omega⟩ trivial ?_
        exact Reach.done reached ⟨by rw [defersLast, defers, open_], rfl, rfl, rfl⟩
  · rw [if_neg runs]
    cases head : (b.queues readyQueue).head? with
    | none =>
      have isEmpty : b.queues readyQueue = [] := List.head?_eq_none_iff.mp head
      have taken := dequeue_empty shows_.threads agree.placed isQueue_ready isEmpty
      unfold Kernel.switch
      rw [shows_.readylist, taken]
      exact ⟨b, Relation.ReflTransGen.refl, runs, isEmpty⟩
    | some pid =>
      obtain ⟨last, switched, reached, defers, _⟩ := shows_.switch agree.placed head
      rw [switched]
      refine Reach.act (.dispatch pid) ⟨runs, head⟩ trivial ?_
      exact Reach.done reached ⟨by rw [defers, open_], rfl, rfl, rfl⟩

/-- While rescheduling is deferred, a reschedule that is due has been attempted. -/
def Deferred (k : Kernel) (b : Board) : Prop :=
  k.ndefers = 1 ∧ (b.due = true → k.attempt = true)

theorem resched_deferred (deferring : k.ndefers = 1) :
    resched k = some { k with attempt := true } := by
  unfold resched
  rw [if_pos (by omega)]

theorem deferStart_deferred (open_ : k.ndefers = 0) (settled : b.due = false) :
    Deferred (deferStart k) b := by
  refine ⟨?_, fun due => ?_⟩
  · simp [deferStart, open_]
  · rw [settled] at due
    cases due

theorem Shows.deferStart (shows_ : Shows k b) : Shows (deferStart k) b := { shows_ with }

/-- The end of a deferral makes up for what was attempted. -/
theorem deferStop_reach (shows_ : Shows k b) (agree : Agree b) (deferred : Deferred k b) :
    Reach move first b (Settled b) (deferStop k) := by
  obtain ⟨once, attempted⟩ := deferred
  unfold deferStop
  rw [if_neg (by omega)]
  dsimp only
  have lowered : Shows { k with ndefers := k.ndefers - 1 } b := { shows_ with }
  by_cases tried : k.attempt = true
  · rw [if_pos ⟨by omega, tried⟩]
    exact resched_reach lowered agree (by simp [once])
  · rw [if_neg (fun both => tried both.2)]
    have settled : b.due = false := Bool.eq_false_iff.mpr fun due => tried (attempted due)
    exact Reach.done lowered ⟨by simp [once], settled, rfl, rfl⟩

/-- `ready` puts a process outside of all queues on the ready list and calls `resched`. -/
theorem Shows.readied (shows_ : Shows k b) {proctab : Int → Procent}
    (placed : Placed proctab b.queues) (range : InRange pid)
    (outside : (proctab pid).place = none) (used : (b.proctab pid).prstate ≠ .free) :
    ∃ middle, ready k pid = resched middle ∧ Shows middle (b.becomeReady pid) ∧
      middle.ndefers = k.ndefers ∧ middle.attempt = k.attempt := by
  obtain ⟨middle, stepped, shown, defers, attempts⟩ := shows_.becomeReady placed range outside
  refine ⟨middle, ?_, shown, defers, attempts⟩
  unfold ready
  rw [if_neg (by simp [shows_.good range used]), stepped]
  rfl

end Resched

end Xinu.Processes
