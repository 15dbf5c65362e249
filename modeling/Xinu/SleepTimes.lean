import Xinu.ProcessAgreement

/-!
# Sleepers wake on time

The log tells for how many ticks a process went to sleep and how many there were since then.
The sleep queue is a list of differences for the ticks that are left, so a sleeper is woken
by the tick after which none is left.

A delay of `2 ^ 31` or more is a negative key, and a delay of zero is a key that a tick
lowers below zero and takes from nobody else. The law holds in the runs without such delays,
with the handlers of both platforms.
-/

namespace Xinu.Processes

open Runs DeltaList CIntegers

/-- The delay of a process that sleeps and the ticks since its call. -/
def asleep (pid : Int) : List Entry → Option (Int32 × Nat)
  | [] => none
  | .slept other delay :: log => if other = pid then some (delay, 0) else asleep pid log
  | .woken other :: log | .roused other :: log => if other = pid then none else asleep pid log
  | .ticked :: log => (asleep pid log).map fun sleep => (sleep.1, sleep.2 + 1)
  | _ :: log => asleep pid log

/-- Every process that the clock made ready had slept for exactly its delay. -/
def OnTime : List Entry → Prop
  | [] => True
  | entry :: log => OnTime log ∧ ∀ pid, entry = .woken pid →
    ∃ delay ticks, asleep pid log = some (delay, ticks) ∧ (ticks : Int) = delay.toInt

/-- The ticks that a sleeper has left. -/
def ticksLeft (log : List Entry) (pid : Int) : Option Int :=
  (asleep pid log).map fun sleep => sleep.1.toInt - sleep.2

/-- An entry that neither moves the time nor ends or begins a sleep. -/
def Entry.Timeless : Entry → Prop
  | .slept _ _ | .woken _ | .roused _ | .ticked => False
  | _ => True

/-- The law of the sleep queue. Between the ticks everybody has something left. -/
structure SleepLaw (b : Board) : Prop where
  deltas : Deltas b.key (ticksLeft b.log) 0 (b.queues sleepQueue)
  awake : ∀ pid, pid ∉ b.queues sleepQueue → asleep pid b.log = none
  positive : b.ticking = false → ∀ pid ∈ b.queues sleepQueue, ∀ time,
    ticksLeft b.log pid = some time → 1 ≤ time
  onTime : OnTime b.log

section Log

variable {pid : Int} {log entries : List Entry} {entry : Entry}

theorem asleep_timeless (timeless : entry.Timeless) : asleep pid (entry :: log) = asleep pid log := by
  cases entry <;> first | rfl | exact absurd timeless id

theorem asleep_append (timeless : ∀ entry ∈ entries, entry.Timeless) :
    asleep pid (entries ++ log) = asleep pid log := by
  induction entries with
  | nil => rfl
  | cons entry entries inductionHypothesis =>
    rw [List.cons_append, asleep_timeless (timeless entry List.mem_cons_self)]
    exact inductionHypothesis fun other member => timeless other (List.mem_cons_of_mem _ member)

theorem onTime_append (timeless : ∀ entry ∈ entries, entry.Timeless) (onTime : OnTime log) :
    OnTime (entries ++ log) := by
  induction entries with
  | nil => exact onTime
  | cons entry entries inductionHypothesis =>
    refine ⟨inductionHypothesis fun other member => timeless other (List.mem_cons_of_mem _ member), ?_⟩
    rintro pid rfl
    exact absurd (timeless _ List.mem_cons_self) id

/-- What is left fits a word. -/
theorem ticksLeft_bound {time : Int} (left : ticksLeft log pid = some time) : time < 2 ^ 31 := by
  obtain ⟨sleep, _, rfl⟩ := Option.map_eq_some_iff.mp left
  have range := toInt_range sleep.1
  omega

end Log

section Steps

variable {b after : Board} {pid : Int} {entry : Procent}

/-- Neither the sleep queue nor the time changes. -/
theorem SleepLaw.frame (law : SleepLaw b) (entries : List Entry)
    (queue : after.queues sleepQueue = b.queues sleepQueue)
    (keys : ∀ pid ∈ b.queues sleepQueue, after.key pid = b.key pid)
    (log : after.log = entries ++ b.log) (timeless : ∀ entry ∈ entries, entry.Timeless)
    (ticking : after.ticking = b.ticking) : SleepLaw after := by
  have same : ∀ pid, asleep pid after.log = asleep pid b.log := fun pid => by
    rw [log]
    exact asleep_append timeless
  have left : ∀ pid, ticksLeft after.log pid = ticksLeft b.log pid := fun pid => by
    unfold ticksLeft
    rw [same]
  refine ⟨?_, ?_, ?_, ?_⟩
  · rw [queue]
    exact law.deltas.congr keys fun pid _ => left pid
  · intro pid away
    rw [queue] at away
    rw [same]
    exact law.awake pid away
  · intro settled pid member time reads
    rw [queue] at member
    rw [left] at reads
    exact law.positive (ticking.symm.trans settled) pid member time reads
  · rw [log]
    exact onTime_append timeless law.onTime

/-- Nothing about the queues changes. -/
theorem SleepLaw.quiet (law : SleepLaw b) (entries : List Entry) (queues : after.queues = b.queues)
    (keys : after.key = b.key) (log : after.log = entries ++ b.log)
    (timeless : ∀ entry ∈ entries, entry.Timeless) (ticking : after.ticking = b.ticking) :
    SleepLaw after :=
  law.frame entries (congrFun queues _) (fun _ _ => congrFun keys _) log timeless ticking

theorem SleepLaw.note (law : SleepLaw b) (entry : Entry) (timeless : entry.Timeless) :
    SleepLaw (b.note entry) :=
  law.quiet [entry] rfl rfl rfl (by simpa using timeless) rfl

theorem SleepLaw.setProc (law : SleepLaw b) (pid : Int) (entry : Procent) :
    SleepLaw (b.setProc pid entry) :=
  law.quiet [] rfl rfl rfl (by simp) rfl

theorem SleepLaw.setCount (law : SleepLaw b) (sem : Int) (count : Int32) :
    SleepLaw (b.setCount sem count) :=
  law.quiet [] rfl rfl rfl (by simp) rfl

theorem SleepLaw.goOnAt (law : SleepLaw b) (point : Point) : SleepLaw (b.goOnAt point) :=
  law.setProc _ _

theorem SleepLaw.answer (law : SleepLaw b) (value : Int) : SleepLaw (b.answer value) :=
  (law.goOnAt .user).note _ trivial

theorem SleepLaw.leave (law : SleepLaw b) (pid : Int) {q : Int} (apart : sleepQueue ≠ q) :
    SleepLaw (b.leave pid q) := by
  refine law.frame [] ?_ (fun _ _ => rfl) rfl (by simp) rfl
  simp [Board.leave, Board.setQueue, apart]

/-- A process that is awake enters the ready list. -/
theorem SleepLaw.becomeReady (law : SleepLaw b) (awake : pid ∉ b.queues sleepQueue) :
    SleepLaw (b.becomeReady pid) := by
  refine law.frame [.readied pid] ?_ (fun other member => ?_) rfl (by simp [Entry.Timeless]) rfl
  · simp [Board.becomeReady, Board.setState, Board.setProc, Board.setQueue, Board.setKey, Board.note,
      sleep_ne_ready]
  · have apart : other ≠ pid := by
      rintro rfl
      exact awake member
    simp [Board.becomeReady, Board.setState, Board.setProc, Board.setQueue, Board.setKey, Board.note,
      apart]

theorem SleepLaw.dispatch (law : SleepLaw b) (pid : Int) : SleepLaw (b.dispatch pid) := by
  have left : SleepLaw ((b.leave pid readyQueue).setState pid .curr) :=
    (law.leave pid sleep_ne_ready).setProc _ _
  exact left.quiet [] rfl rfl rfl (by simp) rfl

theorem Agree.awake (agree : Agree b) {q : Int} (inside : (b.proctab pid).place = some q)
    (apart : q ≠ sleepQueue) : pid ∉ b.queues sleepQueue := by
  refine agree.placed.absent isQueue_sleep ?_
  rw [inside]
  simpa using apart

theorem Agree.outsideAwake (agree : Agree b) (outside : (b.proctab pid).place = none) :
    pid ∉ b.queues sleepQueue := by
  refine agree.placed.absent isQueue_sleep ?_
  rw [outside]
  simp

theorem Agree.currentAwake (agree : Agree b) (runs : (b.proctab b.currpid).prstate = .curr) :
    b.currpid ∉ b.queues sleepQueue :=
  agree.outsideAwake (by simp [Procent.place, runs])

/-- A sleeper leaves before its time. -/
theorem SleepLaw.rouse (law : SleepLaw b) (agree : Agree b) (member : pid ∈ b.queues sleepQueue) :
    SleepLaw ((b.rouse pid).note (.roused pid)) := by
  obtain ⟨front, back, fresh, split, erased⟩ := List.exists_erase_eq member
  have distinct := agree.placed.distinct sleepQueue isQueue_sleep
  have behind : ((b.queues sleepQueue).dropWhile (fun other => other ≠ pid)).tail = back := by
    rw [split, dropWhile_behind fresh]
  have queue : ((b.rouse pid).note (.roused pid)).queues sleepQueue = front ++ back := by
    rw [← erased]
    simp [Board.rouse, Board.leave, Board.setQueue, Board.note]
  have key : ((b.rouse pid).note (.roused pid)).key =
      adjustFirst b.key (fun key => key + b.key pid) back := by
    rw [← behind]
    rfl
  have log : ((b.rouse pid).note (.roused pid)).log = .roused pid :: b.log := rfl
  have notMember : pid ∉ front ++ back := by
    rw [← erased]
    exact distinct.not_mem_erase
  have others : ∀ other, other ≠ pid → asleep other (.roused pid :: b.log) = asleep other b.log :=
    fun other apart => if_neg (Ne.symm apart)
  have left : ∀ other ∈ front ++ back,
      ticksLeft (.roused pid :: b.log) other = ticksLeft b.log other := by
    intro other inside
    unfold ticksLeft
    rw [others other]
    rintro rfl
    exact notMember inside
  have subset : ∀ other ∈ front ++ back, other ∈ b.queues sleepQueue := by
    rw [← erased]
    exact fun other inside => List.mem_of_mem_erase inside
  refine ⟨?_, ?_, ?_, ?_⟩
  · rw [queue, key, log]
    have deltas := law.deltas
    rw [split] at deltas distinct
    refine (deltas.remove distinct (fun _ _ => ticksLeft_bound) (le_refl 0)).congr (fun _ _ => rfl) left
  · intro other away
    rw [queue] at away
    rw [log]
    rcases eq_or_ne other pid with rfl | apart
    · exact if_pos rfl
    · rw [others other apart]
      refine law.awake other fun inside => away ?_
      rw [← erased]
      exact (List.mem_erase_of_ne apart).mpr inside
  · intro settled other inside time reads
    rw [queue] at inside
    rw [log, left other inside] at reads
    exact law.positive settled other (subset other inside) time reads
  · rw [log]
    exact ⟨law.onTime, by simp⟩

/-- The first sleeper is woken. -/
theorem SleepLaw.wake (law : SleepLaw b) (agree : Agree b) (lawful : b.Lawful (.wake pid)) :
    SleepLaw (b.next (.wake pid)) := by
  obtain ⟨ticking, first, come⟩ := lawful
  obtain ⟨rest, queue⟩ := List.head?_eq_some_iff.mp first
  have distinct := agree.placed.distinct sleepQueue isQueue_sleep
  have deltas := law.deltas
  rw [queue] at deltas distinct
  obtain ⟨none_, later⟩ := deltas.first come
  have fresh := (List.nodup_cons.mp distinct).1
  have others : ∀ other, other ≠ pid → asleep other (.woken pid :: b.log) = asleep other b.log :=
    fun other apart => if_neg (Ne.symm apart)
  have left : ∀ other ∈ rest, ticksLeft (.woken pid :: b.log) other = ticksLeft b.log other := by
    intro other inside
    unfold ticksLeft
    rw [others other]
    rintro rfl
    exact fresh inside
  have woken : SleepLaw ((b.leave pid sleepQueue).note (.woken pid)) := by
    have now : ((b.leave pid sleepQueue).note (.woken pid)).queues sleepQueue = rest := by
      simp [Board.leave, Board.setQueue, Board.note, queue]
    refine ⟨?_, ?_, ?_, ?_⟩
    · rw [now]
      exact later.congr (fun _ _ => rfl) left
    · intro other away
      rw [now] at away
      rcases eq_or_ne other pid with rfl | apart
      · exact if_pos rfl
      · refine (others other apart).trans (law.awake other ?_)
        rw [queue]
        simp [apart, away]
    · intro settled
      have still : b.ticking = false := settled
      rw [ticking] at still
      cases still
    · refine ⟨law.onTime, ?_⟩
      rintro other same
      obtain rfl : pid = other := by simpa using same
      obtain ⟨sleep, reads, zero⟩ := Option.map_eq_some_iff.mp none_
      exact ⟨sleep.1, sleep.2, reads, by lia⟩
  refine woken.becomeReady ?_
  have now : ((b.leave pid sleepQueue).note (.woken pid)).queues sleepQueue = rest := by
    simp [Board.leave, Board.setQueue, Board.note, queue]
  rw [now]
  exact fresh

/-- A tick takes one from everybody. -/
theorem SleepLaw.tick (law : SleepLaw b) (agree : Agree b) (lawful : b.Lawful .tick) :
    SleepLaw (b.next .tick) := by
  have distinct := agree.placed.distinct sleepQueue isQueue_sleep
  have moved : ∀ pid, ticksLeft (.ticked :: b.log) pid = (ticksLeft b.log pid).map (· - 1) := by
    intro pid
    unfold ticksLeft
    cases sleep : asleep pid b.log with
    | none => simp [asleep, sleep]
    | some value =>
      simp only [asleep, sleep, Option.map_some]
      congr 1
      push_cast
      lia
  refine ⟨?_, ?_, fun settled => absurd settled (by simp [Board.next]), ?_⟩
  · refine law.deltas.tick distinct ?_ fun pid _ => moved pid
    intro pid first
    obtain ⟨rest, queue⟩ := List.head?_eq_some_iff.mp first
    have deltas := law.deltas
    rw [queue] at deltas
    have here := law.positive lawful.2 pid (by rw [queue]; simp) _ deltas.2.1
    omega
  · intro pid away
    have none_ := law.awake pid away
    change asleep pid (.ticked :: b.log) = none
    simp [asleep, none_]
  · exact ⟨law.onTime, by simp⟩

/-- When nobody is left to wake, everybody has something left. -/
theorem SleepLaw.tickEnd (law : SleepLaw b) (lawful : b.Lawful .tickEnd) :
    SleepLaw (b.next .tickEnd) := by
  refine ⟨law.deltas, law.awake, fun _ pid member time reads => ?_, law.onTime⟩
  have inside : pid ∈ b.queues sleepQueue := member
  cases queue : b.queues sleepQueue with
  | nil =>
    rw [queue] at inside
    cases inside
  | cons first rest =>
    have deltas := law.deltas
    rw [queue] at deltas inside
    have apart := lawful.2 first (by rw [queue]; rfl)
    obtain ⟨nonneg, here, later⟩ := deltas
    have readsNow : ticksLeft b.log pid = some time := reads
    rcases List.mem_cons.mp inside with rfl | behind
    · rw [here] at readsNow
      have same := Option.some.inj readsNow
      lia
    · obtain ⟨other, otherReads, above⟩ := later.atLeast behind
      rw [otherReads] at readsNow
      have same := Option.some.inj readsNow
      lia

/-- The current process goes to sleep for at least one tick. -/
theorem SleepLaw.sleep (law : SleepLaw b) (agree : Agree b) {delay : Int32} {state : Prstate}
    (lawful : b.Lawful (.sleep delay state)) (enough : 1 ≤ delay.toInt) :
    SleepLaw (b.next (.sleep delay state)) := by
  have distinct := agree.placed.distinct sleepQueue isQueue_sleep
  have fresh : b.currpid ∉ b.queues sleepQueue :=
    agree.outsideAwake (agree.currentOutside lawful.1)
  have whole := deltaSplit_queue b.key (b.queues sleepQueue) delay
  have others : ∀ other, other ≠ b.currpid →
      asleep other (.slept b.currpid delay :: b.log) = asleep other b.log :=
    fun other apart => if_neg (Ne.symm apart)
  have mine : asleep b.currpid (.slept b.currpid delay :: b.log) = some (delay, 0) := if_pos rfl
  have leftMine : ticksLeft (.slept b.currpid delay :: b.log) b.currpid = some (0 + delay.toInt) := by
    unfold ticksLeft
    rw [mine]
    simp
  have left : ∀ other ∈ b.queues sleepQueue,
      ticksLeft (.slept b.currpid delay :: b.log) other = ticksLeft b.log other := by
    intro other inside
    unfold ticksLeft
    rw [others other]
    rintro rfl
    exact fresh inside
  have queue : (b.next (.sleep delay state)).queues sleepQueue =
      (deltaSplit b.key delay (b.queues sleepQueue)).1 ++
        b.currpid :: (deltaSplit b.key delay (b.queues sleepQueue)).2.2 := by
    simp [Board.next, Board.note, Board.setProc, Board.setQueue, Board.setKey, Board.fallAsleep,
      Board.goOnAt, Board.setState]
  have member : ∀ other, other ∈ (b.next (.sleep delay state)).queues sleepQueue ↔
      other = b.currpid ∨ other ∈ b.queues sleepQueue := by
    intro other
    have inside : other ∈ b.queues sleepQueue ↔
        other ∈ (deltaSplit b.key delay (b.queues sleepQueue)).1 ∨
          other ∈ (deltaSplit b.key delay (b.queues sleepQueue)).2.2 := by
      rw [← List.mem_append, whole]
    rw [queue, List.mem_append, List.mem_cons, inside]
    tauto
  refine ⟨?_, ?_, ?_, ?_⟩
  · rw [queue]
    exact law.deltas.insert delay (by omega) fresh distinct left leftMine
  · intro other away
    rw [member, not_or] at away
    exact (others other away.1).trans (law.awake other away.2)
  · intro settled other inside time reads
    rcases (member other).mp inside with rfl | old
    · have same := Option.some.inj (leftMine.symm.trans reads)
      omega
    · exact law.positive settled other old time ((left other old).symm.trans reads)
  · exact ⟨law.onTime, by simp⟩

/-- A process that is killed leaves its queue. -/
theorem SleepLaw.quit (law : SleepLaw b) (agree : Agree b) (range : InRange pid) :
    SleepLaw (b.quit pid) := by
  unfold Board.quit
  split
  case h_1 => exact law.quiet [] rfl rfl rfl (by simp) rfl
  case h_2 state | h_3 state =>
    refine law.rouse agree ((agree.placed.member _ isQueue_sleep pid).mpr ⟨range, ?_⟩)
    simp [Procent.place, state]
  case h_4 waits =>
    have apart := semQueue_ne_sleep (agree.placed.waits pid range waits)
    exact ((law.setCount _ _).note (.withdrawn pid (b.proctab pid).prsem) trivial).leave pid
      (Ne.symm apart)
  case h_5 => exact law.leave pid sleep_ne_ready
  case h_6 | h_7 | h_8 => exact law

/-- A receiver is alerted. -/
theorem SleepLaw.alert (law : SleepLaw b) (agree : Agree b) (range : InRange pid) :
    SleepLaw (b.alert pid) := by
  unfold Board.alert
  split
  case h_1 state =>
    exact law.becomeReady (agree.outsideAwake (by simp [Procent.place, state]))
  case h_2 state =>
    have inside : (b.proctab pid).place = some sleepQueue := by simp [Procent.place, state]
    have member := (agree.placed.member _ isQueue_sleep pid).mpr ⟨range, inside⟩
    refine (law.rouse agree member).becomeReady ?_
    have queue : ((b.rouse pid).note (.roused pid)).queues sleepQueue =
        (b.queues sleepQueue).erase pid := by
      simp [Board.rouse, Board.leave, Board.setQueue, Board.note]
    rw [queue]
    exact (agree.placed.distinct _ isQueue_sleep).not_mem_erase
  all_goals exact law

/-- A process that waited for a semaphore becomes ready. -/
theorem SleepLaw.moveReady (law : SleepLaw after) (agree : Agree b) {sem : Int}
    (range : SemRange sem) (first : (b.queues (semQueue sem)).head? = some pid)
    (queue : after.queues sleepQueue = b.queues sleepQueue) : SleepLaw (after.becomeReady pid) := by
  refine law.becomeReady ?_
  rw [queue]
  exact agree.awake (agree.first (isQueue_sem range) first).2 (semQueue_ne_sleep range)

/-- Every lawful action keeps the law, as long as nobody sleeps for less than one tick. -/
theorem SleepLaw.next (law : SleepLaw b) (agree : Agree b) {action : Action}
    (lawful : b.Lawful action)
    (enough : ∀ delay state, action = .sleep delay state → 1 ≤ delay.toInt) :
    SleepLaw (b.next action) := by
  cases action with
  | goOnAt point => exact law.goOnAt point
  | answer value => exact law.answer value
  | keep | semReset sem => exact law.quiet [] rfl rfl rfl (by simp) rfl
  | raise sem | semGone sem => exact law.quiet [] rfl rfl rfl (by simp) rfl
  | leak base len => exact law.note _ trivial
  | timed => exact law.note _ trivial
  | timeOut => exact (law.note (.timedOut b.currpid) trivial).answer _
  | pass sem => exact (law.setCount _ _).note _ trivial
  | signal sem => exact (law.setCount _ _).note _ trivial
  | semMake sem count => exact law.quiet [.semSet sem count] rfl rfl rfl (by simp [Entry.Timeless]) rfl
  | semSet sem count => exact law.quiet [.semSet sem count] rfl rfl rfl (by simp [Entry.Timeless]) rfl
  | semDelete sem => exact law.quiet [.semGone sem] rfl rfl rfl (by simp [Entry.Timeless]) rfl
  | preempt pid =>
    have awake := agree.currentAwake lawful.1
    exact (law.becomeReady awake).dispatch pid
  | dispatch pid => exact law.dispatch pid
  | create pid priority base len =>
    exact law.quiet [.created pid base len] rfl rfl rfl (by simp [Entry.Timeless]) rfl
  | resume pid => exact law.becomeReady (agree.outsideAwake (by simp [Procent.place, lawful.2.2]))
  | suspend pid =>
    unfold Board.next
    dsimp only
    split
    · exact (law.leave pid sleep_ne_ready).setProc _ _
    · exact law.quiet [] rfl rfl rfl (by simp) rfl
  | block sem =>
    have apart := semQueue_ne_sleep lawful.2.1
    refine law.frame [.blocked b.currpid sem] ?_ (fun _ _ => rfl) rfl (by simp [Entry.Timeless]) rfl
    simp [Board.next, Board.setQueue, Board.setProc, Board.note, Board.setCount, Ne.symm apart]
  | release sem pid =>
    have apart := Ne.symm (semQueue_ne_sleep lawful.1)
    have left := (((law.setCount sem ((b.semtab sem).scount + 1)).note (.signalled sem)
      trivial).leave pid apart).note (.released pid sem) trivial
    refine left.moveReady agree lawful.1 lawful.2.2.2.2 ?_
    simp [Board.leave, Board.setQueue, Board.note, Board.setCount, apart]
  | discharge sem pid =>
    have apart := Ne.symm (semQueue_ne_sleep lawful.1)
    have left := (law.leave pid apart).note (.discharged pid sem) trivial
    refine left.moveReady agree lawful.1 lawful.2.2.2 ?_
    simp [Board.leave, Board.setQueue, Board.note, apart]
  | dischargeOne sem pid =>
    have apart := Ne.symm (semQueue_ne_sleep lawful.1)
    have left := ((law.setCount sem ((b.semtab sem).scount + 1)).leave pid apart).note
      (.discharged pid sem) trivial
    refine left.moveReady agree lawful.1 lawful.2.2.2.2 ?_
    simp [Board.leave, Board.setQueue, Board.note, Board.setCount, apart]
  | receive => exact law.quiet [] rfl rfl rfl (by simp) rfl
  | sleep delay state => exact law.sleep agree lawful (enough delay state rfl)
  | deliver pid msg =>
    have relabelled : Agree (b.setProc pid { b.proctab pid with prmsg := msg, prhasmsg := true }) :=
      agree.relabel rfl rfl
    exact ((law.setProc _ _).note (.sent pid msg) trivial).alert (relabelled.note _) lawful.2.1
  | take =>
    exact ((law.setProc _ _).note (.took b.currpid (b.proctab b.currpid).prmsg) trivial).answer _
  | tick => exact law.tick agree lawful
  | wake pid => exact law.wake agree lawful
  | tickEnd => exact law.tickEnd lawful
  | chprio pid priority => exact law.setProc _ _
  | killBegin pid =>
    exact (law.goOnAt (.killSent pid)).quiet [.killBegun pid] rfl rfl rfl (by simp [Entry.Timeless]) rfl
  | finish pid =>
    have noted := law.note (.stackFreed pid (b.proctab pid).prstkbase (b.proctab pid).prstklen)
      trivial
    have quits := noted.quit (agree.note _) lawful.2.2.1
    have freed : SleepLaw (b.freeSlot pid) := (quits.setProc _ _).note _ trivial
    unfold Board.next
    dsimp only
    split
    · exact freed.goOnAt _
    · exact freed.answer _

end Steps

/-- Nobody goes to sleep for no tick or for `2 ^ 31` ticks or more. -/
def Kernel.misdelays (k : Kernel) : Move → Bool
  | .call (.sleepms delay) => decide (2 ^ 31 ≤ delay.toNat)
  | .call (.recvtime maxwait) => decide (maxwait = 0) && !(k.proctab k.currpid).prhasmsg
  | _ => false

def DelaysFit (k : Kernel) (move : Move) : Prop := k.misdelays move = false

instance (k : Kernel) (move : Move) : Decidable (DelaysFit k move) :=
  inferInstanceAs (Decidable (k.misdelays move = false))

theorem delaysFit_sleep {k : Kernel} {first b : Board} {move : Move} {delay : Int32}
    {state : Prstate} (shows_ : Shows k first) (fits : DelaysFit k move)
    (origin : Origin move first b (.sleep delay state)) : 1 ≤ delay.toInt := by
  obtain ⟨_, ⟨ticks, rfl, positive, rfl⟩ | ⟨_, rfl, nonneg, vacant⟩⟩ := origin
  · have small : ¬ 2 ^ 31 ≤ ticks.toNat := of_decide_eq_false fits
    have some_ : ticks.toNat ≠ 0 := fun zero => positive (UInt32.toNat_inj.mp zero)
    rw [toInt_toInt32 ticks (by omega)]
    lia
  · have apart : delay.toInt ≠ 0 := by
      intro zero
      have same : delay = 0 := Int32.toInt_inj.mp zero
      unfold DelaysFit Kernel.misdelays at fits
      dsimp only at fits
      rw [shows_.proctab, shows_.currpid, vacant, decide_eq_true same] at fits
      cases fits
    lia

end Xinu.Processes
