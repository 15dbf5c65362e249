import Xinu.KernelRuns

/-!
# The process table and the queues agree

Between any two steps the lists of the queue table are well linked and hold exactly the
processes whose state names them. `resched` finds a process in the ready list as long as
the null process makes no call that blocks it; the code relies on this and does not check
it.
-/

namespace Xinu.Processes

open Runs DoublyLinked

/-- The lists of the queue table. -/
def Kernel.IsList (k : Kernel) (q : Int) : Prop :=
  q = k.readylist ∨ q = k.sleepq ∨ ∃ sem, SemRange sem ∧ q = (k.semtab sem).squeue

/-- The states of processes that are on no list. -/
def Prstate.Unlisted : Prstate → Prop
  | .free | .curr | .recv | .susp => True
  | .ready | .sleep | .wait | .rectim => False

/-- The process table agrees with lists that the queue table links. -/
structure Consistent (k : Kernel) (queues : Int → List Int) : Prop where
  current : InRange k.currpid
  single : ∀ pid, InRange pid → ((k.proctab pid).prstate = .curr ↔ pid = k.currpid)
  linked : ∀ q, k.IsList q → Linked k.nexts k.prevs (queuehead q :: queues q ++ [queuetail q])
  distinct : ∀ q, k.IsList q → (queues q).Nodup
  range : ∀ q, k.IsList q → ∀ pid ∈ queues q, InRange pid
  ready : ∀ pid, InRange pid → (pid ∈ queues k.readylist ↔ (k.proctab pid).prstate = .ready)
  waits : ∀ sem, SemRange sem → ∀ pid, InRange pid →
    (pid ∈ queues (k.semtab sem).squeue ↔
      (k.proctab pid).prstate = .wait ∧ (k.proctab pid).prsem = sem)
  semaphore : ∀ pid, InRange pid → (k.proctab pid).prstate = .wait → SemRange (k.proctab pid).prsem
  sleeps : ∀ pid, InRange pid → (pid ∈ queues k.sleepq ↔
    (k.proctab pid).prstate = .sleep ∨ (k.proctab pid).prstate = .rectim)
  unlisted : ∀ pid, InRange pid → (k.proctab pid).prstate.Unlisted → ∀ q, k.IsList q → pid ∉ queues q

section Place

variable {entry : Procent} {sem : Int}

theorem place_ready : entry.place = some readyQueue ↔
    entry.prstate = .ready ∨ entry.prstate = .wait ∧ semQueue entry.prsem = readyQueue := by
  cases state : entry.prstate <;> simp [Procent.place, state, sleep_ne_ready]

theorem place_sleep : entry.place = some sleepQueue ↔
    (entry.prstate = .sleep ∨ entry.prstate = .rectim) ∨
      entry.prstate = .wait ∧ semQueue entry.prsem = sleepQueue := by
  cases state : entry.prstate <;> simp [Procent.place, state, Ne.symm sleep_ne_ready]

theorem place_sem (range : SemRange sem) : entry.place = some (semQueue sem) ↔
    entry.prstate = .wait ∧ entry.prsem = sem := by
  have notReady : readyQueue ≠ semQueue sem := Ne.symm (semQueue_ne_ready range)
  have notSleep : sleepQueue ≠ semQueue sem := Ne.symm (semQueue_ne_sleep range)
  have same : semQueue entry.prsem = semQueue sem ↔ entry.prsem = sem :=
    ⟨semQueue_injective, fun same => congrArg semQueue same⟩
  cases state : entry.prstate <;> simp [Procent.place, state, notReady, notSleep, same]

theorem place_unlisted (unlisted : entry.prstate.Unlisted) : entry.place = none := by
  unfold Prstate.Unlisted at unlisted
  cases state : entry.prstate <;> simp [Procent.place, state] at unlisted ⊢

end Place

/-- The processes of the ready list are ready, and those of the sleep queue sleep. -/
theorem Agree.readyState {b : Board} {pid : Int} (agree : Agree b)
    (member : pid ∈ b.queues readyQueue) : (b.proctab pid).prstate = .ready := by
  obtain ⟨range, inside⟩ := (agree.placed.member _ isQueue_ready pid).mp member
  refine (place_ready.mp inside).resolve_right ?_
  rintro ⟨waits, same⟩
  exact semQueue_ne_ready (agree.placed.waits pid range waits) same

theorem Agree.sleepState {b : Board} {pid : Int} (agree : Agree b)
    (member : pid ∈ b.queues sleepQueue) :
    (b.proctab pid).prstate = .sleep ∨ (b.proctab pid).prstate = .rectim := by
  obtain ⟨range, inside⟩ := (agree.placed.member _ isQueue_sleep pid).mp member
  refine (place_sleep.mp inside).resolve_right ?_
  rintro ⟨waits, same⟩
  exact semQueue_ne_sleep (agree.placed.waits pid range waits) same

/-- A kernel that shows a board is consistent with its lists. -/
theorem Sound.consistent {k : Kernel} {b : Board} (sound : Sound k b) : Consistent k b.queues := by
  obtain ⟨shows_, agree, _, rested⟩ := sound
  have squeue : ∀ sem, SemRange sem → (k.semtab sem).squeue = semQueue sem := shows_.squeue
  have isQueue : ∀ q, k.IsList q → IsQueue q := by
    rintro q (rfl | rfl | ⟨sem, range, rfl⟩)
    · rw [shows_.readylist]
      exact isQueue_ready
    · rw [shows_.sleepq]
      exact isQueue_sleep
    · rw [squeue sem range]
      exact isQueue_sem range
  refine ⟨?_, ?_, ?_, ?_, ?_, ?_, ?_, ?_, ?_, ?_⟩
  · rw [shows_.currpid]
    exact agree.current
  · intro pid range
    rw [shows_.proctab, shows_.currpid]
    refine ⟨agree.single pid range, ?_⟩
    rintro rfl
    exact agree.running rested.due
  · intro q isList
    exact shows_.threads.linked q (isQueue q isList)
  · intro q isList
    exact agree.placed.distinct q (isQueue q isList)
  · intro q isList pid member
    exact ((agree.placed.member q (isQueue q isList) pid).mp member).1
  · intro pid range
    rw [shows_.readylist, shows_.proctab]
    refine ⟨agree.readyState, fun state => ?_⟩
    exact (agree.placed.member _ isQueue_ready pid).mpr ⟨range, place_ready.mpr (Or.inl state)⟩
  · intro sem semRange pid range
    rw [squeue sem semRange, shows_.proctab, agree.placed.member _ (isQueue_sem semRange),
      place_sem semRange]
    tauto
  · intro pid range
    rw [shows_.proctab]
    exact agree.placed.waits pid range
  · intro pid range
    rw [shows_.sleepq, shows_.proctab]
    refine ⟨agree.sleepState, fun state => ?_⟩
    exact (agree.placed.member _ isQueue_sleep pid).mpr ⟨range, place_sleep.mpr (Or.inl state)⟩
  · intro pid range unlisted q isList member
    rw [shows_.proctab] at unlisted
    have inside := ((agree.placed.member q (isQueue q isList) pid).mp member).2
    rw [place_unlisted unlisted] at inside
    cases inside

/-- The moves after which the current process has to be switched away from. -/
def Kernel.blocks (k : Kernel) : Move → Bool
  | .call (.wait sem) => decide (SemRange sem ∧ (k.semtab sem).sstate = .used ∧
    ((k.semtab sem).scount - 1).toInt < 0)
  | .call .receive => !(k.proctab k.currpid).prhasmsg
  | .call (.recvtime maxwait) => decide (0 ≤ maxwait.toInt) && !(k.proctab k.currpid).prhasmsg
  | .call (.sleepms delay) => delay != 0
  | _ => false

/-- The null process makes no call that blocks it. -/
def NullRuns (k : Kernel) (move : Move) : Prop := k.currpid = nullproc → k.blocks move = false

instance (k : Kernel) (move : Move) : Decidable (NullRuns k move) :=
  inferInstanceAs (Decidable (k.currpid = nullproc → k.blocks move = false))

/-- The null process runs or is ready. -/
def Board.NullReady (b : Board) : Prop :=
  (b.proctab nullproc).prstate = .curr ∨ (b.proctab nullproc).prstate = .ready

section NullReady

variable {b after : Board} {pid : Int}

theorem Board.NullReady.update (nullReady : b.NullReady) {entry : Procent}
    (proctab : after.proctab = Function.update b.proctab pid entry)
    (state : pid = nullproc → entry.prstate = (b.proctab pid).prstate ∨ entry.prstate = .curr ∨
      entry.prstate = .ready) : after.NullReady := by
  unfold Board.NullReady at nullReady ⊢
  rw [proctab]
  by_cases isNull : pid = nullproc
  · subst isNull
    rw [Function.update_self]
    rcases state rfl with same | state
    · rw [same]
      exact nullReady
    · exact state
  · rwa [Function.update_of_ne (Ne.symm isNull)]

theorem Board.NullReady.becomeReady (nullReady : b.NullReady) : (b.becomeReady pid).NullReady :=
  nullReady.update rfl fun _ => Or.inr (Or.inr rfl)

theorem Board.NullReady.dispatch (nullReady : b.NullReady) : (b.dispatch pid).NullReady :=
  nullReady.update rfl fun _ => Or.inr (Or.inl rfl)

theorem Board.NullReady.answer (nullReady : b.NullReady) (value : Int) : (b.answer value).NullReady :=
  nullReady.update rfl fun _ => Or.inl rfl

/-- The null process stays where it runs or is ready, unless an action of its own stops it. -/
theorem Board.NullReady.next (nullReady : b.NullReady) {action : Action} (lawful : b.Lawful action)
    (blocks : b.currpid = nullproc → (∀ sem, action ≠ .block sem) ∧ action ≠ .receive ∧
      ∀ delay state, action ≠ .sleep delay state) : (b.next action).NullReady := by
  cases action with
  | goOnAt point => exact nullReady.update rfl fun _ => Or.inl rfl
  | answer value => exact nullReady.answer value
  | keep | leak | pass | signal | semMake | semReset | semSet | semDelete | raise | semGone | timed
  | tick | tickEnd => exact nullReady
  | preempt pid => exact nullReady.becomeReady.dispatch
  | dispatch pid => exact nullReady.dispatch
  | create pid priority base len =>
    have isFree := lawful.2.2.1
    refine nullReady.update rfl fun isNull => ?_
    subst isNull
    rcases nullReady with state | state <;> rw [isFree] at state <;> cases state
  | resume pid => exact nullReady.becomeReady
  | suspend pid =>
    have real : pid ≠ nullproc := lawful.2.2.1
    unfold Board.next
    dsimp only
    split
    · exact nullReady.update rfl fun isNull => absurd isNull real
    · exact nullReady.update rfl fun isNull => absurd isNull real
  | block sem => exact nullReady.update rfl fun isNull => absurd rfl ((blocks isNull).1 sem)
  | release sem pid | discharge sem pid | dischargeOne sem pid | wake pid =>
    exact nullReady.update rfl fun _ => Or.inr (Or.inr rfl)
  | receive =>
    unfold Board.NullReady at nullReady ⊢
    have apart : nullproc ≠ b.currpid := fun isNull => absurd rfl (blocks isNull.symm).2.1
    simpa [Board.next, Board.goOnAt, Board.setState, Board.setProc, apart] using nullReady
  | sleep delay state =>
    unfold Board.NullReady at nullReady ⊢
    have apart : nullproc ≠ b.currpid := fun isNull =>
      absurd rfl ((blocks isNull.symm).2.2 delay state)
    simpa [Board.next, Board.goOnAt, Board.setState, Board.setProc, Board.fallAsleep, Board.setQueue,
      Board.setKey, Board.note, apart] using nullReady
  | timeOut => exact nullReady.update rfl fun _ => Or.inl rfl
  | deliver pid msg =>
    have stored : (b.setProc pid { b.proctab pid with prmsg := msg, prhasmsg := true }).NullReady :=
      nullReady.update rfl fun _ => Or.inl rfl
    unfold Board.next Board.alert
    dsimp only
    split
    case h_1 | h_2 => exact stored.update rfl fun _ => Or.inr (Or.inr rfl)
    all_goals exact stored
  | take =>
    have emptied : (b.setProc b.currpid { b.proctab b.currpid with prhasmsg := false }).NullReady :=
      nullReady.update rfl fun _ => Or.inl rfl
    exact emptied.update rfl fun _ => Or.inl rfl
  | chprio pid priority => exact nullReady.update rfl fun _ => Or.inl rfl
  | killBegin pid => exact nullReady.update rfl fun _ => Or.inl rfl
  | finish pid =>
    have gone : (b.freeSlot pid).NullReady :=
      nullReady.update (freeSlot_proctab b pid) fun isNull => absurd isNull lawful.2.2.2.1
    unfold Board.next
    dsimp only
    split
    · exact gone.update rfl fun _ => Or.inl rfl
    · exact gone.answer _

end NullReady

/-- The moves of the null process that are excluded are those with an action that stops it. -/
theorem nullRuns_actions {k : Kernel} {first b : Board} {move : Move} {action : Action}
    (shows_ : Shows k first) (runs : NullRuns k move) (lawful : b.Lawful action)
    (origin : Origin move first b action) (isNull : b.currpid = nullproc) :
    (∀ sem, action ≠ .block sem) ∧ action ≠ .receive ∧ ∀ delay state, action ≠ .sleep delay state := by
  unfold NullRuns at runs
  rw [shows_.currpid] at runs
  refine ⟨?_, ?_, ?_⟩
  · rintro sem rfl
    obtain ⟨rfl, rfl⟩ := origin
    have refused := runs isNull
    unfold Kernel.blocks at refused
    dsimp only at refused
    rw [shows_.semtab] at refused
    exact of_decide_eq_false refused ⟨lawful.2.1, lawful.2.2.1, lawful.2.2.2.1⟩
  · rintro rfl
    obtain ⟨rfl, rfl⟩ := origin
    have refused := runs isNull
    unfold Kernel.blocks at refused
    dsimp only at refused
    rw [shows_.proctab, shows_.currpid, lawful.2.2] at refused
    cases refused
  · rintro delay state rfl
    obtain ⟨same, ⟨ticks, rfl, positive, _⟩ | ⟨_, rfl, enough, vacant⟩⟩ := origin
    · have refused := runs (same.symm.trans isNull)
      exact positive (bne_eq_false_iff_eq.mp refused)
    · have refused := runs (same.symm.trans isNull)
      unfold Kernel.blocks at refused
      dsimp only at refused
      rw [shows_.proctab, shows_.currpid, vacant, decide_eq_true enough] at refused
      cases refused

/-- In every run in which the null process does not block, the process table and the lists
agree after every step, and `resched` never finds the ready list empty: every further move
of this kind completes. -/
theorem process_table_agrees (events : List (Event Kernel Move Unit)) (last : Kernel)
    (run : Run step boot events last) (met : Meets NullRuns events) :
    (∃ queues, Consistent last queues) ∧
      ∀ move, Enabled last move → NullRuns last move → ∃ after, step last move = some ((), after) := by
  obtain ⟨b, sound, nullReady⟩ := run_law Board.NullReady NullRuns (Or.inl rfl)
    (fun k first move b action sound _ runs _ nullReady lawful origin =>
      nullReady.next lawful (nullRuns_actions sound.shows_ runs lawful origin)) events last run met
  refine ⟨⟨b.queues, sound.consistent⟩, fun move enabled runs => ?_⟩
  cases outcome : step last move with
  | some result =>
    obtain ⟨⟨⟩, after⟩ := result
    exact ⟨after, rfl⟩
  | none =>
    obtain ⟨starving, leads, stopped, isEmpty⟩ := step_starved sound enabled outcome
    obtain ⟨agree, stillReady⟩ := leads.invariant Board.NullReady sound.agree nullReady
      fun b action _ nullReady lawful origin =>
        nullReady.next lawful (nullRuns_actions sound.shows_ runs lawful origin)
    have range : InRange nullproc := ⟨by decide, by decide⟩
    rcases stillReady with state | state
    · have current := agree.single nullproc range state
      rw [← current] at stopped
      exact absurd state stopped
    · have member := (agree.placed.member readyQueue isQueue_ready nullproc).mpr
        ⟨range, by simp [Procent.place, state]⟩
      rw [isEmpty] at member
      cases member

/-- The null process creates a process, which waits for a message, is sent one and sleeps. -/
theorem receiver_keeps_agreement : ∃ events last, Run step boot events last ∧
    events.length = 7 ∧ (∃ queues, Consistent last queues) ∧
      ∃ after, step last .goOn = some ((), after) := by
  obtain ⟨events, last, run, checked⟩ := trace_exists step boot
    [.call (.create 400 20 (some 4096)), .call (.resume 1), .call .receive, .goOn,
      .call (.send 1 5), .goOn, .call (.sleepms 3)]
    (fun events last => decide (events.length = 7 ∧
      (∀ event ∈ events, NullRuns event.before event.call) ∧ last.halted = false ∧
        (last.proctab last.currpid).prstkptr = .answer ok))
    (by decide +kernel)
  obtain ⟨length, met, running, point⟩ := of_decide_eq_true checked
  obtain ⟨consistent, completes⟩ := process_table_agrees events last run met
  refine ⟨events, last, run, length, consistent, completes .goOn ⟨running, ?_⟩ (fun _ => rfl)⟩
  rw [point]
  simp

/-- The null process is the only one at the start. When it waits for a message, `resched` must
take a process from the empty ready list. -/
theorem null_process_starves : boot.isempty boot.readylist = true ∧
    ¬ ∀ events last, Run step boot events last → ∀ move, Enabled last move →
      ∃ after, step last move = some ((), after) := by
  refine ⟨by decide, fun always => ?_⟩
  obtain ⟨after, completed⟩ := always [] boot (.done boot) (.call .receive) ⟨rfl, rfl⟩
  have gaveUp : (step boot (.call .receive)).isNone = true := by decide +kernel
  rw [completed] at gaveUp
  cases gaveUp

end Xinu.Processes
