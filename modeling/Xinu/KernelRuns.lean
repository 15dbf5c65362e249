import Xinu.CallRefinement

/-!
# Runs of the process manager

A process that ended itself does not go on, and a `kill` that has sent its message goes on
with a process of the table. With these facts each step of a kernel that shows a board is a
sequence of lawful actions, so that a law kept by every action holds in every run.
-/

namespace Xinu.Processes

open Runs

/-- The places inside of `kill`. -/
structure Points (b : Board) : Prop where
  ended : ∀ pid other, (b.proctab pid).prstkptr = .suicideEnd other →
    (b.proctab pid).prstate = .free
  aimed : ∀ pid other, (b.proctab pid).prstkptr = .killSent other → InRange other ∧ other ≠ nullproc

section Points

variable {b after : Board} {pid : Int} {entry : Procent}

theorem Points.congr (points : Points b) (proctab : after.proctab = b.proctab) : Points after := by
  refine ⟨?_, ?_⟩
  · rw [proctab]
    exact points.ended
  · rw [proctab]
    exact points.aimed

/-- One entry changes. -/
theorem Points.update (points : Points b)
    (ended : ∀ other, entry.prstkptr = .suicideEnd other → entry.prstate = .free)
    (aimed : ∀ other, entry.prstkptr = .killSent other → InRange other ∧ other ≠ nullproc) :
    Points (b.setProc pid entry) := by
  refine ⟨fun this other point => ?_, fun this other point => ?_⟩
  · rcases eq_or_ne this pid with rfl | apart
    · simp only [Board.setProc, Function.update_self] at point ⊢
      exact ended other point
    · simp only [Board.setProc, Function.update_of_ne apart] at point ⊢
      exact points.ended this other point
  · rcases eq_or_ne this pid with rfl | apart
    · simp only [Board.setProc, Function.update_self] at point
      exact aimed other point
    · simp only [Board.setProc, Function.update_of_ne apart] at point
      exact points.aimed this other point

/-- A process in use changes in other fields. -/
theorem Points.keep (points : Points b) (point : entry.prstkptr = (b.proctab pid).prstkptr)
    (used : (b.proctab pid).prstate ≠ .free ∨ entry.prstate = .free) :
    Points (b.setProc pid entry) := by
  refine points.update (fun other here => ?_) (fun other here => ?_)
  · rcases used with used | isFree
    · exact absurd (points.ended pid other (point ▸ here)) used
    · exact isFree
  · exact points.aimed pid other (point ▸ here)

/-- The current process goes on at a place that is not inside of `kill`. -/
theorem Points.goOnAt (points : Points b) (point : Point) (apart : ∀ other, point ≠ .killSent other)
    (away : ∀ other, point ≠ .suicideEnd other) : Points (b.goOnAt point) :=
  points.update (fun other here => absurd here (away other)) (fun other here => absurd here (apart other))

theorem Points.note (points : Points b) (entry : Entry) : Points (b.note entry) :=
  points.congr rfl

theorem Points.answer (points : Points b) (value : Int) : Points (b.answer value) :=
  (points.goOnAt .user (by simp) (by simp)).note _

theorem Points.becomeReady (points : Points b) (used : (b.proctab pid).prstate ≠ .free) :
    Points (b.becomeReady pid) := by
  have kept : Points (b.setState pid .ready) := points.keep rfl (Or.inl used)
  exact kept.congr rfl

theorem Points.dispatch (points : Points b) (used : (b.proctab pid).prstate ≠ .free) :
    Points (b.dispatch pid) := by
  have kept : Points (b.setState pid .curr) := points.keep rfl (Or.inl used)
  exact kept.congr rfl

/-- A process in a queue is in use. -/
theorem used_of_place {q : Int} (inside : (b.proctab pid).place = some q) :
    (b.proctab pid).prstate ≠ .free := by
  intro isFree
  simp [Procent.place, isFree] at inside

/-- Every lawful action keeps the places. -/
theorem Points.next (points : Points b) (agree : Agree b) {action : Action}
    (lawful : b.Lawful action) : Points (b.next action) := by
  have used (settled : b.due = false) : (b.proctab b.currpid).prstate ≠ .free := by
    rw [agree.running settled]
    simp
  cases action with
  | goOnAt point =>
    refine points.goOnAt point ?_ ?_ <;>
    · rintro other rfl
      exact lawful.1
  | answer value => exact points.answer value
  | keep | leak | pass | signal | semMake | semReset | semSet | semDelete | raise | semGone | timed
  | tick | tickEnd => exact points.congr rfl
  | preempt pid =>
    have inside := (agree.first isQueue_ready lawful.2.1).2
    refine Points.dispatch (points.becomeReady (by simp [lawful.1])) ?_
    have apart : pid ≠ b.currpid := by
      rintro rfl
      simp [Procent.place, lawful.1] at inside
    simpa [Board.becomeReady, Board.setState, Board.setProc, Board.setQueue, Board.setKey, Board.note,
      apart] using used_of_place inside
  | dispatch pid =>
    exact points.dispatch (used_of_place (agree.first isQueue_ready lawful.2).2)
  | create pid priority base len =>
    have fresh : Points (b.setProc pid ((b.proctab pid).fresh b.currpid priority base len)) :=
      points.update (by simp [Procent.fresh]) (by simp [Procent.fresh])
    exact fresh.congr rfl
  | resume pid => exact points.becomeReady (by simp [lawful.2.2])
  | suspend pid =>
    have kept : Points (b.setState pid .susp) := by
      refine points.keep rfl (Or.inl ?_)
      rcases lawful.2.2.2 with state | state <;> simp [state]
    unfold Board.next
    dsimp only
    split <;> exact kept.congr rfl
  | block sem =>
    have kept : Points (b.setProc b.currpid { b.proctab b.currpid with
        prstate := .wait, prsem := sem }) := points.keep rfl (Or.inl (used lawful.1))
    exact kept.congr rfl
  | release sem pid =>
    have inside := (agree.first (isQueue_sem lawful.1) lawful.2.2.2.2).2
    exact Points.becomeReady (points.congr rfl) (used_of_place inside)
  | discharge sem pid =>
    have inside := (agree.first (isQueue_sem lawful.1) lawful.2.2.2).2
    exact Points.becomeReady (points.congr rfl) (used_of_place inside)
  | dischargeOne sem pid =>
    have inside := (agree.first (isQueue_sem lawful.1) lawful.2.2.2.2).2
    exact Points.becomeReady (points.congr rfl) (used_of_place inside)
  | receive =>
    have kept : Points (b.setState b.currpid .recv) := points.keep rfl (Or.inl (used lawful.1))
    exact (kept.goOnAt .receiveEnd (by simp) (by simp)).congr rfl
  | sleep delay state =>
    have kept : Points (b.setState b.currpid state) := points.keep rfl (Or.inl (used lawful.1))
    refine (kept.goOnAt (if state = .rectim then .recvtimeEnd else .answer ok) ?_ ?_).congr rfl
    · intro other
      split <;> simp
    · intro other
      split <;> simp
  | timeOut => exact (points.note _).answer _
  | deliver pid msg =>
    have stored : Points (b.setProc pid { b.proctab pid with prmsg := msg, prhasmsg := true }) :=
      points.keep rfl (Or.inl lawful.2.2.1)
    have state : ((b.setProc pid { b.proctab pid with prmsg := msg, prhasmsg := true }).proctab
        pid).prstate ≠ .free := by
      simpa [Board.setProc] using lawful.2.2.1
    unfold Board.next Board.alert
    dsimp only
    split
    case h_1 => exact Points.becomeReady (stored.congr rfl) state
    case h_2 => exact Points.becomeReady (stored.congr rfl) state
    all_goals exact stored.congr rfl
  | take =>
    have emptied : Points (b.setProc b.currpid { b.proctab b.currpid with prhasmsg := false }) :=
      points.keep rfl (Or.inl (used lawful.1))
    exact (emptied.note _).answer _
  | wake pid =>
    have inside := (agree.first isQueue_sleep lawful.2.1).2
    exact Points.becomeReady (points.congr rfl) (used_of_place inside)
  | chprio pid priority => exact points.keep rfl (Or.inl lawful.2.2)
  | killBegin pid =>
    have aimed : Points (b.goOnAt (.killSent pid)) := by
      refine points.update (by simp) (fun other here => ?_)
      obtain rfl : pid = other := by simpa using here
      exact ⟨lawful.2.2.1, lawful.2.2.2.1⟩
    exact aimed.congr rfl
  | finish pid =>
    have freed : Points (b.setState pid .free) := points.keep rfl (Or.inr rfl)
    have gone : Points (b.freeSlot pid) := freed.congr (freeSlot_proctab b pid)
    unfold Board.next
    dsimp only
    split
    case isTrue runs =>
      obtain rfl := agree.single pid lawful.2.2.1 runs
      refine gone.update (fun other _ => ?_) (by simp)
      simp [freeSlot_proctab, freeSlot_currpid]
    case isFalse => exact gone.answer _

end Points

/-- A kernel between two steps, and the board that it shows. -/
structure Sound (k : Kernel) (b : Board) : Prop where
  shows_ : Shows k b
  agree : Agree b
  points : Points b
  rested : Rested k b

section Steps

variable {k after : Kernel} {b : Board} {move : Move}

/-- The current process goes on inside of a call. -/
theorem proceed_ends (sound : Sound k b) (inside : b.point ≠ .user) :
    Reach .goOn b b Rested (proceed k b.point) := by
  obtain ⟨shows_, agree, points, rested⟩ := sound
  cases here : b.point with
  | user => exact absurd here inside
  | answer value => exact answer_ends shows_ rested (by rw [here]; trivial) value
  | suspendEnd pid => exact answer_ends shows_ rested (by rw [here]; trivial) _
  | receiveEnd => exact take_ends shows_ rested ⟨rested.due, Or.inl here⟩
  | recvtimeEnd => exact recvtimeEnd_ends shows_ rested (Or.inl here)
  | killSent pid =>
    obtain ⟨range, real⟩ := points.aimed b.currpid pid here
    exact killRest_ends shows_ agree rested here range real
  | suicideEnd pid =>
    have isFree := points.ended b.currpid pid here
    rw [agree.running rested.due] at isFree
    cases isFree
  | clkWoken =>
    refine Reach.goOnAt .user (by rw [here]; trivial) trivial ?_
    exact clkPreempt_ends (shows_.goOnAt .user) (agree.goOnAt .user)
      ⟨rested.ndefers, rested.due, rested.ticking, rested.clearing⟩

/-- Calls and ticks come while the current process is in its own code. -/
def Enabled (k : Kernel) : Move → Prop
  | .call _ | .tick _ => k.halted = false ∧ (k.proctab k.currpid).prstkptr = .user
  | .goOn => k.halted = false ∧ (k.proctab k.currpid).prstkptr ≠ .user

/-- What a move makes the kernel do. -/
def act (k : Kernel) : Move → Option Kernel
  | .call call => exec k call
  | .tick platform => clkhandler k platform
  | .goOn => proceed k (k.proctab k.currpid).prstkptr

theorem step_enabled (enabled : Enabled k move) : step k move = (act k move).map (Prod.mk ()) := by
  cases move with
  | call call => exact if_pos enabled
  | tick platform => exact if_pos enabled
  | goOn => exact if_pos enabled

theorem step_disabled (disabled : ¬ Enabled k move) : step k move = none := by
  cases move with
  | call call => exact if_neg disabled
  | tick platform => exact if_neg disabled
  | goOn => exact if_neg disabled

/-- Every move is a sequence of lawful actions, completed or not. -/
theorem act_ends (sound : Sound k b) (enabled : Enabled k move) :
    Reach move b b Rested (act k move) := by
  have point : (k.proctab k.currpid).prstkptr = b.point := by
    rw [sound.shows_.proctab, sound.shows_.currpid]
    rfl
  cases move with
  | call call =>
    have plain : b.point.Plain := by
      rw [← point, enabled.2]
      trivial
    exact exec_ends sound.shows_ sound.agree sound.rested plain call
  | tick platform =>
    have plain : b.point.Plain := by
      rw [← point, enabled.2]
      trivial
    exact clkhandler_ends sound.shows_ sound.agree sound.rested plain
  | goOn =>
    have inside : b.point ≠ .user := by
      rw [← point]
      exact enabled.2
    unfold act
    rw [point]
    exact proceed_ends sound inside

/-- A completed step. -/
theorem step_sound (sound : Sound k b) (completed : step k move = some ((), after)) :
    ∃ last, b.Leads (Origin move b) last ∧ Sound after last := by
  by_cases enabled : Enabled k move
  · have reach := act_ends sound enabled
    rw [step_enabled enabled] at completed
    obtain ⟨_, done, same⟩ := Option.map_eq_some_iff.mp completed
    obtain rfl := congrArg Prod.snd same
    rw [done] at reach
    obtain ⟨last, leads, shown, rested⟩ := reach
    obtain ⟨agree, points⟩ := leads.invariant Points sound.agree sound.points
      fun _ _ agree points lawful _ => points.next agree lawful
    exact ⟨last, leads, shown, agree, points, rested⟩
  · rw [step_disabled enabled] at completed
    cases completed

/-- A step that gives up. -/
theorem step_starved (sound : Sound k b) (enabled : Enabled k move) (gaveUp : step k move = none) :
    ∃ last, b.Leads (Origin move b) last ∧ last.Starved := by
  have reach := act_ends sound enabled
  rw [step_enabled enabled, Option.map_eq_none_iff] at gaveUp
  rw [gaveUp] at reach
  exact reach

end Steps

/-- The board at the start. -/
def bootBoard : Board where
  proctab := bootProc
  semtab := fun sem => ⟨.free, 0, nproc + 2 * sem⟩
  queues := fun _ => []
  key := fun index => (bootQueue index).qkey
  currpid := nullproc
  prcount := 1
  due := false
  ticking := false
  clearing := none
  log := []

theorem boot_threads : boot.Threads bootBoard.queues := by
  refine ⟨fun q isQueue => ?_, fun q isQueue => ?_⟩
  · obtain ⟨index, low, high, rfl⟩ := isQueue
    have head : bootQueue (nproc + 2 * index) = ⟨maxkey, nproc + 2 * index + 1, empty⟩ := by
      unfold bootQueue nproc
      rw [if_neg (by omega), if_pos (by lia)]
    have tail : bootQueue (nproc + 2 * index + 1) = ⟨minkey, empty, nproc + 2 * index⟩ := by
      unfold bootQueue nproc
      rw [if_neg (by omega), if_neg (by omega)]
      congr 1
      lia
    have next : boot.nexts (nproc + 2 * index) = nproc + 2 * index + 1 := congrArg Qentry.qnext head
    have prev : boot.prevs (nproc + 2 * index + 1) = nproc + 2 * index := congrArg Qentry.qprev tail
    exact List.isChain_pair.mpr ⟨next, prev⟩
  · obtain ⟨index, low, high, rfl⟩ := isQueue
    unfold Kernel.keys boot bootQueue nproc
    dsimp only
    rw [if_neg (by omega), if_neg (by omega)]

theorem boot_sound : Sound boot bootBoard := by
  refine ⟨?_, ?_, ?_, ⟨rfl, rfl, rfl, rfl⟩⟩
  · exact ⟨rfl, rfl, rfl, rfl, rfl, boot_threads, rfl, rfl, rfl, fun sem range => rfl, by decide⟩
  · refine ⟨⟨?_, fun q isQueue => List.nodup_nil, ?_⟩, ⟨by decide, by decide⟩, ?_, fun _ => rfl⟩
    · intro q isQueue pid
      have outside : (bootProc pid).place = none := by
        by_cases isNull : pid = nullproc <;> simp [bootProc, Procent.place, isNull]
      simp [bootBoard, outside]
    · intro pid range waiting
      by_cases isNull : pid = nullproc <;> simp [bootBoard, bootProc, isNull] at waiting
    · intro pid range runs
      by_cases isNull : pid = nullproc
      · exact isNull
      · simp [bootBoard, bootProc, isNull] at runs
  · refine ⟨fun pid other here => ?_, fun pid other here => ?_⟩
    · simp [bootBoard, bootProc] at here
    · simp [bootBoard, bootProc] at here

/-- A law that every lawful action of the allowed moves keeps holds in every run. -/
theorem run_law (law : Board → Prop) (allowed : Kernel → Move → Prop) (initial : law bootBoard)
    (kept : ∀ k first move b action, Sound k first → law first → allowed k move → Agree b → law b →
      b.Lawful action → Origin move first b action → law (b.next action))
    (events : List (Event Kernel Move Unit)) (last : Kernel) (run : Run step boot events last)
    (met : Meets allowed events) : ∃ b, Sound last b ∧ law b := by
  refine invariant_last (fun k => ∃ b, Sound k b ∧ law b) allowed ?_ boot last events run
    ⟨bootBoard, boot_sound, initial⟩ met
  rintro k move ⟨⟩ after ⟨first, sound, holds⟩ isAllowed completed
  obtain ⟨final, leads, soundFinal⟩ := step_sound sound completed
  refine ⟨final, soundFinal, ?_⟩
  exact (leads.invariant law sound.agree holds fun b action agree lawNow lawful origin =>
    kept k first move b action sound holds isAllowed agree lawNow lawful origin).2

end Xinu.Processes
