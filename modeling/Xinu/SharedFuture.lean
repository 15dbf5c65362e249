import Xinu.Futures

/-!
# Shared futures

A shared future is meant to be set once and read by everybody. The `future_set` that
is accepted resumes the getters that wait, one by one, and further calls of
`future_set` are refused while the future is ready. A `future_get` that returns while
no getter waits puts the future back to empty, however. The next `future_set` is then
accepted as well, and the next `future_get` waits for it.

As long as no call begins on a future that has gone back to empty, it is written once.
-/

namespace Xinu.Futures

open Runs

/-- One turn of the loop of a shared `future_set`. -/
inductive LoopStep (s : System) (pid : Nat) (value : Int32) : List Effect → System → Prop where
  | ends (nobody : s.future.getQueue = []) :
      LoopStep s pid value [.setReturned pid] (s.place pid .idle)
  | wakes (target : Nat) (queue : List Nat) (waiting : s.future.getQueue = target :: queue) :
      LoopStep s pid value [.getterWoken target value]
        (((s.withGetQueue queue).resume target).place pid (.ready (.setResumed value)))

theorem wakeGetters_cases (s : System) (pid : Nat) (value : Int32) :
    LoopStep s pid value (wakeGetters s pid value).1 (wakeGetters s pid value).2 := by
  unfold wakeGetters
  split
  case h_1 nobody => exact .ends nobody
  case h_2 target queue waiting => exact .wakes target queue waiting

/-- What a step on a shared future can do. -/
inductive SharedStep (s : System) : Move → List Effect → System → Prop where
  | waits (pid : Nat) (idle : s.process pid = .idle) (notReady : s.future.state ≠ .ready) :
      SharedStep s (.start pid .get) [.getterWaits pid]
        (((s.withState .waiting).withGetQueue (fenqueue s.future.getQueue pid)).suspend pid
          .getSuspended)
  | takes (pid : Nat) (move : Move)
      (taker : (move = .start pid .get ∧ s.process pid = .idle ∧ s.future.state = .ready) ∨
        (move = .goOn pid ∧ s.process pid = .ready .getSuspended)) :
      SharedStep s move [.delivered pid s.future.value]
        ((if s.future.getQueue = [] then s.withState .empty else s).place pid .idle)
  | sets (pid : Nat) (value : Int32) (output : List Effect) (t : System)
      (idle : s.process pid = .idle) (notReady : s.future.state ≠ .ready)
      (loop : LoopStep ((s.withValue value).withState .ready) pid value output t) :
      SharedStep s (.start pid (.set value)) (.accepted pid value :: output) t
  | refuses (pid : Nat) (value : Int32) (isReady : s.future.state = .ready) :
      SharedStep s (.start pid (.set value)) [.setRefused pid] s
  | loops (pid : Nat) (value : Int32) (output : List Effect) (t : System)
      (resumed : s.process pid = .ready (.setResumed value)) (loop : LoopStep s pid value output t) :
      SharedStep s (.goOn pid) output t

/-- Every step on a shared future is one of these. -/
theorem shared_cases (s t : System) (move : Move) (output : List Effect)
    (shared : s.future.mode = .shared) (completed : step s move = some (output, t)) :
    SharedStep s move output t := by
  cases move with
  | start pid call =>
    cases idle : s.process pid with
    | suspended point => simp [step, idle] at completed
    | ready point => simp [step, idle] at completed
    | idle =>
      cases call with
      | get =>
        simp only [step, idle, futureGet, shared] at completed
        split at completed
        case isTrue notReady =>
          cases Option.some.inj completed
          exact .waits pid idle notReady
        case isFalse isReady =>
          cases Option.some.inj completed
          exact .takes pid _ (Or.inl ⟨rfl, idle, not_not.mp isReady⟩)
      | set value =>
        simp only [step, idle, futureSet, shared] at completed
        split at completed
        case isTrue notReady =>
          cases Option.some.inj completed
          exact .sets pid value _ _ idle notReady (wakeGetters_cases _ pid value)
        case isFalse isReady =>
          cases Option.some.inj completed
          exact .refuses pid value (not_not.mp isReady)
  | goOn pid =>
    cases place : s.process pid with
    | idle => simp [step, place] at completed
    | suspended point => simp [step, place] at completed
    | ready point =>
      cases point with
      | getSuspended =>
        simp only [step, place, proceed, shared] at completed
        cases Option.some.inj completed
        exact .takes pid _ (Or.inr ⟨rfl, place⟩)
      | getResumed => simp [step, place, proceed, shared] at completed
      | setSuspended value => simp [step, place, proceed, shared] at completed
      | setResumed value =>
        simp only [step, place, proceed, shared, Option.some.injEq] at completed
        have loop := wakeGetters_cases s pid value
        rw [completed] at loop
        exact .loops pid value output t place loop

/-- The getters that start to wait behind the first accepted value. -/
def lateGetters : List Effect → List Nat
  | [] => []
  | .accepted _ _ :: history => waitingGetters history
  | _ :: history => lateGetters history

theorem lateGetters_before (history output : List Effect) (unset : acceptedValues history = []) :
    lateGetters (history ++ output) = lateGetters output := by
  induction history with
  | nil => rfl
  | cons effect history inductionHypothesis =>
    cases effect with
    | accepted pid value => cases unset
    | _ => exact inductionHypothesis unset

theorem lateGetters_after (history output : List Effect) (isSet : acceptedValues history ≠ []) :
    lateGetters (history ++ output) = lateGetters history ++ waitingGetters output := by
  induction history with
  | nil => exact absurd rfl isSet
  | cons effect history inductionHypothesis =>
    cases effect with
    | accepted pid value => exact collect_append _ history output
    | _ => exact inductionHypothesis isSet

/-- Before the first accepted value. -/
structure Unset (s : System) (history : List Effect) : Prop where
  accepted : acceptedValues history = []
  notReady : s.future.state ≠ .ready
  delivered : deliveredValues history = []
  woken : wokenGetters history = []
  returned : returnedSetters history = []
  nobody : ∀ pid point, s.process pid ≠ .ready point

/-- After it. At most one setter is inside of its loop, and none is once it has returned. -/
structure IsSet (s : System) (history : List Effect) (kept : Int32) : Prop where
  accepted : acceptedValues history = [kept]
  value : s.future.value = kept
  delivered : ∀ given ∈ deliveredValues history, given = kept
  late : lateGetters history = []
  setter : (returnedSetters history = [] ∧ ∃ setter, ∀ pid v,
      s.process pid = .ready (.setResumed v) → pid = setter) ∨
    ((returnedSetters history).length = 1 ∧ s.future.getQueue = [] ∧
      ∀ pid v, s.process pid ≠ .ready (.setResumed v))

/-- The getters that wait are those that have not been resumed. -/
structure SharedHolds (s : System) (history : List Effect) : Prop where
  shared : s.future.mode = .shared
  waiting : wokenGetters history ++ s.future.getQueue = waitingGetters history
  distinct : (waitingGetters history).Nodup
  suspended : ∀ pid ∈ s.future.getQueue, s.process pid = .suspended .getSuspended
  places : ∀ pid point, s.process pid = .suspended point → point = .getSuspended
  phase : Unset s history ∨ ∃ kept, IsSet s history kept

/-- After an accepted value calls begin only on a future that is ready. -/
def BeginsReady (history : List Effect) (s : System) : Move → Prop
  | .start _ _ => acceptedValues history ≠ [] → s.future.state = .ready
  | .goOn _ => True

section Steps

variable {s t : System} {history output : List Effect} {pid : Nat} {value : Int32}

/-- A turn of the loop resumes the first getter that waits, or finds none. -/
theorem LoopStep.queue (loop : LoopStep s pid value output t) (apart : pid ∉ s.future.getQueue)
    (distinct : s.future.getQueue.Nodup)
    (suspended : ∀ other ∈ s.future.getQueue, s.process other = .suspended .getSuspended) :
    t.future.mode = s.future.mode ∧ t.future.value = s.future.value ∧
      acceptedValues output = [] ∧ deliveredValues output = [] ∧ waitingGetters output = [] ∧
      s.future.getQueue = wokenGetters output ++ t.future.getQueue ∧
      (∀ other ∈ t.future.getQueue, t.process other = .suspended .getSuspended) ∧
      ∀ other point, t.process other = .suspended point → s.process other = .suspended point := by
  cases loop with
  | ends nobody =>
    refine ⟨rfl, rfl, rfl, rfl, rfl, rfl, ?_, ?_⟩
    · intro other member
      rw [place_future, nobody] at member
      cases member
    · intro other point isSuspended
      exact (place_suspended (by simp) isSuspended).2
  | wakes target queue waiting =>
    rw [waiting] at distinct apart suspended
    refine ⟨?_, ?_, rfl, rfl, rfl, ?_, ?_, ?_⟩
    · rw [place_future, resume_future]
      rfl
    · rw [place_future, resume_future]
      rfl
    · rw [place_future, resume_future, waiting]
      rfl
    · intro other member
      rw [place_future, resume_future] at member
      have inQueue : other ∈ queue := member
      have notPid : other ≠ pid := by
        rintro rfl
        exact apart (List.mem_cons_of_mem _ inQueue)
      have notTarget : other ≠ target := by
        rintro rfl
        exact (List.nodup_cons.mp distinct).1 inQueue
      rw [place_other _ _ _ notPid, resume_other _ _ notTarget, withGetQueue_process]
      exact suspended other (List.mem_cons_of_mem _ inQueue)
    · intro other point isSuspended
      exact (resume_suspended _ _ (place_suspended (by simp) isSuspended).2).2

/-- The setters inside of the loop after one turn of it. -/
theorem LoopStep.setters (loop : LoopStep s pid value output t)
    (waiting : ∀ other point, s.process other = .suspended point → point = .getSuspended)
    (only : ∀ other v, s.process other = .ready (.setResumed v) → other = pid) :
    (returnedSetters output = [] ∧ ∀ other v,
      t.process other = .ready (.setResumed v) → other = pid) ∨
    (returnedSetters output = [pid] ∧ t.future.getQueue = [] ∧
      ∀ other v, t.process other ≠ .ready (.setResumed v)) := by
  cases loop with
  | ends nobody =>
    refine Or.inr ⟨rfl, nobody, ?_⟩
    intro other v inLoop
    rcases eq_or_ne other pid with rfl | apart
    · rw [place_self] at inLoop
      cases inLoop
    · rw [place_other _ _ _ apart] at inLoop
      exact apart (only other v inLoop)
  | wakes target queue isFirst =>
    refine Or.inl ⟨rfl, ?_⟩
    intro other v inLoop
    by_contra apart
    rw [place_other _ _ _ apart] at inLoop
    rcases resume_ready _ _ inLoop with ⟨_, suspended⟩ | before
    · cases waiting other _ suspended
    · exact apart (only other v before)

/-- A getter that starts to wait before the value is set. -/
theorem SharedHolds.waits (holds : SharedHolds s history) (unset : Unset s history)
    (idle : s.process pid = .idle) :
    SharedHolds (((s.withState .waiting).withGetQueue (fenqueue s.future.getQueue pid)).suspend pid
      .getSuspended) (history ++ [.getterWaits pid]) := by
  have queue : s.future.getQueue = waitingGetters history := by
    rw [← holds.waiting, unset.woken, List.nil_append]
  have fresh : pid ∉ s.future.getQueue := by
    intro member
    cases idle.symm.trans (holds.suspended pid member)
  refine ⟨holds.shared, ?_, ?_, ?_, ?_, Or.inl ⟨?_, by simp [System.suspend, System.withState,
    System.withGetQueue], ?_, ?_, ?_, ?_⟩⟩
  · rw [wokenGetters_append, waitingGetters_append, unset.woken, ← queue]
    rfl
  · rw [waitingGetters_append, ← queue]
    exact fenqueue_nodup (queue ▸ holds.distinct) fresh
  · intro other member
    rcases List.mem_append.mp member with old | new
    · have apart : other ≠ pid := by
        rintro rfl
        exact fresh old
      rw [System.suspend, place_other _ _ _ apart]
      exact holds.suspended other old
    · rw [List.mem_singleton.mp new]
      exact place_self ..
  · intro other point isSuspended
    rcases eq_or_ne other pid with rfl | apart
    · rw [System.suspend, place_self] at isSuspended
      cases isSuspended
      rfl
    · rw [System.suspend, place_other _ _ _ apart] at isSuspended
      exact holds.places other point isSuspended
  · rw [acceptedValues_append, unset.accepted]
    rfl
  · rw [deliveredValues_append, unset.delivered]
    rfl
  · rw [wokenGetters_append, unset.woken]
    rfl
  · rw [returnedSetters_append, unset.returned]
    rfl
  · intro other point isReady
    exact unset.nobody other point (place_ready (by simp) isReady).2

theorem IsSet.some_accepted {kept : Int32} (isSet : IsSet s history kept) :
    acceptedValues history ≠ [] := by
  rw [isSet.accepted]
  exact List.cons_ne_nil _ _

/-- A step behind the accepted value: it delivers that value only, and nobody starts to
wait. -/
theorem SharedHolds.next (holds : SharedHolds s history) {kept : Int32}
    (isSet : IsSet s history kept) (sameMode : t.future.mode = s.future.mode)
    (sameValue : t.future.value = s.future.value) (noAccepted : acceptedValues output = [])
    (noWaiting : waitingGetters output = [])
    (delivered : ∀ given ∈ deliveredValues output, given = kept)
    (split : s.future.getQueue = wokenGetters output ++ t.future.getQueue)
    (suspended : ∀ other ∈ t.future.getQueue, t.process other = .suspended .getSuspended)
    (places : ∀ other point, t.process other = .suspended point →
      s.process other = .suspended point)
    (setter : (returnedSetters (history ++ output) = [] ∧ ∃ setter, ∀ other v,
        t.process other = .ready (.setResumed v) → other = setter) ∨
      ((returnedSetters (history ++ output)).length = 1 ∧ t.future.getQueue = [] ∧
        ∀ other v, t.process other ≠ .ready (.setResumed v))) :
    SharedHolds t (history ++ output) := by
  refine ⟨sameMode.trans holds.shared, ?_, ?_, suspended, ?_, Or.inr ⟨kept, ?_,
    sameValue.trans isSet.value, ?_, ?_, setter⟩⟩
  · rw [wokenGetters_append, waitingGetters_append, noWaiting, List.append_nil, ← holds.waiting,
      split, List.append_assoc]
  · rw [waitingGetters_append, noWaiting, List.append_nil]
    exact holds.distinct
  · intro other point isSuspended
    exact holds.places other point (places other point isSuspended)
  · rw [acceptedValues_append, isSet.accepted, noAccepted, List.append_nil]
  · intro given member
    rw [deliveredValues_append, List.mem_append] at member
    rcases member with old | new
    · exact isSet.delivered given old
    · exact delivered given new
  · rw [lateGetters_after _ _ isSet.some_accepted, isSet.late, noWaiting, List.append_nil]

/-- A getter that takes the value. -/
theorem SharedHolds.takes (holds : SharedHolds s history) {kept : Int32}
    (isSet : IsSet s history kept)
    (running : ∀ point, s.process pid ≠ .suspended point) :
    SharedHolds ((if s.future.getQueue = [] then s.withState .empty else s).place pid .idle)
      (history ++ [.delivered pid s.future.value]) := by
  generalize emptied : (if s.future.getQueue = [] then s.withState .empty else s) = u
  obtain ⟨sameMode, sameValue, sameQueue, processes⟩ : u.future.mode = s.future.mode ∧
      u.future.value = s.future.value ∧ u.future.getQueue = s.future.getQueue ∧
      u.process = s.process := by
    rw [← emptied]
    split <;> exact ⟨rfl, rfl, rfl, rfl⟩
  have moved : ∀ other v, (u.place pid .idle).process other = .ready (.setResumed v) →
      s.process other = .ready (.setResumed v) := by
    intro other v inLoop
    rw [← processes]
    exact (place_ready (by simp) inLoop).2
  refine holds.next isSet sameMode sameValue rfl rfl ?_ sameQueue.symm ?_ ?_ ?_
  · intro given member
    rw [← isSet.value]
    exact List.mem_singleton.mp member
  · intro other member
    rw [place_future, sameQueue] at member
    have apart : other ≠ pid := by
      rintro rfl
      exact running _ (holds.suspended other member)
    rw [place_other _ _ _ apart, processes]
    exact holds.suspended other member
  · intro other point isSuspended
    rw [← processes]
    exact (place_suspended (by simp) isSuspended).2
  · have nothing : returnedSetters [.delivered pid s.future.value] = [] := rfl
    rw [returnedSetters_append, nothing, List.append_nil, place_future, sameQueue]
    rcases isSet.setter with ⟨notYet, setter, only⟩ | ⟨once, empty, nobody⟩
    · exact Or.inl ⟨notYet, setter, fun other v inLoop => only other v (moved other v inLoop)⟩
    · exact Or.inr ⟨once, empty, fun other v inLoop => nobody other v (moved other v inLoop)⟩

/-- The accepted `future_set`, with the first turn of its loop. -/
theorem SharedHolds.sets (holds : SharedHolds s history) (unset : Unset s history)
    (idle : s.process pid = .idle)
    (loop : LoopStep ((s.withValue value).withState .ready) pid value output t) :
    SharedHolds t (history ++ .accepted pid value :: output) := by
  have queue : s.future.getQueue = waitingGetters history := by
    rw [← holds.waiting, unset.woken, List.nil_append]
  have apart : pid ∉ s.future.getQueue := by
    intro member
    cases idle.symm.trans (holds.suspended pid member)
  obtain ⟨sameMode, sameValue, noAccepted, noDelivered, noWaiting, split, suspended, places⟩ :=
    loop.queue apart (queue ▸ holds.distinct) holds.suspended
  have setters := loop.setters holds.places
    (fun other v inLoop => absurd inLoop (unset.nobody other _))
  have splitNow : s.future.getQueue = wokenGetters output ++ t.future.getQueue := split
  have accepts : history ++ Effect.accepted pid value :: output =
      (history ++ [.accepted pid value]) ++ output := by simp
  have returned : returnedSetters (history ++ .accepted pid value :: output) =
      returnedSetters output := by
    rw [accepts, returnedSetters_append, returnedSetters_append, unset.returned]
    rfl
  refine ⟨sameMode.trans holds.shared, ?_, ?_, suspended, ?_, Or.inr ⟨value, ?_, sameValue, ?_, ?_,
    ?_⟩⟩
  · rw [accepts, wokenGetters_append, wokenGetters_append, waitingGetters_append,
      waitingGetters_append, unset.woken, noWaiting, ← queue, splitNow]
    simp [wokenGetters, waitingGetters, collect]
  · rw [accepts, waitingGetters_append, waitingGetters_append, noWaiting]
    simpa [waitingGetters, collect] using holds.distinct
  · intro other point isSuspended
    exact holds.places other point (places other point isSuspended)
  · rw [accepts, acceptedValues_append, acceptedValues_append, unset.accepted, noAccepted]
    rfl
  · intro given member
    rw [accepts, deliveredValues_append, deliveredValues_append, unset.delivered, noDelivered] at member
    cases member
  · rw [lateGetters_before _ _ unset.accepted]
    exact noWaiting
  · rw [returned]
    rcases setters with ⟨notYet, only⟩ | ⟨isReturned, empty, nobody⟩
    · exact Or.inl ⟨notYet, pid, only⟩
    · exact Or.inr ⟨by rw [isReturned]; rfl, empty, nobody⟩

/-- A further turn of the loop. -/
theorem SharedHolds.loops (holds : SharedHolds s history) {kept : Int32}
    (isSet : IsSet s history kept) (resumed : s.process pid = .ready (.setResumed value))
    (loop : LoopStep s pid value output t) : SharedHolds t (history ++ output) := by
  have apart : pid ∉ s.future.getQueue := by
    intro member
    cases resumed.symm.trans (holds.suspended pid member)
  have distinct : s.future.getQueue.Nodup := by
    have all := holds.distinct
    rw [← holds.waiting] at all
    exact (List.nodup_append.mp all).2.1
  obtain ⟨sameMode, sameValue, noAccepted, noDelivered, noWaiting, split, suspended, places⟩ :=
    loop.queue apart distinct holds.suspended
  obtain ⟨notYet, setter, only⟩ : returnedSetters history = [] ∧ ∃ setter, ∀ pid v,
      s.process pid = .ready (.setResumed v) → pid = setter := by
    rcases isSet.setter with inside | ⟨_, _, nobody⟩
    · exact inside
    · exact absurd resumed (nobody pid value)
  have setters := loop.setters holds.places (fun other v inLoop =>
    (only other v inLoop).trans (only pid value resumed).symm)
  refine holds.next isSet sameMode sameValue noAccepted noWaiting ?_ split suspended places ?_
  · intro given member
    rw [noDelivered] at member
    cases member
  · rw [returnedSetters_append, notYet, List.nil_append]
    rcases setters with ⟨stillNone, onlyNow⟩ | ⟨isReturned, empty, nobody⟩
    · exact Or.inl ⟨stillNone, pid, onlyNow⟩
    · exact Or.inr ⟨by rw [isReturned]; rfl, empty, nobody⟩

/-- A refused `future_set` changes nothing. -/
theorem SharedHolds.refuses (holds : SharedHolds s history) {kept : Int32}
    (isSet : IsSet s history kept) : SharedHolds s (history ++ [.setRefused pid]) := by
  refine holds.next isSet rfl rfl rfl rfl ?_ rfl holds.suspended (fun _ _ same => same) ?_
  · intro given member
    cases member
  · have nothing : returnedSetters [.setRefused pid] = [] := rfl
    rw [returnedSetters_append, nothing, List.append_nil]
    exact isSet.setter

/-- Every step that begins no call on an empty future after the value is set keeps the
invariant. -/
theorem SharedHolds.step {move : Move} (holds : SharedHolds s history)
    (begins : BeginsReady history s move) (taken : SharedStep s move output t) :
    SharedHolds t (history ++ output) := by
  rcases holds.phase with unset | ⟨kept, isSet⟩
  · cases taken with
    | waits pid idle notReady => exact holds.waits unset idle
    | takes pid move taker =>
      rcases taker with ⟨_, _, isReady⟩ | ⟨_, woken⟩
      · exact absurd isReady unset.notReady
      · exact absurd woken (unset.nobody pid _)
    | sets pid value output t idle notReady loop => exact holds.sets unset idle loop
    | refuses pid value isReady => exact absurd isReady unset.notReady
    | loops pid value output t resumed loop => exact absurd resumed (unset.nobody pid _)
  · cases taken with
    | waits pid idle notReady => exact absurd (begins isSet.some_accepted) notReady
    | takes pid move taker =>
      rcases taker with ⟨_, idle, _⟩ | ⟨_, woken⟩
      · exact holds.takes isSet (by simp [idle])
      · exact holds.takes isSet (by simp [woken])
    | sets pid value output t idle notReady loop =>
      exact absurd (begins isSet.some_accepted) notReady
    | refuses pid value isReady => exact holds.refuses isSet
    | loops pid value output t resumed loop => exact holds.loops isSet resumed loop

end Steps

/-- A history of a future that is written once: at most one `future_set` returns `OK`, every
value delivered is the accepted one, the getters that wait are resumed once each, all of
them when the setter has returned, and none starts to wait behind the accepted value. -/
structure WriteOnce (history : List Effect) (s : System) : Prop where
  single : (returnedSetters history).length ≤ 1
  values : ∀ given ∈ deliveredValues history, acceptedValues history = [given]
  resumed : wokenGetters history ++ s.future.getQueue = waitingGetters history
  distinct : (waitingGetters history).Nodup
  complete : returnedSetters history ≠ [] → s.future.getQueue = []
  late : lateGetters history = []

theorem SharedHolds.write_once {s : System} {history : List Effect} (holds : SharedHolds s history) :
    WriteOnce history s := by
  rcases holds.phase with unset | ⟨kept, isSet⟩
  · refine ⟨?_, ?_, holds.waiting, holds.distinct, ?_, ?_⟩
    · rw [unset.returned]
      exact Nat.zero_le 1
    · intro given member
      rw [unset.delivered] at member
      cases member
    · intro someReturned
      exact absurd unset.returned someReturned
    · have before := lateGetters_before history [] unset.accepted
      rw [List.append_nil] at before
      exact before
  · refine ⟨?_, ?_, holds.waiting, holds.distinct, ?_, isSet.late⟩
    · rcases isSet.setter with ⟨notYet, _⟩ | ⟨once, _⟩
      · rw [notYet]
        exact Nat.zero_le 1
      · exact Nat.le_of_eq once
    · intro given member
      rw [isSet.delivered given member]
      exact isSet.accepted
    · intro someReturned
      rcases isSet.setter with ⟨notYet, _⟩ | ⟨_, empty, _⟩
      · exact absurd notYet someReturned
      · exact empty

/-- In every run in which, behind the accepted `future_set`, calls begin only while the
future is ready, the future is written once. -/
theorem shared_future_written_once (value : Int32) (pid : Nat) (s : System)
    (events : List (Event System Move (List Effect)))
    (run : Run step (allocated .shared value pid) events s)
    (begins : MeetsAfter BeginsReady [] events) : WriteOnce (effects events) s := by
  have initial : SharedHolds (allocated .shared value pid) [] := by
    refine ⟨rfl, rfl, List.nodup_nil, ?_, ?_, Or.inl ⟨rfl, ?_, rfl, rfl, rfl, ?_⟩⟩
    · intro other member
      cases member
    · intro other point impossible
      cases impossible
    · intro impossible
      cases impossible
    · intro other point impossible
      cases impossible
  have holds := history_last SharedHolds BeginsReady
    (fun before move output after history holds begins completed =>
      holds.step begins (shared_cases before after move output holds.shared completed))
    _ _ _ run [] initial begins
  exact holds.write_once

/-- A getter waits and gets the value. -/
theorem waiting_getter_reads_five : ∃ events s, Run step (allocated .shared 0 0) events s ∧
    deliveredValues (effects events) = [5] ∧ WriteOnce (effects events) s := by
  have run : Run step (allocated .shared 0 0) _ _ := .taken _ (.start 1 .get) _ _ _ _ rfl
    (.taken _ (.start 2 (.set 5)) _ _ _ _ rfl
      (.taken _ (.goOn 2) _ _ _ _ rfl (.taken _ (.goOn 1) _ _ _ _ rfl (.done _))))
  refine ⟨_, _, run, rfl, shared_future_written_once 0 0 _ _ run ?_⟩
  refine ⟨fun isSet => absurd rfl isSet, fun isSet => absurd rfl isSet, trivial, trivial, trivial⟩

/-- A `future_get` between two calls of `future_set` lets both of them return `OK`. -/
theorem shared_future_set_twice : ∃ events s, Run step (allocated .shared 0 0) events s ∧
    events.map Event.call = [.start 1 (.set 5), .start 2 .get, .start 1 (.set 6)] ∧
    returnedSetters (effects events) = [1, 1] ∧ ¬ WriteOnce (effects events) s := by
  obtain ⟨events, s, run, passed⟩ := trace_exists step (allocated .shared 0 0)
    [.start 1 (.set 5), .start 2 .get, .start 1 (.set 6)]
    (fun events _ => events.map Event.call = [.start 1 (.set 5), .start 2 .get, .start 1 (.set 6)] ∧
      returnedSetters (effects events) = [1, 1]) (by decide)
  obtain ⟨calls, twice⟩ := of_decide_eq_true passed
  refine ⟨events, s, run, calls, twice, ?_⟩
  intro once
  have single := once.single
  rw [twice] at single
  exact absurd single (by decide)

end Xinu.Futures
