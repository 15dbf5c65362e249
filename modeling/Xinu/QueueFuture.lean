import Xinu.Futures

/-!
# Futures in queue mode

Setters and getters are to be paired one to one. A getter that finds no setter waits
in the get queue. A setter that finds no getter waits in the set queue, until a getter
resumes it; the getter then waits in the get queue itself, and the setter puts its
value in and resumes the first getter there.

The value stands in the future until the getter that was woken for it runs. If another
getter takes it or another setter replaces it before, two getters get one value or a
value is lost. The pairing is right if nobody touches the value in between.

The getter resumes the setter before it enters the get queue. If the setter runs at
once, it dequeues from an empty queue. The same happens when another `future_set`
takes the getter that was meant for the setter, or when the getter finds a value and
does not wait.
-/

namespace Xinu.Futures

open Runs

/-- A process at the test of the state in `future_get`. -/
def Tests (s : System) (pid : Nat) (move : Move) : Prop :=
  (move = .start pid .get ∧ s.process pid = .idle ∧ s.future.setQueue = []) ∨
    (move = .goOn pid ∧ s.process pid = .ready .getResumed)

/-- A process that puts its value in. -/
def Fills (s : System) (pid : Nat) (value : Int32) (move : Move) : Prop :=
  (move = .start pid (.set value) ∧ s.process pid = .idle) ∨
    (move = .goOn pid ∧ s.process pid = .ready (.setSuspended value))

/-- What a step on a future in queue mode can do. -/
inductive QueueStep (s : System) : Move → List Effect → System → Prop where
  | releases (pid target : Nat) (queue : List Nat) (idle : s.process pid = .idle)
      (waiting : s.future.setQueue = target :: queue) :
      QueueStep s (.start pid .get) [.setterReleased target]
        (((s.withSetQueue queue).resume target).place pid (.ready .getResumed))
  | waits (pid : Nat) (move : Move) (tests : Tests s pid move) (isEmpty : s.future.state = .empty) :
      QueueStep s move [.getterWaits pid]
        ((s.withGetQueue (fenqueue s.future.getQueue pid)).suspend pid .getSuspended)
  | takes (pid : Nat) (move : Move)
      (taker : (Tests s pid move ∧ s.future.state ≠ .empty) ∨
        (move = .goOn pid ∧ s.process pid = .ready .getSuspended)) :
      QueueStep s move [.delivered pid s.future.value] ((s.withState .empty).place pid .idle)
  | setterWaits (pid : Nat) (value : Int32) (idle : s.process pid = .idle)
      (nobody : s.future.getQueue = []) :
      QueueStep s (.start pid (.set value)) [.setterWaits pid]
        ((s.withSetQueue (fenqueue s.future.setQueue pid)).suspend pid (.setSuspended value))
  | fills (pid : Nat) (value : Int32) (move : Move) (target : Nat) (queue : List Nat)
      (filler : Fills s pid value move) (waiting : s.future.getQueue = target :: queue) :
      QueueStep s move [.accepted pid value, .getterWoken target value]
        (((((s.withValue value).withState .ready).withGetQueue queue).resume target).place pid
          (.ready (.setResumed value)))
  | returns (pid : Nat) (value : Int32) (resumed : s.process pid = .ready (.setResumed value)) :
      QueueStep s (.goOn pid) [.setReturned pid] (s.place pid .idle)

/-- The test of the state. -/
theorem queueTest_cases (s : System) (pid : Nat) (move : Move) (tests : Tests s pid move) :
    QueueStep s move (queueTest s pid).1 (queueTest s pid).2 := by
  unfold queueTest
  split
  case isTrue isEmpty => exact .waits pid move tests isEmpty
  case isFalse notEmpty => exact .takes pid move (Or.inl ⟨tests, notEmpty⟩)

/-- A value is put in only where a getter waits. -/
theorem queueFill_cases (s t : System) (pid : Nat) (value : Int32) (move : Move)
    (output : List Effect) (filler : Fills s pid value move)
    (completed : queueFill s pid value = some (output, t)) : QueueStep s move output t := by
  cases waiting : s.future.getQueue with
  | nil => simp [queueFill, System.withState, System.withValue, waiting, fdequeue] at completed
  | cons target queue =>
    simp only [queueFill, System.withState, System.withValue, waiting, fdequeue, Option.bind_eq_bind,
      Option.bind_some, Option.some.injEq, Prod.mk.injEq] at completed
    obtain ⟨rfl, rfl⟩ := completed
    exact .fills pid value move target queue filler waiting

/-- Every step on a future in queue mode is one of these. -/
theorem queue_cases (s t : System) (move : Move) (output : List Effect)
    (inQueue : s.future.mode = .queue) (completed : step s move = some (output, t)) :
    QueueStep s move output t := by
  cases move with
  | start pid call =>
    cases idle : s.process pid with
    | suspended point => simp [step, idle] at completed
    | ready point => simp [step, idle] at completed
    | idle =>
      cases call with
      | get =>
        simp only [step, idle, futureGet, inQueue] at completed
        cases waiting : s.future.setQueue with
        | nil =>
          rw [waiting, if_neg (not_not.mpr rfl), Option.some.injEq] at completed
          have test := queueTest_cases s pid (.start pid .get) (Or.inl ⟨rfl, idle, waiting⟩)
          rw [completed] at test
          exact test
        | cons target queue =>
          rw [waiting, if_pos (List.cons_ne_nil _ _)] at completed
          cases Option.some.inj completed
          exact .releases pid target queue idle waiting
      | set value =>
        simp only [step, idle, futureSet, inQueue] at completed
        split at completed
        case isTrue nobody =>
          cases Option.some.inj completed
          exact .setterWaits pid value idle nobody
        case isFalse =>
          exact queueFill_cases s t pid value _ output (Or.inl ⟨rfl, idle⟩) completed
  | goOn pid =>
    cases place : s.process pid with
    | idle => simp [step, place] at completed
    | suspended point => simp [step, place] at completed
    | ready point =>
      cases point with
      | getSuspended =>
        simp only [step, place, proceed, inQueue] at completed
        cases Option.some.inj completed
        exact .takes pid _ (Or.inr ⟨rfl, place⟩)
      | getResumed =>
        simp only [step, place, proceed, inQueue, Option.some.injEq] at completed
        have test := queueTest_cases s pid (.goOn pid) (Or.inr ⟨rfl, place⟩)
        rw [completed] at test
        exact test
      | setSuspended value =>
        simp only [step, place, proceed, inQueue] at completed
        exact queueFill_cases s t pid value _ output (Or.inr ⟨rfl, place⟩) completed
      | setResumed value =>
        simp only [step, place, proceed, inQueue] at completed
        cases Option.some.inj completed
        exact .returns pid value place

/-- The processes of the two queues are suspended where they entered them. -/
structure QueuesSound (s : System) : Prop where
  inQueue : s.future.mode = .queue
  notWaiting : s.future.state ≠ .waiting
  getters : s.future.getQueue.Nodup
  setters : s.future.setQueue.Nodup
  getting : ∀ pid ∈ s.future.getQueue, s.process pid = .suspended .getSuspended
  setting : ∀ pid ∈ s.future.setQueue, ∃ value, s.process pid = .suspended (.setSuspended value)

section Steps

variable {s t : System} {move : Move} {output history : List Effect}

/-- A process that takes a step is in neither queue. -/
theorem QueuesSound.running (sound : QueuesSound s) {pid : Nat}
    (running : ∀ point, s.process pid ≠ .suspended point) :
    pid ∉ s.future.getQueue ∧ pid ∉ s.future.setQueue := by
  refine ⟨fun member => running _ (sound.getting pid member), fun member => ?_⟩
  obtain ⟨value, suspended⟩ := sound.setting pid member
  exact running _ suspended

theorem Tests.running {pid : Nat} (tests : Tests s pid move) (point : Point) :
    s.process pid ≠ .suspended point := by
  rcases tests with ⟨_, idle, _⟩ | ⟨_, ready⟩
  · simp [idle]
  · simp [ready]

theorem Fills.running {pid : Nat} {value : Int32} (fills : Fills s pid value move) (point : Point) :
    s.process pid ≠ .suspended point := by
  rcases fills with ⟨_, idle⟩ | ⟨_, ready⟩
  · simp [idle]
  · simp [ready]

/-- A member of a queue from which the first process is taken. -/
theorem ne_of_nodup_cons {target other : Nat} {queue : List Nat} (distinct : (target :: queue).Nodup)
    (member : other ∈ queue) : other ≠ target := by
  rintro rfl
  exact (List.nodup_cons.mp distinct).1 member

/-- A getter that enters the get queue. -/
theorem QueuesSound.waits (sound : QueuesSound s) {pid : Nat}
    (running : ∀ point, s.process pid ≠ .suspended point) :
    QueuesSound ((s.withGetQueue (fenqueue s.future.getQueue pid)).suspend pid .getSuspended) := by
  obtain ⟨notGetting, notSetting⟩ := sound.running running
  refine ⟨sound.inQueue, sound.notWaiting, ?_, sound.setters, ?_, ?_⟩
  · exact fenqueue_nodup sound.getters notGetting
  · intro other member
    rcases List.mem_append.mp member with old | new
    · have apart : other ≠ pid := ne_of_mem_of_not_mem old notGetting
      rw [System.suspend, place_other _ _ _ apart]
      exact sound.getting other old
    · rw [List.mem_singleton.mp new]
      exact place_self ..
  · intro other member
    have apart : other ≠ pid := ne_of_mem_of_not_mem member notSetting
    rw [System.suspend, place_other _ _ _ apart]
    exact sound.setting other member

/-- A setter that enters the set queue. -/
theorem QueuesSound.setterWaits (sound : QueuesSound s) {pid : Nat} (value : Int32)
    (running : ∀ point, s.process pid ≠ .suspended point) :
    QueuesSound ((s.withSetQueue (fenqueue s.future.setQueue pid)).suspend pid
      (.setSuspended value)) := by
  obtain ⟨notGetting, notSetting⟩ := sound.running running
  refine ⟨sound.inQueue, sound.notWaiting, sound.getters, ?_, ?_, ?_⟩
  · exact fenqueue_nodup sound.setters notSetting
  · intro other member
    have apart : other ≠ pid := ne_of_mem_of_not_mem member notGetting
    rw [System.suspend, place_other _ _ _ apart]
    exact sound.getting other member
  · intro other member
    rcases List.mem_append.mp member with old | new
    · have apart : other ≠ pid := ne_of_mem_of_not_mem old notSetting
      rw [System.suspend, place_other _ _ _ apart]
      exact sound.setting other old
    · rw [List.mem_singleton.mp new]
      exact ⟨value, place_self ..⟩

/-- A process outside of both queues that moves. -/
theorem QueuesSound.place (sound : QueuesSound s) {pid : Nat} (process : Process)
    (running : ∀ point, s.process pid ≠ .suspended point) : QueuesSound (s.place pid process) := by
  obtain ⟨notGetting, notSetting⟩ := sound.running running
  refine ⟨sound.inQueue, sound.notWaiting, sound.getters, sound.setters, ?_, ?_⟩
  · intro other member
    have apart : other ≠ pid := ne_of_mem_of_not_mem member notGetting
    rw [place_other _ _ _ apart]
    exact sound.getting other member
  · intro other member
    have apart : other ≠ pid := ne_of_mem_of_not_mem member notSetting
    rw [place_other _ _ _ apart]
    exact sound.setting other member

/-- The first setter leaves the set queue and is resumed. -/
theorem QueuesSound.release (sound : QueuesSound s) {target : Nat} {queue : List Nat}
    (waiting : s.future.setQueue = target :: queue) :
    QueuesSound ((s.withSetQueue queue).resume target) := by
  have distinct := sound.setters
  rw [waiting] at distinct
  obtain ⟨kept, suspended⟩ := sound.setting target (waiting ▸ List.mem_cons_self)
  have future : ((s.withSetQueue queue).resume target).future = (s.withSetQueue queue).future :=
    resume_future ..
  refine ⟨?_, ?_, ?_, ?_, ?_, ?_⟩
  · rw [future]
    exact sound.inQueue
  · rw [future]
    exact sound.notWaiting
  · rw [future]
    exact sound.getters
  · rw [future]
    exact (List.nodup_cons.mp distinct).2
  · intro other member
    rw [future] at member
    have isGetter := sound.getting other member
    have apart : other ≠ target := by
      rintro rfl
      cases isGetter.symm.trans suspended
    rw [resume_other _ _ apart]
    exact isGetter
  · intro other member
    rw [future] at member
    rw [resume_other _ _ (ne_of_nodup_cons distinct member)]
    exact sound.setting other (waiting ▸ List.mem_cons_of_mem _ member)

/-- The first getter leaves the get queue and is resumed. -/
theorem QueuesSound.wake (sound : QueuesSound s) {target : Nat} {queue : List Nat}
    (waiting : s.future.getQueue = target :: queue) :
    QueuesSound ((s.withGetQueue queue).resume target) := by
  have distinct := sound.getters
  rw [waiting] at distinct
  have suspended := sound.getting target (waiting ▸ List.mem_cons_self)
  have future : ((s.withGetQueue queue).resume target).future = (s.withGetQueue queue).future :=
    resume_future ..
  refine ⟨?_, ?_, ?_, ?_, ?_, ?_⟩
  · rw [future]
    exact sound.inQueue
  · rw [future]
    exact sound.notWaiting
  · rw [future]
    exact (List.nodup_cons.mp distinct).2
  · rw [future]
    exact sound.setters
  · intro other member
    rw [future] at member
    rw [resume_other _ _ (ne_of_nodup_cons distinct member)]
    exact sound.getting other (waiting ▸ List.mem_cons_of_mem _ member)
  · intro other member
    rw [future] at member
    obtain ⟨value, isSetter⟩ := sound.setting other member
    have apart : other ≠ target := by
      rintro rfl
      cases isSetter.symm.trans suspended
    rw [resume_other _ _ apart]
    exact ⟨value, isSetter⟩

theorem QueuesSound.withState (sound : QueuesSound s) {state : FutureState}
    (allowed : state ≠ .waiting) : QueuesSound (s.withState state) :=
  ⟨sound.inQueue, allowed, sound.getters, sound.setters, sound.getting, sound.setting⟩

theorem QueuesSound.withValue (sound : QueuesSound s) (value : Int32) :
    QueuesSound (s.withValue value) :=
  ⟨sound.inQueue, sound.notWaiting, sound.getters, sound.setters, sound.getting, sound.setting⟩

/-- Every step keeps the queues sound. -/
theorem QueuesSound.step (sound : QueuesSound s) (taken : QueueStep s move output t) :
    QueuesSound t := by
  cases taken with
  | releases pid target queue idle waiting =>
    have running : ∀ point, ((s.withSetQueue queue).resume target).process pid ≠ .suspended point :=
      fun point suspended => by
        cases idle.symm.trans (resume_suspended _ _ suspended).2
    exact (sound.release waiting).place _ running
  | waits pid move tests isEmpty => exact sound.waits tests.running
  | takes pid move taker =>
    have running : ∀ point, s.process pid ≠ .suspended point := by
      rcases taker with ⟨tests, _⟩ | ⟨_, isReady⟩
      · exact tests.running
      · simp [isReady]
    exact (sound.withState (by decide)).place _ running
  | setterWaits pid value idle nobody => exact sound.setterWaits value (by simp [idle])
  | fills pid value move target queue filler waiting =>
    have filled : QueuesSound ((s.withValue value).withState .ready) :=
      (sound.withValue value).withState (by decide)
    refine (filled.wake waiting).place _ fun point suspended => ?_
    exact filler.running point (resume_suspended _ _ suspended).2
  | returns pid value resumed => exact sound.place _ (by simp [resumed])

theorem queues_sound_of_allocated (value : Int32) (pid : Nat) :
    QueuesSound (allocated .queue value pid) :=
  ⟨rfl, by simp [allocated, futureAlloc], List.nodup_nil, List.nodup_nil,
    by simp [allocated, futureAlloc], by simp [allocated, futureAlloc]⟩

end Steps

/-- While the future is ready, nobody takes the value but the getter that was resumed,
and nobody replaces it. -/
def SlotKept (s : System) : Move → Prop
  | .start _ .get => s.future.state = .ready → s.future.setQueue ≠ []
  | .start _ (.set _) => s.future.state = .ready → s.future.getQueue = []
  | .goOn pid => s.future.state = .ready → s.process pid ≠ .ready .getResumed ∧
    ∀ value, s.process pid ≠ .ready (.setSuspended value)

/-- Between two values. -/
structure SlotEmpty (s : System) (history : List Effect) : Prop where
  isEmpty : s.future.state = .empty
  values : acceptedValues history = deliveredValues history
  nobody : ∀ pid, s.process pid ≠ .ready .getSuspended
  served : takers history ++ s.future.getQueue = waitingGetters history

/-- A value stands in the future for the one getter that was resumed. -/
structure SlotFull (s : System) (history : List Effect) (getter : Nat) : Prop where
  isReady : s.future.state = .ready
  values : acceptedValues history = deliveredValues history ++ [s.future.value]
  only : ∀ pid, s.process pid = .ready .getSuspended ↔ pid = getter
  served : takers history ++ getter :: s.future.getQueue = waitingGetters history

/-- One for a setter that has put its value in and has not returned yet. -/
def finishing : Process → Nat
  | .ready (.setResumed _) => 1
  | _ => 0

/-- The setters that were resumed are the first ones that waited, and every setter that
returns has put a value in. -/
structure SettersServed (s : System) (history : List Effect) : Prop where
  released : releasedSetters history ++ s.future.setQueue = waitingSetters history
  returned : ∀ pid, (acceptedSetters history).count pid =
    (returnedSetters history).count pid + finishing (s.process pid)

/-- Values, getters and setters are paired. -/
structure QueueHolds (s : System) (history : List Effect) : Prop where
  sound : QueuesSound s
  slot : SlotEmpty s history ∨ ∃ getter, SlotFull s history getter
  setters : SettersServed s history

section Pairing

variable {s t : System} {move : Move} {output history : List Effect}

theorem finishing_place (s : System) (pid other : Nat) (process : Process) :
    finishing ((s.place pid process).process other) =
      if other = pid then finishing process else finishing (s.process other) := by
  split
  case isTrue same => rw [same, place_self]
  case isFalse apart => rw [place_other _ _ _ apart]

/-- A process that moves and neither puts a value in nor returns. -/
theorem finishing_kept (s : System) (pid other : Nat) (process : Process)
    (same : finishing process = finishing (s.process pid)) :
    finishing ((s.place pid process).process other) = finishing (s.process other) := by
  rw [finishing_place]
  split
  case isTrue isPid => rw [same, isPid]
  case isFalse => rfl

/-- A resumed process has not put its value in. -/
theorem finishing_resume {target : Nat} (other : Nat)
    (notDone : ∀ value, s.process target ≠ .suspended (.setResumed value)) :
    finishing ((s.resume target).process other) = finishing (s.process other) := by
  rcases eq_or_ne other target with rfl | apart
  · unfold System.resume
    split
    case h_1 point suspended =>
      rw [place_self, suspended]
      cases point with
      | setResumed value => exact absurd suspended (notDone value)
      | _ => rfl
    · rfl
    · rfl
  · rw [resume_other _ _ apart]

/-- The setters that a step moves. -/
theorem SettersServed.next (served : SettersServed s history)
    (queue : s.future.setQueue ++ waitingSetters output = releasedSetters output ++ t.future.setQueue)
    (counts : ∀ pid, (acceptedSetters output).count pid + finishing (s.process pid) =
      (returnedSetters output).count pid + finishing (t.process pid)) :
    SettersServed t (history ++ output) := by
  refine ⟨?_, fun pid => ?_⟩
  · rw [releasedSetters_append, waitingSetters_append, ← served.released, List.append_assoc,
      ← queue, List.append_assoc]
  · rw [acceptedSetters_append, returnedSetters_append, List.count_append, List.count_append]
    have before := served.returned pid
    have here := counts pid
    lia

/-- Every step keeps the setters in order. -/
theorem SettersServed.step (sound : QueuesSound s) (served : SettersServed s history)
    (taken : QueueStep s move output t) : SettersServed t (history ++ output) := by
  cases taken with
  | releases pid target queue idle waiting =>
    obtain ⟨value, suspended⟩ := sound.setting target (waiting ▸ List.mem_cons_self)
    refine served.next ?_ fun other => ?_
    · rw [place_future, resume_future, waiting]
      exact List.append_nil _
    · have resumed : ∀ other, finishing (((s.withSetQueue queue).resume target).process other) =
          finishing (s.process other) := fun other => finishing_resume other (by simp [suspended])
      rw [finishing_kept, resumed]
      · rfl
      · rw [resumed, idle]
        rfl
  | waits pid move tests isEmpty =>
    refine served.next (List.append_nil _) fun other => ?_
    rw [System.suspend, finishing_kept]
    · rfl
    · rw [withGetQueue_process]
      rcases tests with ⟨_, idle, _⟩ | ⟨_, isReady⟩
      · rw [idle]
        rfl
      · rw [isReady]
        rfl
  | takes pid move taker =>
    refine served.next (List.append_nil _) fun other => ?_
    rw [finishing_kept]
    · rfl
    · rw [withState_process]
      rcases taker with ⟨⟨_, idle, _⟩ | ⟨_, isReady⟩, _⟩ | ⟨_, isReady⟩
      · rw [idle]
      · rw [isReady]
        rfl
      · rw [isReady]
        rfl
  | setterWaits pid value idle nobody =>
    refine served.next rfl fun other => ?_
    rw [System.suspend, finishing_kept]
    · rfl
    · rw [withSetQueue_process, idle]
      rfl
  | fills pid value move target queue filler waiting =>
    have suspended := sound.getting target (waiting ▸ List.mem_cons_self)
    refine served.next ?_ fun other => ?_
    · rw [place_future, resume_future]
      exact List.append_nil _
    · rw [finishing_place, finishing_resume other (by simp [suspended])]
      split
      case isTrue same =>
        subst same
        have nothing : finishing (s.process other) = 0 := by
          rcases filler with ⟨_, idle⟩ | ⟨_, isReady⟩
          · rw [idle]
            rfl
          · rw [isReady]
            rfl
        rw [nothing]
        simp [acceptedSetters, returnedSetters, collect, finishing]
      case isFalse apart =>
        simp [acceptedSetters, returnedSetters, collect, Ne.symm apart]
  | returns pid value resumed =>
    refine served.next (List.append_nil _) fun other => ?_
    rw [finishing_place]
    split
    case isTrue same =>
      subst same
      rw [resumed]
      simp [acceptedSetters, returnedSetters, collect, finishing]
    case isFalse apart =>
      simp [acceptedSetters, returnedSetters, collect, Ne.symm apart]

/-- A step that leaves the value and the getters alone. -/
theorem slot_kept (slot : SlotEmpty s history ∨ ∃ getter, SlotFull s history getter)
    (state : t.future.state = s.future.state) (value : t.future.value = s.future.value)
    (queue : t.future.getQueue = s.future.getQueue)
    (places : ∀ pid, t.process pid = .ready .getSuspended ↔ s.process pid = .ready .getSuspended)
    (nothing : acceptedValues output = [] ∧ deliveredValues output = [] ∧ takers output = [] ∧
      waitingGetters output = []) :
    SlotEmpty t (history ++ output) ∨ ∃ getter, SlotFull t (history ++ output) getter := by
  obtain ⟨noAccepted, noDelivered, noTakers, noWaiting⟩ := nothing
  rcases slot with empty | ⟨getter, full⟩
  · refine Or.inl ⟨state.trans empty.isEmpty, ?_, ?_, ?_⟩
    · rw [acceptedValues_append, deliveredValues_append, noAccepted, noDelivered, empty.values]
    · intro pid resumed
      exact empty.nobody pid ((places pid).mp resumed)
    · rw [takers_append, waitingGetters_append, noTakers, noWaiting, queue, List.append_nil,
        List.append_nil, empty.served]
  · refine Or.inr ⟨getter, state.trans full.isReady, ?_, ?_, ?_⟩
    · rw [acceptedValues_append, deliveredValues_append, noAccepted, noDelivered, value,
        List.append_nil, List.append_nil, full.values]
    · intro pid
      exact (places pid).trans (full.only pid)
    · rw [takers_append, waitingGetters_append, noTakers, noWaiting, queue, List.append_nil,
        List.append_nil, full.served]

/-- A process that moves between places that are not behind the `suspend` of a getter. -/
theorem place_getter {pid : Nat} {process : Process} (other : Nat)
    (before : s.process pid ≠ .ready .getSuspended) (after : process ≠ .ready .getSuspended) :
    (s.place pid process).process other = .ready .getSuspended ↔
      s.process other = .ready .getSuspended := by
  rcases eq_or_ne other pid with rfl | apart
  · rw [place_self]
    exact iff_of_false after before
  · rw [place_other _ _ _ apart]

/-- A setter that is resumed is no getter. -/
theorem resume_setter {target : Nat} {value : Int32} (other : Nat)
    (suspended : s.process target = .suspended (.setSuspended value)) :
    (s.resume target).process other = .ready .getSuspended ↔
      s.process other = .ready .getSuspended := by
  rw [System.resume, suspended]
  exact place_getter other (by simp [suspended]) (by simp)

/-- The resumed getter takes the value. -/
theorem SlotFull.takes {getter : Nat} (full : SlotFull s history getter) :
    SlotEmpty ((s.withState .empty).place getter .idle)
      (history ++ [.delivered getter s.future.value]) := by
  refine ⟨rfl, ?_, ?_, ?_⟩
  · rw [acceptedValues_append, deliveredValues_append, full.values]
    exact List.append_nil _
  · intro pid resumed
    obtain ⟨apart, before⟩ := place_ready (by simp) resumed
    exact apart ((full.only pid).mp before)
  · rw [takers_append, waitingGetters_append, ← full.served, List.append_assoc]
    exact (List.append_nil _).symm

/-- A getter enters the get queue. -/
theorem SlotEmpty.waits (empty : SlotEmpty s history) (pid : Nat) :
    SlotEmpty ((s.withGetQueue (fenqueue s.future.getQueue pid)).suspend pid .getSuspended)
      (history ++ [.getterWaits pid]) := by
  refine ⟨empty.isEmpty, ?_, ?_, ?_⟩
  · rw [acceptedValues_append, deliveredValues_append, empty.values]
    rfl
  · intro other resumed
    exact empty.nobody other (place_ready (by simp) resumed).2
  · rw [takers_append, waitingGetters_append, ← empty.served, List.append_assoc, List.append_assoc]
    rfl

/-- A value is put in for the first getter that waits. -/
theorem SlotEmpty.fills (empty : SlotEmpty s history) {pid target : Nat} {queue : List Nat}
    (value : Int32) (apart : target ≠ pid) (waiting : s.future.getQueue = target :: queue)
    (suspended : s.process target = .suspended .getSuspended) :
    SlotFull (((((s.withValue value).withState .ready).withGetQueue queue).resume target).place pid
      (.ready (.setResumed value)))
      (history ++ [.accepted pid value, .getterWoken target value]) target := by
  have future : (((((s.withValue value).withState .ready).withGetQueue queue).resume target).place
      pid (.ready (.setResumed value))).future =
      (((s.withValue value).withState .ready).withGetQueue queue).future := by
    rw [place_future, resume_future]
  refine ⟨?_, ?_, ?_, ?_⟩
  · rw [future]
    rfl
  · rw [future, acceptedValues_append, deliveredValues_append, empty.values, List.append_assoc]
    rfl
  · intro other
    constructor
    · intro resumed
      obtain ⟨_, before⟩ := place_ready (by simp) resumed
      rcases resume_ready _ _ before with ⟨same, _⟩ | old
      · exact same
      · exact absurd old (empty.nobody other)
    · rintro rfl
      rw [place_other _ _ _ apart, System.resume, withGetQueue_process, withState_process,
        withValue_process, suspended]
      exact place_self ..
  · rw [future, takers_append, waitingGetters_append, ← empty.served, waiting, List.append_assoc]
    exact (List.append_nil _).symm

/-- A step that keeps to the condition moves the value from a setter to the getter that
waited longest. -/
theorem slot_step (sound : QueuesSound s)
    (slot : SlotEmpty s history ∨ ∃ getter, SlotFull s history getter) (kept : SlotKept s move)
    (taken : QueueStep s move output t) :
    SlotEmpty t (history ++ output) ∨ ∃ getter, SlotFull t (history ++ output) getter := by
  cases taken with
  | releases pid target queue idle waiting =>
    obtain ⟨value, suspended⟩ := sound.setting target (waiting ▸ List.mem_cons_self)
    have apart : pid ≠ target := by
      rintro rfl
      cases idle.symm.trans suspended
    refine slot_kept slot ?_ ?_ ?_ (fun other => ?_) ⟨rfl, rfl, rfl, rfl⟩
    · rw [place_future, resume_future]
      rfl
    · rw [place_future, resume_future]
      rfl
    · rw [place_future, resume_future]
      rfl
    · have notGetter : ((s.withSetQueue queue).resume target).process pid ≠ .ready .getSuspended := by
        rw [resume_other _ _ apart, withSetQueue_process, idle]
        simp
      exact (place_getter other notGetter (by simp)).trans (resume_setter other suspended)
  | waits pid move tests isEmpty =>
    rcases slot with empty | ⟨getter, full⟩
    · exact Or.inl (empty.waits pid)
    · cases isEmpty.symm.trans full.isReady
  | takes pid move taker =>
    rcases taker with ⟨tests, notEmpty⟩ | ⟨_, resumed⟩
    · rcases slot with empty | ⟨getter, full⟩
      · exact absurd empty.isEmpty notEmpty
      · rcases tests with ⟨rfl, _, nobody⟩ | ⟨rfl, resumed⟩
        · exact absurd nobody (kept full.isReady)
        · exact absurd resumed (kept full.isReady).1
    · rcases slot with empty | ⟨getter, full⟩
      · exact absurd resumed (empty.nobody pid)
      · rw [(full.only pid).mp resumed]
        exact Or.inl full.takes
  | setterWaits pid value idle nobody =>
    exact slot_kept slot rfl rfl rfl
      (fun other => place_getter other (by simp [idle]) (by simp)) ⟨rfl, rfl, rfl, rfl⟩
  | fills pid value move target queue filler waiting =>
    rcases slot with empty | ⟨getter, full⟩
    · have suspended := sound.getting target (waiting ▸ List.mem_cons_self)
      have apart : target ≠ pid := by
        rintro rfl
        exact filler.running _ suspended
      exact Or.inr ⟨target, empty.fills value apart waiting suspended⟩
    · rcases filler with ⟨rfl, _⟩ | ⟨rfl, resumed⟩
      · cases waiting.symm.trans (kept full.isReady)
      · exact absurd resumed ((kept full.isReady).2 value)
  | returns pid value resumed =>
    exact slot_kept slot rfl rfl rfl
      (fun other => place_getter other (by simp [resumed]) (by simp)) ⟨rfl, rfl, rfl, rfl⟩

end Pairing

/-- Setters and getters are paired: the values are delivered in the order in which they
were put in, each of them once, the getters are served and the setters released in the
order in which they started to wait, and nobody returns from `future_set` without having
put a value in. -/
structure Paired (s : System) (history : List Effect) : Prop where
  values : acceptedValues history = deliveredValues history ++
    if s.future.state = .ready then [s.future.value] else []
  getters : ∃ woken, woken.length ≤ 1 ∧
    takers history ++ woken ++ s.future.getQueue = waitingGetters history
  setters : releasedSetters history ++ s.future.setQueue = waitingSetters history
  returned : ∀ pid, (returnedSetters history).count pid ≤ (acceptedSetters history).count pid

theorem QueueHolds.paired {s : System} {history : List Effect} (holds : QueueHolds s history) :
    Paired s history := by
  have returned : ∀ pid, (returnedSetters history).count pid ≤ (acceptedSetters history).count pid := by
    intro pid
    rw [holds.setters.returned pid]
    exact Nat.le_add_right _ _
  rcases holds.slot with empty | ⟨getter, full⟩
  · refine ⟨?_, ⟨[], Nat.zero_le 1, ?_⟩, holds.setters.released, returned⟩
    · rw [empty.isEmpty, if_neg (by decide), List.append_nil, empty.values]
    · rw [List.append_nil, empty.served]
  · refine ⟨?_, ⟨[getter], Nat.le_refl 1, ?_⟩, holds.setters.released, returned⟩
    · rw [full.isReady, if_pos rfl, full.values]
    · rw [List.append_assoc, List.singleton_append, full.served]

/-- In every run in which nobody else reaches the value of the getter that was resumed,
setters and getters are paired. -/
theorem setters_and_getters_paired (value : Int32) (pid : Nat) (s : System)
    (events : List (Event System Move (List Effect)))
    (run : Run step (allocated .queue value pid) events s) (kept : Meets SlotKept events) :
    Paired s (effects events) := by
  have initial : QueueHolds (allocated .queue value pid) [] := by
    refine ⟨queues_sound_of_allocated value pid, Or.inl ⟨rfl, rfl, ?_, rfl⟩, rfl, fun _ => rfl⟩
    intro other impossible
    cases impossible
  have last := history_last QueueHolds (fun _ => SlotKept)
    (fun before move output after history holds kept completed => by
      have taken := queue_cases before after move output holds.sound.inQueue completed
      exact ⟨holds.sound.step taken, slot_step holds.sound holds.slot kept taken,
        holds.setters.step holds.sound taken⟩)
    _ _ _ run [] initial (meetsAfter_of_meets SlotKept _ _ kept)
  exact last.paired

/-- A setter waits, a getter releases it and gets its value. -/
theorem released_setter_is_paired : ∃ events s, Run step (allocated .queue 0 0) events s ∧
    deliveredValues (effects events) = [5] ∧ Paired s (effects events) := by
  have run : Run step (allocated .queue 0 0) _ _ := .taken _ (.start 1 (.set 5)) _ _ _ _ rfl
    (.taken _ (.start 2 .get) _ _ _ _ rfl (.taken _ (.goOn 2) _ _ _ _ rfl
      (.taken _ (.goOn 1) _ _ _ _ rfl (.taken _ (.goOn 2) _ _ _ _ rfl
        (.taken _ (.goOn 1) _ _ _ _ rfl (.done _))))))
  refine ⟨_, _, run, rfl, setters_and_getters_paired 0 0 _ _ run ?_⟩
  have notYet : FutureState.empty ≠ .ready := by decide
  have isGetter : ∀ value, Process.ready .getSuspended ≠ .ready (.setSuspended value) := by simp
  exact (meets_cons ..).mpr ⟨fun isReady => absurd isReady notYet,
    (meets_cons ..).mpr ⟨fun isReady => absurd isReady notYet,
      (meets_cons ..).mpr ⟨fun isReady => absurd isReady notYet,
        (meets_cons ..).mpr ⟨fun isReady => absurd isReady notYet,
          (meets_cons ..).mpr ⟨fun _ => ⟨by decide, isGetter⟩,
            (meets_cons ..).mpr ⟨fun isReady => absurd isReady notYet, by simp [Meets]⟩⟩⟩⟩⟩⟩

/-- A second getter takes the value before the getter that waited for it runs, and both
get it. -/
theorem value_is_taken_twice : ∃ events s, Run step (allocated .queue 0 0) events s ∧
    events.map Event.call =
      [.start 1 .get, .start 2 (.set 5), .goOn 2, .start 2 .get, .goOn 1] ∧
    acceptedValues (effects events) = [5] ∧ deliveredValues (effects events) = [5, 5] ∧
    ¬ Paired s (effects events) := by
  obtain ⟨events, s, run, passed⟩ := trace_exists step (allocated .queue 0 0)
    [.start 1 .get, .start 2 (.set 5), .goOn 2, .start 2 .get, .goOn 1]
    (fun events _ => events.map Event.call =
        [.start 1 .get, .start 2 (.set 5), .goOn 2, .start 2 .get, .goOn 1] ∧
      acceptedValues (effects events) = [5] ∧ deliveredValues (effects events) = [5, 5]) (by decide)
  obtain ⟨calls, once, twice⟩ := of_decide_eq_true passed
  refine ⟨events, s, run, calls, once, twice, ?_⟩
  intro paired
  have longer := congrArg List.length paired.values
  rw [once, twice, List.length_append] at longer
  have atLeastTwo : 2 ≤ ([5, 5] : List Int32).length + (if s.future.state = .ready then
      [s.future.value] else []).length := Nat.le_add_right 2 _
  rw [← longer] at atLeastTwo
  exact absurd atLeastTwo (by decide)

/-- A getter behind its `resume`, and a setter that was resumed and has not gone on. -/
def resuming : Process → Bool
  | .ready .getResumed => true
  | _ => false

def released : Process → Bool
  | .ready (.setSuspended _) => true
  | _ => false

/-- The number of processes of a kind. -/
noncomputable def System.number (s : System) (kind : Process → Bool) : Nat :=
  {pid | kind (s.process pid) = true}.ncard

/-- The getters that are left for the released setters. -/
noncomputable def System.getters (s : System) : Nat :=
  s.future.getQueue.length + s.number resuming

/-- A released setter goes on when some getter that resumed a setter has gone on, and a
getter is used up otherwise only where there are more getters than released setters. -/
def Undisturbed (s : System) : Move → Prop
  | .start _ .get => True
  | .start _ (.set _) => s.future.getQueue = [] ∨ s.number released < s.getters
  | .goOn pid =>
    (∀ value, s.process pid = .ready (.setSuspended value) →
      s.number resuming < s.number released) ∧
    (s.process pid = .ready .getResumed →
      s.future.state = .empty ∨ s.number released < s.getters)

/-- There is a getter for every released setter. -/
structure Covered (s : System) : Prop where
  sound : QueuesSound s
  finite : ∀ kind : Process → Bool, kind .idle = false →
    {pid | kind (s.process pid) = true}.Finite
  enough : s.number released ≤ s.getters

section Counting

variable {s t : System} {move : Move} {output : List Effect}

theorem finite_place (pid : Nat) (process : Process) (kind : Process → Bool)
    (finite : {other | kind (s.process other) = true}.Finite) :
    {other | kind ((s.place pid process).process other) = true}.Finite := by
  refine (finite.insert pid).subset ?_
  intro other member
  rcases eq_or_ne other pid with rfl | apart
  · exact Set.mem_insert _ _
  · refine Set.mem_insert_of_mem _ ?_
    rw [Set.mem_ofPred_eq, place_other _ _ _ apart] at member
    exact member

/-- One process moves. -/
theorem number_place (pid : Nat) (process : Process) (kind : Process → Bool)
    (finite : {other | kind (s.process other) = true}.Finite) :
    (s.place pid process).number kind + (kind (s.process pid)).toNat =
      s.number kind + (kind process).toNat := by
  have others : {other | kind ((s.place pid process).process other) = true} \ {pid} =
      {other | kind (s.process other) = true} \ {pid} := by
    ext other
    rcases eq_or_ne other pid with rfl | apart
    · simp
    · simp [apart, place_other s pid process apart]
  have split : ∀ u : System, {other | kind (u.process other) = true}.Finite →
      u.number kind = ({other | kind (u.process other) = true} \ {pid}).ncard +
        (kind (u.process pid)).toNat := by
    intro u finite
    cases member : kind (u.process pid) with
    | false =>
      rw [Set.sdiff_singleton_eq_self (by simp [member])]
      rfl
    | true => exact (Set.ncard_sdiff_singleton_add_one (by simp [member]) finite).symm
  rw [split _ (finite_place pid process kind finite), split s finite, others, place_self]
  lia

theorem resume_of_suspended {target : Nat} {point : Point}
    (suspended : s.process target = .suspended point) :
    s.resume target = s.place target (.ready point) := by
  rw [System.resume, suspended]

theorem number_of_nobody (kind : Process → Bool) (nobody : ∀ pid, kind (s.process pid) = false) :
    s.number kind = 0 := by
  have none : {pid | kind (s.process pid) = true} = ∅ := by
    ext pid
    simp [nobody pid]
  rw [System.number, none, Set.ncard_empty]

theorem number_of_one (kind : Process → Bool) (only : Nat)
    (isOnly : ∀ pid, kind (s.process pid) = true ↔ pid = only) : s.number kind = 1 := by
  have single : {pid | kind (s.process pid) = true} = {only} := by
    ext pid
    exact isOnly pid
  rw [System.number, single, Set.ncard_singleton]

/-- One process is resumed and another one moves. -/
theorem number_resume_place {pid target : Nat} {point : Point} (process : Process)
    (kind : Process → Bool) (finite : {other | kind (s.process other) = true}.Finite)
    (suspended : s.process target = .suspended point) (apart : pid ≠ target) :
    {other | kind (((s.resume target).place pid process).process other) = true}.Finite ∧
      ((s.resume target).place pid process).number kind + (kind (s.process pid)).toNat +
        (kind (.suspended point)).toNat =
      s.number kind + (kind process).toNat + (kind (.ready point)).toNat := by
  rw [resume_of_suspended suspended]
  have finiteBetween := finite_place target (.ready point) kind finite
  refine ⟨finite_place pid process kind finiteBetween, ?_⟩
  have first := number_place target (.ready point) kind finite
  have second := number_place pid process kind finiteBetween
  rw [suspended] at first
  rw [place_other _ _ _ apart] at second
  lia

/-- The getters still suffice when their number and that of the released setters change
by a move of one process. -/
theorem Covered.place {pid : Nat} {process : Process} (covered : Covered s)
    (sound : QueuesSound (t.place pid process)) (same : t.process = s.process)
    (enough : s.number released + (released process).toNat + (resuming (s.process pid)).toNat ≤
      t.future.getQueue.length + s.number resuming + (resuming process).toNat +
        (released (s.process pid)).toNat) : Covered (t.place pid process) := by
  have finite : ∀ kind : Process → Bool, kind .idle = false →
      {other | kind (t.process other) = true}.Finite := by
    rw [same]
    exact covered.finite
  refine ⟨sound, fun kind idle => finite_place pid process kind (finite kind idle), ?_⟩
  have setters := number_place pid process released (finite released rfl)
  have getters := number_place pid process resuming (finite resuming rfl)
  have numbers : ∀ kind, t.number kind = s.number kind := by
    intro kind
    rw [System.number, same]
    rfl
  rw [same, numbers] at setters getters
  rw [System.getters, place_future]
  lia

theorem covered_of_allocated (value : Int32) (pid : Nat) : Covered (allocated .queue value pid) := by
  refine ⟨queues_sound_of_allocated value pid, ?_, ?_⟩
  · intro kind idle
    have nobody : {other | kind ((allocated .queue value pid).process other) = true} = ∅ := by
      ext other
      simp [allocated, idle]
    rw [nobody]
    exact Set.finite_empty
  · rw [number_of_nobody released fun _ => rfl]
    exact Nat.zero_le _

/-- Every undisturbed step leaves a getter for every released setter. -/
theorem Covered.step (covered : Covered s) (undisturbed : Undisturbed s move)
    (taken : QueueStep s move output t) : Covered t := by
  have sound := covered.sound.step taken
  have enough := covered.enough
  rw [System.getters] at enough
  cases taken with
  | releases pid target queue idle waiting =>
    obtain ⟨value, suspended⟩ := covered.sound.setting target (waiting ▸ List.mem_cons_self)
    have apart : pid ≠ target := by
      rintro rfl
      cases idle.symm.trans suspended
    have moved := fun kind idle => number_resume_place (s := s.withSetQueue queue)
      (.ready .getResumed) kind (covered.finite kind idle) suspended apart
    refine ⟨sound, fun kind idle => (moved kind idle).1, ?_⟩
    have setters := (moved released rfl).2
    have getters := (moved resuming rfl).2
    rw [withSetQueue_process, idle] at setters getters
    simp only [released, resuming, Bool.toNat_true, Bool.toNat_false] at setters getters
    rw [System.getters, place_future, resume_future]
    have same : ∀ kind, (s.withSetQueue queue).number kind = s.number kind := fun _ => rfl
    have sameQueue : (s.withSetQueue queue).future.getQueue = s.future.getQueue := rfl
    rw [same] at setters getters
    rw [sameQueue]
    lia
  | waits pid move tests isEmpty =>
    refine covered.place sound rfl ?_
    have longer : (s.withGetQueue (fenqueue s.future.getQueue pid)).future.getQueue.length =
        s.future.getQueue.length + 1 := List.length_append
    rw [longer]
    rcases tests with ⟨_, idle, _⟩ | ⟨_, isReady⟩
    · rw [idle]
      simp only [released, resuming, Bool.toNat_false]
      lia
    · rw [isReady]
      simp only [released, resuming, Bool.toNat_true, Bool.toNat_false]
      lia
  | takes pid move taker =>
    refine covered.place sound rfl ?_
    have sameQueue : (s.withState .empty).future.getQueue = s.future.getQueue := rfl
    rw [sameQueue]
    rcases taker with ⟨⟨_, idle, _⟩ | ⟨rfl, isReady⟩, notEmpty⟩ | ⟨_, isReady⟩
    · rw [idle]
      simp only [released, resuming, Bool.toNat_false]
      omega
    · have spare := (undisturbed.2 isReady).resolve_left notEmpty
      rw [System.getters] at spare
      rw [isReady]
      simp only [released, resuming, Bool.toNat_true, Bool.toNat_false]
      lia
    · rw [isReady]
      simp only [released, resuming, Bool.toNat_false]
      omega
  | setterWaits pid value idle nobody =>
    refine covered.place sound rfl ?_
    have sameQueue : (s.withSetQueue (fenqueue s.future.setQueue pid)).future.getQueue =
        s.future.getQueue := rfl
    rw [sameQueue, idle]
    simp only [released, resuming, Bool.toNat_false]
    omega
  | fills pid value move target queue filler waiting =>
    have suspended := covered.sound.getting target (waiting ▸ List.mem_cons_self)
    have apart : pid ≠ target := by
      rintro rfl
      exact filler.running _ suspended
    have moved := fun kind idle => number_resume_place
      (s := ((s.withValue value).withState .ready).withGetQueue queue) (.ready (.setResumed value))
      kind (covered.finite kind idle) suspended apart
    refine ⟨sound, fun kind idle => (moved kind idle).1, ?_⟩
    have setters := (moved released rfl).2
    have getters := (moved resuming rfl).2
    have same : ∀ kind, (((s.withValue value).withState .ready).withGetQueue queue).number kind =
        s.number kind := fun _ => rfl
    rw [same, withGetQueue_process, withState_process, withValue_process] at setters getters
    have shorter : s.future.getQueue.length = queue.length + 1 := by
      rw [waiting]
      rfl
    have left : (((s.withValue value).withState .ready).withGetQueue queue).future.getQueue.length =
        queue.length := rfl
    rw [System.getters, place_future, resume_future, left]
    rcases filler with ⟨rfl, idle⟩ | ⟨rfl, isReady⟩
    · have spare := undisturbed.resolve_left (by simp [waiting])
      rw [System.getters] at spare
      rw [idle] at setters getters
      simp only [released, resuming, Bool.toNat_false] at setters getters
      lia
    · rw [isReady] at setters getters
      simp only [released, resuming, Bool.toNat_true, Bool.toNat_false] at setters getters
      lia
  | returns pid value resumed =>
    refine covered.place sound rfl ?_
    rw [resumed]
    simp only [released, resuming, Bool.toNat_false]
    omega

end Counting

/-- An idle process can begin a call and a ready one can go on. -/
def Enabled (s : System) : Move → Prop
  | .start pid _ => s.process pid = .idle
  | .goOn pid => ∃ point, s.process pid = .ready point

/-- Only a released setter can come to an empty queue. -/
theorem queue_progress (s : System) (move : Move) (inQueue : s.future.mode = .queue)
    (enabled : Enabled s move)
    (found : ∀ pid value, move = .goOn pid → s.process pid = .ready (.setSuspended value) →
      s.future.getQueue ≠ []) : ∃ output t, step s move = some (output, t) := by
  have fills : ∀ pid value, s.future.getQueue ≠ [] →
      ∃ output t, queueFill s pid value = some (output, t) := by
    intro pid value someGetter
    obtain ⟨target, queue, waiting⟩ := List.exists_cons_of_ne_nil someGetter
    simp [queueFill, System.withState, System.withValue, waiting, fdequeue]
  cases move with
  | start pid call =>
    have idle : s.process pid = .idle := enabled
    cases call with
    | get =>
      simp only [step, idle, futureGet, inQueue]
      split
      case isTrue someSetter =>
        obtain ⟨target, queue, waiting⟩ := List.exists_cons_of_ne_nil someSetter
        simp [waiting, fdequeue]
      case isFalse => exact ⟨_, _, rfl⟩
    | set value =>
      simp only [step, idle, futureSet, inQueue]
      split
      case isTrue => exact ⟨_, _, rfl⟩
      case isFalse someGetter => exact fills pid value someGetter
  | goOn pid =>
    obtain ⟨point, isReady⟩ := enabled
    simp only [step, isReady]
    cases point with
    | getSuspended =>
      simp only [proceed, inQueue]
      exact ⟨_, _, rfl⟩
    | getResumed =>
      simp only [proceed, inQueue]
      exact ⟨_, _, rfl⟩
    | setSuspended value =>
      simp only [proceed, inQueue]
      exact fills pid value (found pid value rfl isReady)
    | setResumed value =>
      simp only [proceed, inQueue]
      exact ⟨_, _, rfl⟩

/-- After every undisturbed run a released setter that goes on undisturbed finds a getter,
and no call dequeues from an empty queue. -/
theorem released_setter_finds_a_getter (value : Int32) (pid : Nat) (s : System)
    (events : List (Event System Move (List Effect)))
    (run : Run step (allocated .queue value pid) events s) (met : Meets Undisturbed events)
    (move : Move) (enabled : Enabled s move) (undisturbed : Undisturbed s move) :
    (∀ setter v, move = .goOn setter → s.process setter = .ready (.setSuspended v) →
      s.future.getQueue ≠ []) ∧ ∃ output t, step s move = some (output, t) := by
  have covered : Covered s := invariant_last Covered Undisturbed
    (fun before move output after covered undisturbed completed => covered.step undisturbed
      (queue_cases before after move output covered.sound.inQueue completed))
    _ _ _ run (covered_of_allocated value pid) met
  have found : ∀ setter v, move = .goOn setter → s.process setter = .ready (.setSuspended v) →
      s.future.getQueue ≠ [] := by
    rintro setter v rfl isReleased nobody
    have fewer := undisturbed.1 v isReleased
    have enough := covered.enough
    rw [System.getters, nobody, List.length_nil, Nat.zero_add] at enough
    exact absurd fewer (Nat.not_lt.mpr enough)
  exact ⟨found, queue_progress s move covered.sound.inQueue enabled found⟩

/-- The getter waits before the setter that it resumed goes on. -/
theorem setter_finds_the_second_process : ∃ events s, Run step (allocated .queue 0 0) events s ∧
    s.process 1 = .ready (.setSuspended 5) ∧
    ((∀ setter v, Move.goOn 1 = .goOn setter → s.process setter = .ready (.setSuspended v) →
      s.future.getQueue ≠ []) ∧ ∃ output t, step s (.goOn 1) = some (output, t)) := by
  have run : Run step (allocated .queue 0 0) _ _ := .taken _ (.start 1 (.set 5)) _ _ _ _ rfl
    (.taken _ (.start 2 .get) _ _ _ _ rfl (.taken _ (.goOn 2) _ _ _ _ rfl (.done _)))
  have isResuming : ∀ value, Process.ready .getResumed ≠ .ready (.setSuspended value) := by simp
  refine ⟨_, _, run, rfl, released_setter_finds_a_getter 0 0 _ _ run ?_ _ ⟨.setSuspended 5, rfl⟩ ?_⟩
  · exact (meets_cons ..).mpr ⟨Or.inl rfl, (meets_cons ..).mpr ⟨trivial, (meets_cons ..).mpr
      ⟨⟨fun value released => absurd released (isResuming value), fun _ => Or.inl rfl⟩,
        by simp [Meets]⟩⟩⟩
  · refine ⟨fun _ _ => ?_, fun isGetter => absurd isGetter (by decide)⟩
    refine lt_of_eq_of_lt (number_of_nobody resuming ?_)
      (lt_of_lt_of_eq Nat.zero_lt_one (number_of_one released 1 ?_).symm)
    · rintro (_ | _ | _ | other) <;> rfl
    · rintro (_ | _ | _ | other)
      · decide
      · decide
      · decide
      · exact iff_of_false Bool.false_ne_true (by lia)

/-- The setter goes on before the getter that resumed it waits. -/
theorem setter_finds_nobody : ∃ events s, Run step (allocated .queue 0 0) events s ∧
    events.map Event.call = [.start 1 (.set 5), .start 2 .get] ∧
    s.process 1 = .ready (.setSuspended 5) ∧ s.future.getQueue = [] ∧
    (step s (.goOn 1)).isNone := by
  obtain ⟨events, s, run, passed⟩ := trace_exists step (allocated .queue 0 0)
    [.start 1 (.set 5), .start 2 .get]
    (fun events s => events.map Event.call = [.start 1 (.set 5), .start 2 .get] ∧
      s.process 1 = .ready (.setSuspended 5) ∧ s.future.getQueue = [] ∧
      (step s (.goOn 1)).isNone) (by decide)
  exact ⟨events, s, run, of_decide_eq_true passed⟩

end Xinu.Futures
