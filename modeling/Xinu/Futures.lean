import Xinu.Runs

/-!
# Futures

A future is shared by any number of processes, each of which makes any calls of
`future_get` and `future_set`. The calls run with interrupts disabled, so another
process can run only where `suspend` or `resume` reschedules.

A step is what one process does up to its next `suspend` or `resume`, or up to the
end of its call. A suspended process takes no step until it is resumed. Which
process takes the next step depends on the priorities and is left open; where a
`resume` does not switch, the same process takes the next step too. Nobody else
resumes these processes, and the null process makes no call.

The queues of waiting processes are lists, whose nodes are granted. The local copy of a
setter's value is part of the point at which it continues. Each step reports its effects
in the order in which they happen.
-/

namespace Xinu.Futures

open Runs

/-- `future_mode_t`, with one constructor for all other numbers. -/
inductive FutureMode where
  | exclusive
  | shared
  | queue
  | other
deriving DecidableEq

/-- `future_state_t`. -/
inductive FutureState where
  | empty
  | waiting
  | ready
deriving DecidableEq

/-- `future_t`. -/
structure Future where
  value : Int32
  state : FutureState
  mode : FutureMode
  pid : Nat
  setQueue : List Nat
  getQueue : List Nat

/-- Where a process goes on inside of a call: behind the `suspend` or the `resume` of
`future_get`, or behind those of `future_set`. -/
inductive Point where
  | getSuspended
  | getResumed
  | setSuspended (value : Int32)
  | setResumed (value : Int32)
deriving DecidableEq

/-- A process outside of all calls, a suspended one, and one that can go on. -/
inductive Process where
  | idle
  | suspended (point : Point)
  | ready (point : Point)
deriving DecidableEq

/-- A future and the processes that use it. -/
structure System where
  future : Future
  process : Nat → Process

/-- What a step does: a process starts to wait, a waiting setter is resumed, a value is
put into the future, a waiting getter is resumed by the `future_set` of a value, a
`future_get` stores a value and returns `OK`, and the other returns. -/
inductive Effect where
  | getterWaits (pid : Nat)
  | setterWaits (pid : Nat)
  | setterReleased (pid : Nat)
  | accepted (pid : Nat) (value : Int32)
  | getterWoken (pid : Nat) (value : Int32)
  | delivered (pid : Nat) (value : Int32)
  | getRefused (pid : Nat)
  | setReturned (pid : Nat)
  | setRefused (pid : Nat)
deriving DecidableEq

/-- A process at another place. -/
def System.place (s : System) (pid : Nat) (process : Process) : System :=
  { s with process := Function.update s.process pid process }

/-- The future with another state, another value, or other queues. -/
def System.withState (s : System) (state : FutureState) : System :=
  { s with future := { s.future with state := state } }

def System.withValue (s : System) (value : Int32) : System :=
  { s with future := { s.future with value := value } }

def System.withPid (s : System) (pid : Nat) : System :=
  { s with future := { s.future with pid := pid } }

def System.withSetQueue (s : System) (queue : List Nat) : System :=
  { s with future := { s.future with setQueue := queue } }

def System.withGetQueue (s : System) (queue : List Nat) : System :=
  { s with future := { s.future with getQueue := queue } }

/-- `fenqueue`. -/
def fenqueue (queue : List Nat) (pid : Nat) : List Nat := queue ++ [pid]

/-- `fdequeue`, which reads through the head of the queue. -/
def fdequeue : List Nat → Option (Nat × List Nat)
  | [] => none
  | pid :: queue => some (pid, queue)

/-- `suspend` of the current process. -/
def System.suspend (s : System) (pid : Nat) (point : Point) : System :=
  s.place pid (.suspended point)

/-- `resume`, which does nothing to a process that is not suspended. -/
def System.resume (s : System) (pid : Nat) : System :=
  match s.process pid with
  | .suspended point => s.place pid (.ready point)
  | .idle | .ready _ => s

/-- The test of an exclusive `future_get` for a value. -/
def exclusiveTake (s : System) (pid : Nat) : List Effect × System :=
  if s.future.state = .ready then
    ([.delivered pid s.future.value], (s.withState .empty).place pid .idle)
  else ([.getRefused pid], s.place pid .idle)

/-- The end of a shared `future_get`. -/
def sharedTake (s : System) (pid : Nat) : List Effect × System :=
  ([.delivered pid s.future.value],
    (if s.future.getQueue = [] then s.withState .empty else s).place pid .idle)

/-- The end of a `future_get` in queue mode. -/
def queueTake (s : System) (pid : Nat) : List Effect × System :=
  ([.delivered pid s.future.value], (s.withState .empty).place pid .idle)

/-- The part of a `future_get` in queue mode behind the test of the set queue. -/
def queueTest (s : System) (pid : Nat) : List Effect × System :=
  if s.future.state = .empty then
    ([.getterWaits pid],
      (s.withGetQueue (fenqueue s.future.getQueue pid)).suspend pid .getSuspended)
  else queueTake s pid

/-- `future_get`. -/
def futureGet (s : System) (pid : Nat) : Option (List Effect × System) :=
  match s.future.mode with
  | .exclusive =>
    if s.future.state = .empty then
      some ([.getterWaits pid], ((s.withPid pid).withState .waiting).suspend pid .getSuspended)
    else some (exclusiveTake s pid)
  | .shared =>
    if s.future.state ≠ .ready then
      some ([.getterWaits pid], ((s.withState .waiting).withGetQueue
        (fenqueue s.future.getQueue pid)).suspend pid .getSuspended)
    else some (sharedTake s pid)
  | .queue =>
    if s.future.setQueue ≠ [] then do
      let (target, queue) ← fdequeue s.future.setQueue
      some ([.setterReleased target],
        ((s.withSetQueue queue).resume target).place pid (.ready .getResumed))
    else some (queueTest s pid)
  | .other => some ([.getRefused pid], s)

/-- The loop of a shared `future_set`: one more getter is resumed, or the call ends. -/
def wakeGetters (s : System) (pid : Nat) (value : Int32) : List Effect × System :=
  match s.future.getQueue with
  | [] => ([.setReturned pid], s.place pid .idle)
  | target :: queue =>
    ([.getterWoken target value],
      ((s.withGetQueue queue).resume target).place pid (.ready (.setResumed value)))

/-- The end of a `future_set` in queue mode. -/
def queueFill (s : System) (pid : Nat) (value : Int32) : Option (List Effect × System) := do
  let s := (s.withValue value).withState .ready
  let (target, queue) ← fdequeue s.future.getQueue
  some ([.accepted pid value, .getterWoken target value],
    ((s.withGetQueue queue).resume target).place pid (.ready (.setResumed value)))

/-- `future_set`. -/
def futureSet (s : System) (pid : Nat) (value : Int32) : Option (List Effect × System) :=
  match s.future.mode with
  | .exclusive =>
    match s.future.state with
    | .empty => some ([.accepted pid value, .setReturned pid], (s.withValue value).withState .ready)
    | .waiting =>
      some ([.accepted pid value, .getterWoken s.future.pid value],
        (((s.withValue value).withState .ready).resume s.future.pid).place pid
          (.ready (.setResumed value)))
    | .ready => some ([.setRefused pid], s)
  | .shared =>
    if s.future.state ≠ .ready then
      let (effects, s) := wakeGetters ((s.withValue value).withState .ready) pid value
      some (.accepted pid value :: effects, s)
    else some ([.setRefused pid], s)
  | .queue =>
    if s.future.getQueue = [] then
      some ([.setterWaits pid],
        (s.withSetQueue (fenqueue s.future.setQueue pid)).suspend pid (.setSuspended value))
    else queueFill s pid value
  | .other => some ([.setRefused pid], s)

/-- What a process does when it goes on inside of a call. Not every point belongs to
every mode. -/
def proceed (s : System) (pid : Nat) : Point → Option (List Effect × System)
  | .getSuspended =>
    match s.future.mode with
    | .exclusive => some (exclusiveTake s pid)
    | .shared => some (sharedTake s pid)
    | .queue => some (queueTake s pid)
    | .other => none
  | .getResumed =>
    match s.future.mode with
    | .queue => some (queueTest s pid)
    | .exclusive | .shared | .other => none
  | .setSuspended value =>
    match s.future.mode with
    | .queue => queueFill s pid value
    | .exclusive | .shared | .other => none
  | .setResumed value =>
    match s.future.mode with
    | .shared => some (wakeGetters s pid value)
    | .exclusive | .queue => some ([.setReturned pid], s.place pid .idle)
    | .other => none

/-- The two calls. -/
inductive Call where
  | get
  | set (value : Int32)
deriving DecidableEq

/-- A process that begins a call, or goes on inside of one. -/
inductive Move where
  | start (pid : Nat) (call : Call)
  | goOn (pid : Nat)
deriving DecidableEq

/-- One step. Only an idle process begins a call and only a ready one goes on. -/
def step (s : System) : Move → Option (List Effect × System)
  | .start pid call =>
    match s.process pid, call with
    | .idle, .get => futureGet s pid
    | .idle, .set value => futureSet s pid value
    | _, _ => none
  | .goOn pid =>
    match s.process pid with
    | .ready point => proceed s pid point
    | .idle | .suspended _ => none

/-- `future_alloc`. The value and the process number are not set. -/
def futureAlloc (mode : FutureMode) (value : Int32) (pid : Nat) : Future :=
  ⟨value, .empty, mode, pid, [], []⟩

/-- A new future that no process uses. -/
def allocated (mode : FutureMode) (value : Int32) (pid : Nat) : System :=
  ⟨futureAlloc mode value pid, fun _ => .idle⟩

/-- A process enters a queue only once. -/
theorem fenqueue_nodup {queue : List Nat} {pid : Nat} (distinct : queue.Nodup)
    (fresh : pid ∉ queue) : (fenqueue queue pid).Nodup := by
  refine List.nodup_append.mpr ⟨distinct, List.nodup_singleton pid, ?_⟩
  rintro other member _ last rfl
  exact fresh (List.mem_singleton.mp last ▸ member)

section Fields

variable (s : System) (pid : Nat) (process : Process) (state : FutureState) (value : Int32)
  (queue : List Nat)

@[simp] theorem place_future : (s.place pid process).future = s.future := rfl

@[simp] theorem place_self : (s.place pid process).process pid = process :=
  Function.update_self ..

theorem place_other {other : Nat} (different : other ≠ pid) :
    (s.place pid process).process other = s.process other := Function.update_of_ne different ..

/-- A process that is ready or suspended beside the place another one was put at. -/
theorem place_ready {s : System} {pid other : Nat} {process : Process} {point : Point}
    (different : process ≠ .ready point)
    (isReady : (s.place pid process).process other = .ready point) :
    other ≠ pid ∧ s.process other = .ready point := by
  rcases eq_or_ne other pid with rfl | apart
  · rw [place_self] at isReady
    exact absurd isReady different
  · rw [place_other _ _ _ apart] at isReady
    exact ⟨apart, isReady⟩

theorem place_suspended {s : System} {pid other : Nat} {process : Process} {point : Point}
    (different : process ≠ .suspended point)
    (suspended : (s.place pid process).process other = .suspended point) :
    other ≠ pid ∧ s.process other = .suspended point := by
  rcases eq_or_ne other pid with rfl | apart
  · rw [place_self] at suspended
    exact absurd suspended different
  · rw [place_other _ _ _ apart] at suspended
    exact ⟨apart, suspended⟩

@[simp] theorem resume_future : (s.resume pid).future = s.future := by
  unfold System.resume
  split <;> rfl

theorem resume_other {other : Nat} (different : other ≠ pid) :
    (s.resume pid).process other = s.process other := by
  unfold System.resume
  split
  · exact place_other s pid _ different
  · rfl
  · rfl

/-- A process that is ready after a `resume` was ready or has been resumed. -/
theorem resume_ready {other : Nat} {point : Point}
    (isReady : (s.resume pid).process other = .ready point) :
    (other = pid ∧ s.process other = .suspended point) ∨ s.process other = .ready point := by
  rcases eq_or_ne other pid with rfl | apart
  · unfold System.resume at isReady
    split at isReady
    case h_1 old place =>
      rw [place_self] at isReady
      cases isReady
      exact Or.inl ⟨rfl, place⟩
    · exact Or.inr isReady
    · exact Or.inr isReady
  · rw [resume_other _ _ apart] at isReady
    exact Or.inr isReady

/-- A process that is suspended after a `resume` is another one. -/
theorem resume_suspended {other : Nat} {point : Point}
    (suspended : (s.resume pid).process other = .suspended point) :
    other ≠ pid ∧ s.process other = .suspended point := by
  rcases eq_or_ne other pid with rfl | apart
  · unfold System.resume at suspended
    split at suspended
    · rw [place_self] at suspended
      cases suspended
    case h_2 place => cases place.symm.trans suspended
    case h_3 old place => cases place.symm.trans suspended
  · rw [resume_other _ _ apart] at suspended
    exact ⟨apart, suspended⟩

@[simp] theorem withState_process : (s.withState state).process = s.process := rfl
@[simp] theorem withValue_process : (s.withValue value).process = s.process := rfl
@[simp] theorem withSetQueue_process : (s.withSetQueue queue).process = s.process := rfl
@[simp] theorem withGetQueue_process : (s.withGetQueue queue).process = s.process := rfl

end Fields

/-- The effects of a run, in their order. -/
def effects (events : List (Event System Move (List Effect))) : List Effect :=
  events.flatMap Event.reply

/-- What a question asks of each effect of a history, in their order. -/
def collect {α : Type} (question : Effect → Option α) (history : List Effect) : List α :=
  history.filterMap question

theorem collect_append {α : Type} (question : Effect → Option α) (history output : List Effect) :
    collect question (history ++ output) = collect question history ++ collect question output :=
  List.filterMap_append

/-- The values put in. -/
def acceptedValues : List Effect → List Int32 :=
  collect fun
    | .accepted _ value => some value
    | _ => none

/-- The values taken out, and the processes that took them. -/
def deliveredValues : List Effect → List Int32 :=
  collect fun
    | .delivered _ value => some value
    | _ => none

def takers : List Effect → List Nat :=
  collect fun
    | .delivered pid _ => some pid
    | _ => none

/-- The getters that started to wait, and those that were resumed. -/
def waitingGetters : List Effect → List Nat :=
  collect fun
    | .getterWaits pid => some pid
    | _ => none

def wokenGetters : List Effect → List Nat :=
  collect fun
    | .getterWoken pid _ => some pid
    | _ => none

/-- The setters that started to wait, and those that were resumed. -/
def waitingSetters : List Effect → List Nat :=
  collect fun
    | .setterWaits pid => some pid
    | _ => none

def releasedSetters : List Effect → List Nat :=
  collect fun
    | .setterReleased pid => some pid
    | _ => none

/-- The setters that put a value in, and those that returned `OK`. -/
def acceptedSetters : List Effect → List Nat :=
  collect fun
    | .accepted pid _ => some pid
    | _ => none

def returnedSetters : List Effect → List Nat :=
  collect fun
    | .setReturned pid => some pid
    | _ => none

section Histories

variable (history output : List Effect)

theorem acceptedValues_append :
    acceptedValues (history ++ output) = acceptedValues history ++ acceptedValues output :=
  collect_append ..

theorem deliveredValues_append :
    deliveredValues (history ++ output) = deliveredValues history ++ deliveredValues output :=
  collect_append ..

theorem takers_append :
    takers (history ++ output) = takers history ++ takers output :=
  collect_append ..

theorem waitingGetters_append :
    waitingGetters (history ++ output) = waitingGetters history ++ waitingGetters output :=
  collect_append ..

theorem wokenGetters_append :
    wokenGetters (history ++ output) = wokenGetters history ++ wokenGetters output :=
  collect_append ..

theorem waitingSetters_append :
    waitingSetters (history ++ output) = waitingSetters history ++ waitingSetters output :=
  collect_append ..

theorem releasedSetters_append :
    releasedSetters (history ++ output) = releasedSetters history ++ releasedSetters output :=
  collect_append ..

theorem acceptedSetters_append :
    acceptedSetters (history ++ output) = acceptedSetters history ++ acceptedSetters output :=
  collect_append ..

theorem returnedSetters_append :
    returnedSetters (history ++ output) = returnedSetters history ++ returnedSetters output :=
  collect_append ..

end Histories

end Xinu.Futures
