import Xinu.Futures

/-!
# Exclusive futures

One value is in the future at a time: a `future_set` is accepted only where there is
none, and a `future_get` that finds one takes it. The values are therefore delivered
in the order in which they are accepted, whatever the schedule is.

A getter that waits is woken by the `future_set` that puts a value in, and tests the
state again when it runs. Until then the future is ready for everybody, and another
`future_get` can take the value. The woken getter then finds no value and fails. It
gets the value it was woken for if no `future_get` begins before it runs.
-/

namespace Xinu.Futures

open Runs

/-- The value in a future that is ready. -/
def System.pending (s : System) : List Int32 :=
  if s.future.state = .ready then [s.future.value] else []

/-- What a step on an exclusive future can do. -/
inductive ExclusiveStep (s : System) : Move → List Effect → System → Prop where
  | waits (pid : Nat) (idle : s.process pid = .idle) (isEmpty : s.future.state = .empty) :
      ExclusiveStep s (.start pid .get) [.getterWaits pid]
        (((s.withPid pid).withState .waiting).suspend pid .getSuspended)
  | takes (pid : Nat) (move : Move)
      (taker : (move = .start pid .get ∧ s.process pid = .idle) ∨
        (move = .goOn pid ∧ s.process pid = .ready .getSuspended))
      (isReady : s.future.state = .ready) :
      ExclusiveStep s move [.delivered pid s.future.value] ((s.withState .empty).place pid .idle)
  | fails (pid : Nat) (move : Move)
      (taker : (move = .start pid .get ∧ s.process pid = .idle) ∨
        (move = .goOn pid ∧ s.process pid = .ready .getSuspended))
      (notReady : s.future.state ≠ .ready) :
      ExclusiveStep s move [.getRefused pid] (s.place pid .idle)
  | sets (pid : Nat) (value : Int32) (idle : s.process pid = .idle)
      (isEmpty : s.future.state = .empty) :
      ExclusiveStep s (.start pid (.set value)) [.accepted pid value, .setReturned pid]
        ((s.withValue value).withState .ready)
  | wakes (pid : Nat) (value : Int32) (idle : s.process pid = .idle)
      (isWaiting : s.future.state = .waiting) :
      ExclusiveStep s (.start pid (.set value))
        [.accepted pid value, .getterWoken s.future.pid value]
        ((((s.withValue value).withState .ready).resume s.future.pid).place pid
          (.ready (.setResumed value)))
  | refuses (pid : Nat) (value : Int32) (isReady : s.future.state = .ready) :
      ExclusiveStep s (.start pid (.set value)) [.setRefused pid] s
  | returns (pid : Nat) (value : Int32) (resumed : s.process pid = .ready (.setResumed value)) :
      ExclusiveStep s (.goOn pid) [.setReturned pid] (s.place pid .idle)

/-- Every step on an exclusive future is one of these. -/
theorem exclusive_cases (s t : System) (move : Move) (output : List Effect)
    (exclusive : s.future.mode = .exclusive) (completed : step s move = some (output, t)) :
    ExclusiveStep s move output t := by
  cases move with
  | start pid call =>
    cases idle : s.process pid with
    | suspended point => simp [step, idle] at completed
    | ready point => simp [step, idle] at completed
    | idle =>
      cases call with
      | get =>
        simp only [step, idle, futureGet, exclusive] at completed
        split at completed
        case isTrue isEmpty =>
          cases Option.some.inj completed
          exact .waits pid idle isEmpty
        case isFalse notEmpty =>
          unfold exclusiveTake at completed
          split at completed
          case isTrue isReady =>
            cases Option.some.inj completed
            exact .takes pid _ (Or.inl ⟨rfl, idle⟩) isReady
          case isFalse notReady =>
            cases Option.some.inj completed
            exact .fails pid _ (Or.inl ⟨rfl, idle⟩) notReady
      | set value =>
        simp only [step, idle, futureSet, exclusive] at completed
        split at completed
        case h_1 isEmpty =>
          cases Option.some.inj completed
          exact .sets pid value idle isEmpty
        case h_2 isWaiting =>
          cases Option.some.inj completed
          exact .wakes pid value idle isWaiting
        case h_3 isReady =>
          cases Option.some.inj completed
          exact .refuses pid value isReady
  | goOn pid =>
    cases place : s.process pid with
    | idle => simp [step, place] at completed
    | suspended point => simp [step, place] at completed
    | ready point =>
      cases point with
      | getSuspended =>
        simp only [step, place, proceed, exclusive] at completed
        unfold exclusiveTake at completed
        split at completed
        case isTrue isReady =>
          cases Option.some.inj completed
          exact .takes pid _ (Or.inr ⟨rfl, place⟩) isReady
        case isFalse notReady =>
          cases Option.some.inj completed
          exact .fails pid _ (Or.inr ⟨rfl, place⟩) notReady
      | getResumed => simp [step, place, proceed, exclusive] at completed
      | setSuspended value => simp [step, place, proceed, exclusive] at completed
      | setResumed value =>
        simp only [step, place, proceed, exclusive] at completed
        cases Option.some.inj completed
        exact .returns pid value place

/-- All values put in are taken out in their order, up to the one in the future. -/
structure InOrder (s : System) (history : List Effect) : Prop where
  exclusive : s.future.mode = .exclusive
  order : acceptedValues history = deliveredValues history ++ s.pending

/-- What a step puts in and takes out is the change of the pending value. -/
theorem ExclusiveStep.balance {s t : System} {move : Move} {output : List Effect}
    (taken : ExclusiveStep s move output t) :
    t.future.mode = s.future.mode ∧
      s.pending ++ acceptedValues output = deliveredValues output ++ t.pending := by
  cases taken with
  | waits pid idle isEmpty =>
    refine ⟨rfl, ?_⟩
    rw [System.pending, System.pending, isEmpty]
    rfl
  | takes pid move taker isReady =>
    refine ⟨rfl, ?_⟩
    rw [System.pending, System.pending, if_pos isReady]
    rfl
  | fails pid move taker notReady => exact ⟨rfl, List.append_nil _⟩
  | sets pid value idle isEmpty =>
    refine ⟨rfl, ?_⟩
    rw [System.pending, System.pending, isEmpty]
    rfl
  | wakes pid value idle isWaiting =>
    have future : ((((s.withValue value).withState .ready).resume s.future.pid).place pid
        (.ready (.setResumed value))).future = ((s.withValue value).withState .ready).future := by
      rw [place_future, resume_future]
    rw [System.pending, System.pending, future, isWaiting]
    exact ⟨rfl, rfl⟩
  | refuses pid value isReady => exact ⟨rfl, List.append_nil _⟩
  | returns pid value resumed => exact ⟨rfl, List.append_nil _⟩

/-- One step keeps the order. -/
theorem InOrder.step {s t : System} {move : Move} {output : List Effect} {history : List Effect}
    (inOrder : InOrder s history) (taken : ExclusiveStep s move output t) :
    InOrder t (history ++ output) := by
  obtain ⟨sameMode, balance⟩ := taken.balance
  refine ⟨sameMode.trans inOrder.exclusive, ?_⟩
  rw [acceptedValues, deliveredValues, collect_append, collect_append, ← acceptedValues,
    ← deliveredValues, inOrder.order, List.append_assoc, balance, List.append_assoc]

/-- After every run the values delivered are the values accepted, in the same order, less
the last one where the future is ready. -/
theorem exclusive_values_in_order (value : Int32) (pid : Nat) (s : System)
    (events : List (Event System Move (List Effect)))
    (run : Run step (allocated .exclusive value pid) events s) :
    acceptedValues (effects events) = deliveredValues (effects events) ++
      if s.future.state = .ready then [s.future.value] else [] := by
  have initial : InOrder (allocated .exclusive value pid) [] := ⟨rfl, rfl⟩
  have last := history_last InOrder (fun _ _ _ => True)
    (fun before move output after history inOrder _ completed =>
      inOrder.step (exclusive_cases before after move output inOrder.exclusive completed))
    _ _ _ run [] initial (meetsAfter_of_meets (fun _ _ => True) _ _ fun _ _ => trivial)
  exact last.order

/-- A value waits in the future. -/
theorem one_value_in_order : ∃ events s, Run step (allocated .exclusive 0 0) events s ∧
    acceptedValues (effects events) = [5] ∧
    acceptedValues (effects events) = deliveredValues (effects events) ++
      if s.future.state = .ready then [s.future.value] else [] := by
  obtain ⟨events, s, run, passed⟩ := trace_exists step (allocated .exclusive 0 0)
    [.start 1 (.set 5)] (fun events _ => acceptedValues (effects events) = [5]) (by decide)
  exact ⟨events, s, run, of_decide_eq_true passed, exclusive_values_in_order 0 0 s events run⟩

/-- The value of the last `future_set` that resumed a getter. -/
def lastWake (history : List Effect) (pid : Nat) : Option Int32 :=
  history.foldl (fun last effect =>
    match effect with
    | .getterWoken target value => if target = pid then some value else last
    | _ => last) none

theorem lastWake_append (history : List Effect) (effect : Effect) (pid : Nat) :
    lastWake (history ++ [effect]) pid =
      match effect with
      | .getterWoken target value => if target = pid then some value else lastWake history pid
      | _ => lastWake history pid := by
  unfold lastWake
  rw [List.foldl_append]
  rfl

/-- No `future_get` begins while a woken getter has not gone on. -/
def NoOvertake (s : System) : Move → Prop
  | .start _ .get => ∀ pid, s.process pid ≠ .ready .getSuspended
  | .start _ (.set _) | .goOn _ => True

/-- A woken getter is the only one, and the future holds the value it was woken for. -/
structure WokenHolds (s : System) (history : List Effect) : Prop where
  exclusive : s.future.mode = .exclusive
  woken : ∀ pid, s.process pid = .ready .getSuspended →
    s.future.state = .ready ∧ lastWake history pid = some s.future.value
  alone : ∀ pid other, s.process pid = .ready .getSuspended →
    s.process other = .ready .getSuspended → pid = other
  waiting : ∀ pid point, s.process pid = .suspended point →
    s.future.state = .waiting ∧ s.future.pid = pid ∧ point = .getSuspended

/-- One step that does not overtake keeps the values of the woken getters. -/
theorem WokenHolds.step {s t : System} {move : Move} {output history : List Effect}
    (holds : WokenHolds s history) (fair : NoOvertake s move)
    (taken : ExclusiveStep s move output t) : WokenHolds t (history ++ output) := by
  obtain ⟨exclusive, woken, alone, waiting⟩ := holds
  cases taken with
  | waits pid idle isEmpty =>
    have noWoken : ∀ other, s.process other ≠ .ready .getSuspended := by
      intro other isWoken
      cases isEmpty.symm.trans (woken other isWoken).1
    have noWaiting : ∀ other point, s.process other ≠ .suspended point := by
      intro other point isWaiting
      cases isEmpty.symm.trans (waiting other point isWaiting).1
    refine ⟨exclusive, ?_, ?_, ?_⟩
    · intro other isWoken
      exact absurd (place_ready (by simp) isWoken).2 (noWoken other)
    · intro other third isWoken
      exact absurd (place_ready (by simp) isWoken).2 (noWoken other)
    · intro other point isWaiting
      rcases eq_or_ne other pid with rfl | apart
      · have here : (((s.withPid other).withState .waiting).suspend other .getSuspended).process
            other = .suspended .getSuspended := place_self ..
        cases here.symm.trans isWaiting
        exact ⟨rfl, rfl, rfl⟩
      · rw [System.suspend, place_other _ _ _ apart] at isWaiting
        exact absurd isWaiting (noWaiting other point)
  | takes pid move taker isReady =>
    have noWoken : ∀ other, other ≠ pid → s.process other ≠ .ready .getSuspended := by
      intro other apart isWoken
      rcases taker with ⟨rfl, _⟩ | ⟨rfl, isPid⟩
      · exact fair other isWoken
      · exact apart (alone other pid isWoken isPid)
    refine ⟨exclusive, ?_, ?_, ?_⟩
    · intro other isWoken
      obtain ⟨apart, before⟩ := place_ready (by simp) isWoken
      exact absurd before (noWoken other apart)
    · intro other third isWoken
      obtain ⟨apart, before⟩ := place_ready (by simp) isWoken
      exact absurd before (noWoken other apart)
    · intro other point isWaiting
      obtain ⟨_, before⟩ := place_suspended (by simp) isWaiting
      cases isReady.symm.trans (waiting other point before).1
  | fails pid move taker notReady =>
    refine ⟨exclusive, ?_, ?_, ?_⟩
    · intro other isWoken
      exact absurd (woken other (place_ready (by simp) isWoken).2).1 notReady
    · intro other third isWoken
      exact absurd (woken other (place_ready (by simp) isWoken).2).1 notReady
    · intro other point isWaiting
      exact waiting other point (place_suspended (by simp) isWaiting).2
  | sets pid value idle isEmpty =>
    refine ⟨exclusive, ?_, ?_, ?_⟩
    · intro other isWoken
      cases isEmpty.symm.trans (woken other isWoken).1
    · exact alone
    · intro other point isWaiting
      cases isEmpty.symm.trans (waiting other point isWaiting).1
  | wakes pid value idle isWaiting =>
    have target : ∀ other, ((((s.withValue value).withState .ready).resume s.future.pid).place pid
        (.ready (.setResumed value))).process other = .ready .getSuspended →
        other = s.future.pid := by
      intro other isWoken
      rcases resume_ready _ _ (place_ready (by simp) isWoken).2 with ⟨isTarget, _⟩ | before
      · exact isTarget
      · cases isWaiting.symm.trans (woken other before).1
    refine ⟨?_, ?_, ?_, ?_⟩
    · rw [place_future, resume_future]
      exact exclusive
    · intro other isWoken
      obtain rfl := target other isWoken
      rw [place_future, resume_future, show history ++ [Effect.accepted pid value,
        .getterWoken s.future.pid value] = history ++ [.accepted pid value] ++
          [.getterWoken s.future.pid value] by simp, lastWake_append]
      exact ⟨rfl, if_pos rfl⟩
    · intro other third isWoken alsoWoken
      rw [target other isWoken, target third alsoWoken]
    · intro other point isWaitingNow
      obtain ⟨apart, before⟩ := resume_suspended _ _ (place_suspended (by simp) isWaitingNow).2
      exact absurd (waiting other point before).2.1.symm apart
  | refuses pid value isReady =>
    refine ⟨exclusive, ?_, alone, waiting⟩
    intro other isWoken
    rw [lastWake_append]
    exact woken other isWoken
  | returns pid value resumed =>
    refine ⟨exclusive, ?_, ?_, ?_⟩
    · intro other isWoken
      rw [lastWake_append]
      exact woken other (place_ready (by simp) isWoken).2
    · intro other third isWoken alsoWoken
      exact alone other third (place_ready (by simp) isWoken).2 (place_ready (by simp) alsoWoken).2
    · intro other point isWaiting
      exact waiting other point (place_suspended (by simp) isWaiting).2

/-- In every run in which no `future_get` begins while a woken getter has not gone on, a
woken getter returns `OK` with the value of the `future_set` that resumed it. -/
theorem woken_getter_gets_its_value (value : Int32) (start : Nat) (s : System)
    (events : List (Event System Move (List Effect)))
    (run : Run step (allocated .exclusive value start) events s) (fair : Meets NoOvertake events)
    (pid : Nat) (woken : s.process pid = .ready .getSuspended) :
    ∃ given t, lastWake (effects events) pid = some given ∧
      step s (.goOn pid) = some ([.delivered pid given], t) := by
  have initial : WokenHolds (allocated .exclusive value start) [] := by
    refine ⟨rfl, ?_, ?_, ?_⟩
    · intro other impossible
      cases impossible
    · intro other third impossible
      cases impossible
    · intro other point impossible
      cases impossible
  have holds := history_last WokenHolds (fun _ => NoOvertake)
    (fun before move output after history holds fair completed =>
      holds.step fair (exclusive_cases before after move output holds.exclusive completed))
    _ _ _ run [] initial (meetsAfter_of_meets NoOvertake _ _ fair)
  obtain ⟨isReady, isGiven⟩ := holds.woken pid woken
  refine ⟨s.future.value, (s.withState .empty).place pid .idle, isGiven, ?_⟩
  simp only [step, woken, proceed, holds.exclusive, exclusiveTake, if_pos isReady]

/-- A getter waits, is woken, and gets the value. -/
theorem woken_getter_gets_five : ∃ events s t, Run step (allocated .exclusive 0 0) events s ∧
    s.process 1 = .ready .getSuspended ∧ step s (.goOn 1) = some ([.delivered 1 5], t) := by
  have run : Run step (allocated .exclusive 0 0) _ _ := .taken _ (.start 1 .get) _ _ _ _ rfl
    (.taken _ (.start 2 (.set 5)) _ _ _ _ rfl (.done _))
  have fair : ∀ pid, (allocated .exclusive 0 0).process pid ≠ .ready .getSuspended :=
    fun pid impossible => by cases impossible
  obtain ⟨given, t, isGiven, completed⟩ := woken_getter_gets_its_value 0 0 _ _ run
    (by simpa [Meets, NoOvertake] using fair) 1 rfl
  have five : (some 5 : Option Int32) = some given := isGiven
  cases five
  exact ⟨_, _, t, run, rfl, completed⟩

/-- The setter goes on and asks for the value before the getter it has woken runs. -/
theorem woken_getter_is_overtaken : ∃ events s t, Run step (allocated .exclusive 0 0) events s ∧
    events.map Event.call = [.start 1 .get, .start 2 (.set 5), .goOn 2, .start 2 .get] ∧
    s.process 1 = .ready .getSuspended ∧ lastWake (effects events) 1 = some 5 ∧
    step s (.goOn 1) = some ([.getRefused 1], t) := by
  obtain ⟨events, s, run, passed⟩ := trace_exists step (allocated .exclusive 0 0)
    [.start 1 .get, .start 2 (.set 5), .goOn 2, .start 2 .get]
    (fun events s =>
      events.map Event.call = [.start 1 .get, .start 2 (.set 5), .goOn 2, .start 2 .get] ∧
      s.process 1 = .ready .getSuspended ∧ lastWake (effects events) 1 = some 5 ∧
      s.future.mode = .exclusive ∧ s.future.state = .empty) (by decide)
  obtain ⟨calls, woken, given, exclusive, isEmpty⟩ := of_decide_eq_true passed
  refine ⟨events, s, s.place 1 .idle, run, calls, woken, given, ?_⟩
  simp [step, woken, proceed, exclusive, exclusiveTake, isEmpty]

end Xinu.Futures
