import Xinu.KernelRefinement

/-!
# The calls are sequences of actions

Each call, each tick and each way to go on inside of a call starts in a state without marks
and ends in one, with the lawful actions between that its code performs. The loops of
`signaln`, `semreset`, `semdelete` and `wakeup` run with rescheduling deferred; their
induction is over what is left of the queue or of the count.
-/

namespace Xinu.Processes

open DeltaList

/-- Nothing is on its way. -/
structure Rested (k : Kernel) (b : Board) : Prop where
  ndefers : k.ndefers = 0
  due : b.due = false
  ticking : b.ticking = false
  clearing : b.clearing = none

theorem Settled.rested {b after : Board} {k : Kernel} (settled : Settled b k after)
    (ticking : b.ticking = false) (clearing : b.clearing = none) : Rested k after :=
  ⟨settled.1, settled.2.1, settled.2.2.1.trans ticking, settled.2.2.2.trans clearing⟩

section Calls

variable {move : Move} {first b : Board} {k : Kernel} {pid sem : Int}

/-- A call that ends in `resched`. -/
theorem resched_ends (shows_ : Shows k b) (agree : Agree b) (open_ : k.ndefers = 0)
    (ticking : b.ticking = false) (clearing : b.clearing = none) :
    Reach move first b Rested (resched k) :=
  (resched_reach shows_ agree open_).weaken fun _ _ settled => settled.rested ticking clearing

/-- A call whose deferral ends. -/
theorem deferStop_ends (shows_ : Shows k b) (agree : Agree b) (deferred : Deferred k b)
    (ticking : b.ticking = false) (clearing : b.clearing = none) :
    Reach move first b Rested (deferStop k) :=
  (deferStop_reach shows_ agree deferred).weaken fun _ _ settled => settled.rested ticking clearing

/-- A call that returns at once. -/
theorem answer_ends (shows_ : Shows k b) (rested : Rested k b) (plain : b.point.Plain)
    (value : Int) : Reach move first b Rested (some (k.answer value)) := by
  refine Reach.act (.answer value) ⟨rested.due, plain⟩ trivial ?_
  exact Reach.done (shows_.answer value) ⟨rested.ndefers, rested.due, rested.ticking, rested.clearing⟩

/-- The current process is in no queue. -/
theorem Agree.currentOutside (agree : Agree b) (settled : b.due = false) :
    (b.proctab b.currpid).place = none := by
  simp [Procent.place, agree.running settled]

/-- The place is set before the rest of a call. -/
theorem Reach.goOnAt {claim : Kernel → Board → Prop} {result : Option Kernel} (point : Point)
    (plain : b.point.Plain) (nextPlain : point.Plain)
    (reach : Reach move first (b.goOnAt point) claim result) : Reach move first b claim result :=
  Reach.act (.goOnAt point) ⟨nextPlain, plain⟩ trivial reach

/-- `yield` -/
theorem yield_ends (shows_ : Shows k b) (agree : Agree b) (rested : Rested k b)
    (plain : b.point.Plain) : Reach move first b Rested (yield k) := by
  refine Reach.goOnAt (.answer ok) plain trivial ?_
  exact resched_ends (shows_.goOnAt _) (agree.goOnAt _) rested.ndefers rested.ticking rested.clearing

/-- What `isbadsem` refuses. -/
theorem semRange_of_good (good : ¬ isbadsem sem = true) : SemRange sem := by
  unfold isbadsem at good
  rw [decide_eq_true_iff, not_or, not_lt, not_le] at good
  exact good

theorem Shows.used (shows_ : Shows k b) (inUse : ¬ (k.semtab sem).sstate = .free) :
    (b.semtab sem).sstate = .used := by
  rw [shows_.semtab] at inUse
  cases state : (b.semtab sem).sstate with
  | free => exact absurd state inUse
  | used => rfl

/-- `resume` -/
theorem resume_ends (shows_ : Shows k b) (agree : Agree b) (rested : Rested k b)
    (plain : b.point.Plain) : Reach move first b Rested (resume k pid) := by
  unfold resume
  split
  case isTrue => exact answer_ends shows_ rested plain syserr
  case isFalse good =>
    obtain ⟨range, used⟩ := shows_.range good
    split
    case isTrue => exact answer_ends shows_ rested plain syserr
    case isFalse suspended =>
      rw [not_not, shows_.proctab] at suspended
      dsimp only
      refine Reach.goOnAt (.answer (k.proctab pid).prprio.toInt) plain trivial ?_
      generalize Point.answer (k.proctab pid).prprio.toInt = point
      have apart : pid ≠ b.currpid := by
        rintro rfl
        rw [agree.running rested.due] at suspended
        cases suspended
      have state : ((b.goOnAt point).proctab pid).prstate = .susp := by
        simpa [Board.goOnAt, Board.setProc, apart] using suspended
      have outside : ((b.goOnAt point).proctab pid).place = none := by simp [Procent.place, state]
      have agreeNow := agree.goOnAt point
      obtain ⟨middle, stepped, shown, defers, _⟩ :=
        (shows_.goOnAt point).readied agreeNow.placed range outside (by simp [state])
      rw [stepped]
      refine Reach.act (.resume pid) ⟨rested.due, range, state⟩ trivial ?_
      exact resched_ends shown (agreeNow.becomeReady range outside) (defers.trans rested.ndefers)
        rested.ticking rested.clearing

/-- `suspend` -/
theorem suspend_ends (shows_ : Shows k b) (agree : Agree b) (rested : Rested k b)
    (plain : b.point.Plain) : Reach move first b Rested (suspend k pid) := by
  unfold suspend
  split
  case isTrue => exact answer_ends shows_ rested plain syserr
  case isFalse good =>
    rw [not_or] at good
    obtain ⟨range, used⟩ := shows_.range good.1
    rw [shows_.proctab]
    split
    case isTrue => exact answer_ends shows_ rested plain syserr
    case isFalse state =>
      rw [not_and_or, not_not, not_not] at state
      have lawful : b.Lawful (.suspend pid) := ⟨rested.due, range, good.2, state.symm⟩
      have after := agree.next lawful
      split
      case isTrue isReady =>
        have inside : (b.proctab pid).place = some readyQueue := by simp [Procent.place, isReady]
        have member := (agree.placed.member readyQueue isQueue_ready pid).mpr ⟨range, inside⟩
        obtain ⟨out, taken, same, keys, threads, _⟩ :=
          getitem_spec shows_.threads agree.placed isQueue_ready member
        rw [shows_.keys] at keys
        have shown := (shows_.requeue same threads keys).setState pid .susp
        refine Reach.act (.suspend pid) lawful trivial ?_
        have next : b.next (.suspend pid) = (b.leave pid readyQueue).setState pid .susp := by
          simp only [Board.next, if_pos isReady]
        have apart : b.currpid ≠ pid := by
          rintro rfl
          rw [agree.running rested.due] at isReady
          cases isReady
        rw [next, taken]
        refine answer_ends shown ⟨?_, rested.due, rested.ticking, rested.clearing⟩ ?_ _
        · rw [same]
          exact rested.ndefers
        · simpa [Board.point, Board.leave, Board.setState, Board.setProc, Board.setQueue,
            apart] using plain
      case isFalse notReady =>
        obtain rfl := agree.single pid range (state.resolve_right notReady)
        have next : b.next (.suspend b.currpid) =
            { b.setState b.currpid .susp with due := true } := by
          simp only [Board.next, if_neg notReady]
        rw [next] at after
        refine Reach.act (.suspend b.currpid) lawful trivial ?_
        rw [next]
        have shown : Shows (k.setState b.currpid .susp)
            { b.setState b.currpid .susp with due := true } := { shows_.setState b.currpid .susp with }
        refine Reach.goOnAt (.suspendEnd b.currpid) ?_ trivial ?_
        · simpa [Board.point, Board.setState, Board.setProc] using plain
        · exact resched_ends (shown.goOnAt _) (after.goOnAt _) rested.ndefers rested.ticking
            rested.clearing

/-- `wait` -/
theorem wait_ends (shows_ : Shows k b) (agree : Agree b) (rested : Rested k b)
    (plain : b.point.Plain) : Reach (.call (.wait sem)) b b Rested (wait k sem) := by
  unfold wait
  split
  case isTrue => exact answer_ends shows_ rested plain syserr
  case isFalse good =>
    have range := semRange_of_good good
    split
    case isTrue => exact answer_ends shows_ rested plain syserr
    case isFalse inUse =>
      have used := shows_.used inUse
      have lowered := shows_.setCount sem ((b.semtab sem).scount - 1)
      rw [shows_.semtab]
      dsimp only
      have count : ((k.setCount sem ((b.semtab sem).scount - 1)).semtab sem).scount =
          (b.semtab sem).scount - 1 := by
        simp [Kernel.setCount]
      rw [count]
      split
      case isTrue negative =>
        have lawful : b.Lawful (.block sem) := ⟨rested.due, range, used, negative, rested.clearing⟩
        have after := agree.next lawful
        have defers : (k.setCount sem ((b.semtab sem).scount - 1)).ndefers = 0 := rested.ndefers
        generalize k.setCount sem ((b.semtab sem).scount - 1) = low at lowered defers
        have waiting := lowered.setProc b.currpid
          { b.proctab b.currpid with prstate := .wait, prsem := sem }
        obtain ⟨queued, entered, same, keys, threads⟩ := enqueue_spec waiting.threads agree.placed
          (isQueue_sem range) agree.current (agree.currentOutside rested.due)
          (waiting.good agree.current (by simp [Board.setProc]))
        rw [waiting.keys] at keys
        have requeued := waiting.requeue same threads keys
        have shown : Shows (queued.note (.blocked b.currpid sem)) (b.next (.block sem)) :=
          { requeued.note (.blocked b.currpid sem) with }
        have called : enqueue (low.setProc low.currpid
            { low.proctab low.currpid with prstate := .wait, prsem := sem }) low.currpid
            (low.semtab sem).squeue = (b.currpid, queued) := by
          rw [lowered.squeue sem range, lowered.currpid, lowered.proctab]
          exact entered
        change Reach _ _ _ _ (resched (((enqueue (low.setProc low.currpid
          { low.proctab low.currpid with prstate := .wait, prsem := sem }) low.currpid
          (low.semtab sem).squeue).2.note (.blocked (enqueue (low.setProc low.currpid
          { low.proctab low.currpid with prstate := .wait, prsem := sem }) low.currpid
          (low.semtab sem).squeue).2.currpid sem)).goOnAt (.answer ok)))
        rw [called]
        dsimp only
        rw [show queued.currpid = b.currpid from requeued.currpid]
        refine Reach.act (.block sem) lawful ⟨rfl, rfl⟩ ?_
        refine Reach.goOnAt (.answer ok) ?_ trivial ?_
        · simpa [Board.point, Board.next, Board.setCount, Board.setProc, Board.setQueue,
            Board.note] using plain
        · have open_ : queued.ndefers = 0 := by
            rw [same]
            exact defers
          exact resched_ends (shown.goOnAt (.answer ok)) (after.goOnAt _) open_ rested.ticking
            rested.clearing
      case isFalse enough =>
        refine Reach.act (.pass sem) ⟨rested.due, range, used, not_lt.mp enough, rested.clearing⟩ trivial ?_
        have shown := lowered.note (.passed b.currpid sem)
        rw [lowered.currpid]
        exact answer_ends shown ⟨rested.ndefers, rested.due, rested.ticking, rested.clearing⟩ plain ok

/-- A process that was taken out of a queue is readied. -/
theorem Shows.readyFrom {out : Kernel} {left : Board} {q : Int} (shown : Shows out left)
    (agree : Agree b) (isQueue : IsQueue q) (range : InRange pid)
    (inside : (b.proctab pid).place = some q) (proctab : left.proctab = b.proctab)
    (queues : left.queues = Function.update b.queues q ((b.queues q).erase pid)) :
    ∃ middle, ready out pid = resched middle ∧ Shows middle (left.becomeReady pid) ∧
      middle.ndefers = out.ndefers ∧ middle.attempt = out.attempt := by
  have placed := agree.placed.leave { b.proctab pid with prstate := .susp } isQueue inside rfl
  rw [← queues] at placed
  refine shown.readied placed range (by rw [Function.update_self]; rfl) ?_
  rw [proctab]
  intro isFree
  simp [Procent.place, isFree] at inside

/-- What one round of `signal` does: it raises the count, and where processes wait it readies
the first of them. -/
theorem signalOnce_spec (shows_ : Shows k b) (agree : Agree b) (range : SemRange sem)
    (used : (b.semtab sem).sstate = .used) (clearing : b.clearing = none) :
    (b.Lawful (.signal sem) ∧ ∃ after, signalOnce k sem = some after ∧
      Shows after (b.next (.signal sem)) ∧ after.ndefers = k.ndefers ∧ after.attempt = k.attempt) ∨
    ∃ pid, b.Lawful (.release sem pid) ∧ ∃ middle, signalOnce k sem = resched middle ∧
      Shows middle (b.next (.release sem pid)) ∧ middle.ndefers = k.ndefers ∧
        middle.attempt = k.attempt := by
  have isQueue := isQueue_sem range
  have raised := (shows_.setCount sem ((b.semtab sem).scount + 1)).note (.signalled sem)
  have queue : (((k.setCount sem ((b.semtab sem).scount + 1)).note (.signalled sem)).semtab
      sem).squeue = semQueue sem := raised.squeue sem range
  unfold signalOnce
  rw [shows_.semtab]
  dsimp only
  by_cases negative : (b.semtab sem).scount.toInt < 0
  · rw [if_pos negative, queue]
    cases head : (b.queues (semQueue sem)).head? with
    | none =>
      have isEmpty : b.queues (semQueue sem) = [] := List.head?_eq_none_iff.mp head
      refine Or.inl ⟨⟨range, used, clearing, Or.inr isEmpty⟩, _, ?_, raised, rfl, rfl⟩
      rw [dequeue_empty raised.threads agree.placed isQueue isEmpty]
      rfl
    | some pid =>
      obtain ⟨pidRange, inside⟩ := agree.first isQueue head
      obtain ⟨out, taken, same, keys, threads⟩ :=
        dequeue_spec raised.threads agree.placed isQueue head
      rw [raised.keys] at keys
      have shown := (raised.requeue same threads keys).note (.released pid sem)
      obtain ⟨middle, stepped, final, defers, attempts⟩ :=
        shown.readyFrom agree isQueue pidRange inside rfl rfl
      refine Or.inr ⟨pid, ⟨range, used, clearing, negative, head⟩, middle, ?_, final, ?_, ?_⟩
      · rw [taken]
        dsimp only
        rw [if_pos pidRange.1, stepped]
      · rw [defers, same]
        rfl
      · rw [attempts, same]
        rfl
  · rw [if_neg negative]
    exact Or.inl ⟨⟨range, used, clearing, Or.inl (not_lt.mp negative)⟩, _, rfl, raised, rfl, rfl⟩

/-- `signal` -/
theorem signal_ends (shows_ : Shows k b) (agree : Agree b) (rested : Rested k b)
    (plain : b.point.Plain) : Reach (.call (.signal sem)) b b Rested (signal k sem) := by
  unfold signal
  split
  case isTrue => exact answer_ends shows_ rested plain syserr
  case isFalse good =>
    have range := semRange_of_good good
    split
    case isTrue => exact answer_ends shows_ rested plain syserr
    case isFalse inUse =>
      have used := shows_.used inUse
      refine Reach.goOnAt (.answer ok) plain trivial ?_
      have agreeNow := agree.goOnAt (.answer ok)
      rcases signalOnce_spec (shows_.goOnAt (.answer ok)) agreeNow range used rested.clearing with
        ⟨lawful, after, stepped, shown, defers, _⟩ | ⟨pid, lawful, middle, stepped, shown, defers, _⟩
      · rw [stepped]
        refine Reach.act (.signal sem) lawful ⟨used, Or.inl ⟨rfl, rfl⟩⟩ ?_
        exact Reach.done shown
          ⟨defers.trans rested.ndefers, rested.due, rested.ticking, rested.clearing⟩
      · rw [stepped]
        refine Reach.act (.release sem pid) lawful ⟨used, Or.inl ⟨rfl, rfl⟩⟩ ?_
        exact resched_ends shown (agreeNow.next lawful) (defers.trans rested.ndefers) rested.ticking
          rested.clearing

/-- The loop of `signaln`. Round by round the count goes up by one. -/
theorem signalLoop_reach (first : Board) (count : Int32) (range : SemRange sem) (turns round : Nat)
    (total : (round + turns : Int) = count.toInt) (shows_ : Shows k b) (agree : Agree b)
    (usedFirst : (first.semtab sem).sstate = .used) (used : (b.semtab sem).sstate = .used)
    (deferred : Deferred k b) (ticking : b.ticking = false) (clearing : b.clearing = none)
    (raised : (b.semtab sem).scount = (first.semtab sem).scount + Int32.ofNat round) :
    Reach (.call (.signaln sem count)) first b
      (fun k after => Deferred k after ∧ after.ticking = false ∧ after.clearing = none)
      (signalLoop sem turns k) := by
  induction turns generalizing k b round with
  | zero => exact Reach.done shows_ ⟨deferred, ticking, clearing⟩
  | succ turns inductionHypothesis =>
    have more : (b.semtab sem).scount + 1 = (first.semtab sem).scount + Int32.ofNat (round + 1) := by
      rw [raised, Int32.ofNat_add, ← Int32.add_assoc]
      rfl
    have origin : ∃ (total : Int32) (round : Nat),
        Move.call (.signaln sem count) = .call (.signaln sem total) ∧ (round : Int) < total.toInt ∧
          (b.semtab sem).scount = (first.semtab sem).scount + Int32.ofNat round :=
      ⟨count, round, rfl, by push_cast at total; omega, raised⟩
    unfold signalLoop
    rcases signalOnce_spec shows_ agree range used clearing with
      ⟨lawful, after, stepped, shown, defers, attempts⟩ |
      ⟨pid, lawful, middle, stepped, shown, defers, attempts⟩
    · rw [stepped]
      refine Reach.act (.signal sem) lawful ⟨usedFirst, Or.inr origin⟩ ?_
      refine inductionHypothesis (round + 1) (by push_cast at total ⊢; lia) shown
        (agree.next lawful) ?_ ?_ ticking clearing ?_
      · simpa [Board.next, Board.setCount, Board.note] using used
      · exact ⟨defers.trans deferred.1, fun due => attempts.trans (deferred.2 due)⟩
      · simpa [Board.next, Board.setCount, Board.note] using more
    · rw [stepped, resched_deferred (defers.trans deferred.1)]
      refine Reach.act (.release sem pid) lawful ⟨usedFirst, Or.inr origin⟩ ?_
      have marked : Shows { middle with attempt := true } (b.next (.release sem pid)) :=
        { shown with }
      refine inductionHypothesis (round + 1) (by push_cast at total ⊢; omega) marked
        (agree.next lawful) ?_ ?_ ticking clearing ?_
      · simpa [Board.next, Board.becomeReady, Board.setCount, Board.note, Board.leave, Board.setQueue,
          Board.setState, Board.setProc, Board.setKey] using used
      · exact ⟨defers.trans deferred.1, fun _ => rfl⟩
      · simpa [Board.next, Board.becomeReady, Board.setCount, Board.note, Board.leave, Board.setQueue,
          Board.setState, Board.setProc, Board.setKey] using more

/-- `signaln` -/
theorem signaln_ends {count : Int32} (shows_ : Shows k b) (agree : Agree b) (rested : Rested k b)
    (plain : b.point.Plain) :
    Reach (.call (.signaln sem count)) b b Rested (signaln k sem count) := by
  unfold signaln
  split
  case isTrue => exact answer_ends shows_ rested plain syserr
  case isFalse good =>
    rw [not_or] at good
    have range := semRange_of_good good.1
    split
    case isTrue => exact answer_ends shows_ rested plain syserr
    case isFalse inUse =>
      have used := shows_.used inUse
      refine Reach.goOnAt (.answer ok) plain trivial ?_
      have agreeNow := agree.goOnAt (.answer ok)
      have loop := signalLoop_reach b count range count.toInt.toNat 0 (by omega)
        (shows_.goOnAt (.answer ok)).deferStart agreeNow used used
        (deferStart_deferred rested.ndefers rested.due) rested.ticking rested.clearing
        (by simp [Board.goOnAt, Board.setProc])
      refine loop.bind agreeNow ?_
      intro k middle agreeMiddle _ shown ends
      exact deferStop_ends shown agreeMiddle ends.1 ends.2.1 ends.2.2

/-- `newsem` takes a free entry or finds none. -/
theorem newsemLoop_spec (shows_ : Shows k b) (turns : Nat) :
    (∃ sem after, newsemLoop turns k = (sem, after) ∧ SemRange sem ∧
      (b.semtab sem).sstate = .free ∧ after.ndefers = k.ndefers ∧
      Shows after { b with
        semtab := Function.update b.semtab sem { b.semtab sem with sstate := .used } }) ∨
    ∃ after, newsemLoop turns k = (syserr, after) ∧ after.ndefers = k.ndefers ∧ Shows after b := by
  induction turns generalizing k with
  | zero => exact Or.inr ⟨k, rfl, rfl, shows_⟩
  | succ turns inductionHypothesis =>
    have bound := shows_.nextsem
    have range : SemRange k.nextsem := by
      unfold SemRange
      unfold nsem at bound ⊢
      lia
    have moved : Shows { k with nextsem := if nsem ≤ (k.nextsem + 1 : Nat) then 0 else k.nextsem + 1 }
        b := by
      refine { shows_ with nextsem := ?_ }
      dsimp only
      split
      · decide
      · omega
    unfold newsemLoop
    dsimp only
    rw [moved.semtab]
    split
    case isTrue isFree =>
      exact Or.inl ⟨k.nextsem, _, rfl, range, isFree, rfl, moved.setSem k.nextsem _ rfl⟩
    case isFalse =>
      have later := inductionHypothesis moved
      rw [shows_.semtab] at later
      exact later

/-- `semcreate` -/
theorem semcreate_ends {count : Int32} (shows_ : Shows k b) (rested : Rested k b)
    (plain : b.point.Plain) : Reach move first b Rested (some (semcreate k count)) := by
  unfold semcreate
  split
  case isTrue => exact answer_ends shows_ rested plain syserr
  case isFalse enough =>
    unfold newsem
    rcases newsemLoop_spec shows_ nsem.toNat with
      ⟨sem, after, found, range, isFree, defers, shown⟩ | ⟨after, found, defers, shown⟩
    · have valid : sem ≠ syserr := by
        rintro rfl
        exact absurd range.1 (by decide)
      rw [found]
      dsimp only
      rw [if_neg valid]
      refine Reach.act (.semMake sem count)
        ⟨rested.due, range, isFree, rested.clearing, not_lt.mp enough⟩ trivial ?_
      have set := (shown.setCount sem count).note (.semSet sem count)
      have final : Shows ((after.setCount sem count).note (.semSet sem count))
          (b.next (.semMake sem count)) := by
        refine { set with semtab := set.semtab.trans ?_ }
        simp [Board.next, Board.setCount, Board.note]
      exact answer_ends final ⟨defers.trans rested.ndefers, rested.due, rested.ticking,
        rested.clearing⟩ plain sem
    · rw [found]
      dsimp only
      rw [if_pos rfl]
      exact answer_ends shown ⟨defers.trans rested.ndefers, rested.due, rested.ticking,
        rested.clearing⟩ plain syserr

/-- The loop of `semreset` empties the queue. -/
theorem semresetLoop_reach (range : SemRange sem) (turns : Nat) (shows_ : Shows k b)
    (agree : Agree b) (used : (b.semtab sem).sstate = .used) (deferred : Deferred k b)
    (ticking : b.ticking = false) (clearing : b.clearing = some sem)
    (enough : (b.queues (semQueue sem)).length < turns) :
    Reach move first b (fun k after => Deferred k after ∧ after.ticking = false ∧
        after.clearing = some sem ∧ (after.semtab sem).sstate = .used ∧
        after.queues (semQueue sem) = [])
      (semresetLoop sem turns k) := by
  induction turns generalizing k b with
  | zero => cases enough
  | succ turns inductionHypothesis =>
    have isQueue := isQueue_sem range
    have queue : (k.semtab sem).squeue = semQueue sem := shows_.squeue sem range
    unfold semresetLoop
    rw [queue]
    cases head : (b.queues (semQueue sem)).head? with
    | none =>
      have isEmpty : b.queues (semQueue sem) = [] := List.head?_eq_none_iff.mp head
      rw [getfirst_empty shows_.threads agree.placed isQueue isEmpty]
      dsimp only
      rw [if_pos rfl]
      exact Reach.done shows_ ⟨deferred, ticking, clearing, used, isEmpty⟩
    | some pid =>
      obtain ⟨pidRange, inside⟩ := agree.first isQueue head
      obtain ⟨out, taken, same, keys, threads, _⟩ :=
        getfirst_spec shows_.threads agree.placed isQueue head
      rw [shows_.keys] at keys
      have shown := (shows_.requeue same threads keys).note (.discharged pid sem)
      obtain ⟨middle, stepped, final, defers, _⟩ :=
        shown.readyFrom agree isQueue pidRange inside rfl rfl
      have deferring : middle.ndefers = 1 := by
        rw [defers, same]
        exact deferred.1
      have valid : pid ≠ empty := by
        rintro rfl
        exact absurd pidRange.1 (by decide)
      rw [taken]
      dsimp only
      rw [if_neg valid, stepped, resched_deferred deferring]
      have lawful : b.Lawful (.discharge sem pid) := ⟨range, used, clearing, head⟩
      refine Reach.act (.discharge sem pid) lawful trivial ?_
      have marked : Shows { middle with attempt := true } (b.next (.discharge sem pid)) :=
        { final with }
      refine inductionHypothesis marked (agree.next lawful) used ⟨deferring, fun _ => rfl⟩ ticking
        clearing ?_
      have left : (b.next (.discharge sem pid)).queues (semQueue sem) =
          (b.queues (semQueue sem)).erase pid := by
        simp [Board.next, Board.becomeReady, Board.note, Board.leave, Board.setQueue, Board.setState,
          Board.setProc, Board.setKey, semQueue_ne_ready range]
      have fewer := List.length_erase_of_mem (List.mem_of_mem_head? head)
      have some_ := List.length_pos_of_mem (List.mem_of_mem_head? head)
      rw [left]
      lia

/-- `semreset` -/
theorem semreset_ends {count : Int32} (shows_ : Shows k b) (agree : Agree b) (rested : Rested k b)
    (plain : b.point.Plain) : Reach move first b Rested (semreset k sem count) := by
  unfold semreset
  split
  case isTrue => exact answer_ends shows_ rested plain syserr
  case isFalse good =>
    rw [not_or, not_or, not_lt] at good
    have range := semRange_of_good good.2.1
    have used := shows_.used good.2.2
    refine Reach.goOnAt (.answer ok) plain trivial ?_
    have agreeNow := agree.goOnAt (.answer ok)
    have length := agreeNow.placed.length_le (isQueue_sem range)
    have lawful : (b.goOnAt (.answer ok)).Lawful (.semReset sem) := ⟨range, used, rested.clearing⟩
    refine Reach.act (.semReset sem) lawful trivial ?_
    have shown : Shows (deferStart (k.goOnAt (.answer ok)))
        ((b.goOnAt (.answer ok)).next (.semReset sem)) := { shows_.goOnAt (.answer ok) with }
    refine Reach.bind (agreeNow.next lawful) (semresetLoop_reach range queueTurns shown
      (agreeNow.next lawful) used (deferStart_deferred rested.ndefers rested.due) rested.ticking rfl
      (by unfold queueTurns; exact lt_of_le_of_lt length (by decide))) ?_
    rintro k middle agreeMiddle _ shownMiddle ⟨deferred, ticking, clearing, stillUsed, isEmpty⟩
    have lawfulSet : middle.Lawful (.semSet sem count) :=
      ⟨range, stillUsed, clearing, isEmpty, good.1⟩
    refine Reach.act (.semSet sem count) lawfulSet trivial ?_
    have set := (shownMiddle.setCount sem count).note (.semSet sem count)
    exact deferStop_ends { set with } (agreeMiddle.next lawfulSet) deferred ticking rfl

/-- The loop of `semdelete` counts up to zero. -/
theorem semdeleteLoop_reach (range : SemRange sem) (turns : Nat) (shows_ : Shows k b)
    (agree : Agree b) (isFree : (b.semtab sem).sstate = .free) (deferred : Deferred k b)
    (ticking : b.ticking = false) (clearing : b.clearing = some sem)
    (enough : -(b.semtab sem).scount.toInt < turns) (some_ : 0 < turns) :
    Reach move first b (fun k after => Deferred k after ∧ after.ticking = false ∧
        after.clearing = none)
      (semdeleteLoop sem turns k) := by
  induction turns generalizing k b with
  | zero => cases some_
  | succ turns inductionHypothesis =>
    have isQueue := isQueue_sem range
    have raised := shows_.setCount sem ((b.semtab sem).scount + 1)
    have queue : ((k.setCount sem ((b.semtab sem).scount + 1)).semtab sem).squeue = semQueue sem :=
      raised.squeue sem range
    unfold semdeleteLoop
    rw [shows_.semtab]
    dsimp only
    by_cases negative : (b.semtab sem).scount.toInt < 0
    · have counted : ((b.semtab sem).scount + 1).toInt = (b.semtab sem).scount.toInt + 1 := by
        have low := Int32.le_toInt (b.semtab sem).scount
        rw [Int32.toInt_add]
        exact Int.bmod_eq_of_le (by simp; lia) (by simp; omega)
      rw [if_pos negative, queue]
      cases head : (b.queues (semQueue sem)).head? with
      | none =>
        have isEmpty : b.queues (semQueue sem) = [] := List.head?_eq_none_iff.mp head
        have lawful : b.Lawful (.raise sem) := ⟨range, isFree, clearing, negative, isEmpty⟩
        rw [getfirst_empty raised.threads agree.placed isQueue isEmpty]
        refine Reach.act (.raise sem) lawful trivial ?_
        refine inductionHypothesis raised (agree.next lawful) ?_ deferred ticking clearing ?_ ?_
        · simpa [Board.next, Board.setCount] using isFree
        · simp only [Board.next, Board.setCount, Function.update_self, counted]
          push_cast at enough
          lia
        · push_cast at enough
          lia
      | some pid =>
        obtain ⟨pidRange, inside⟩ := agree.first isQueue head
        obtain ⟨out, taken, same, keys, threads, _⟩ :=
          getfirst_spec raised.threads agree.placed isQueue head
        rw [raised.keys] at keys
        have shown := (raised.requeue same threads keys).note (.discharged pid sem)
        obtain ⟨middle, stepped, final, defers, _⟩ :=
          shown.readyFrom agree isQueue pidRange inside rfl rfl
        have deferring : middle.ndefers = 1 := by
          rw [defers, same]
          exact deferred.1
        rw [taken]
        dsimp only
        rw [if_pos pidRange.1, stepped, resched_deferred deferring]
        have lawful : b.Lawful (.dischargeOne sem pid) := ⟨range, isFree, clearing, negative, head⟩
        refine Reach.act (.dischargeOne sem pid) lawful trivial ?_
        have marked : Shows { middle with attempt := true } (b.next (.dischargeOne sem pid)) :=
          { final with }
        have entry : (b.next (.dischargeOne sem pid)).semtab sem =
            { b.semtab sem with scount := (b.semtab sem).scount + 1 } := by
          simp [Board.next, Board.becomeReady, Board.note, Board.leave, Board.setQueue, Board.setState,
            Board.setProc, Board.setKey, Board.setCount]
        refine inductionHypothesis marked (agree.next lawful) ?_ ⟨deferring, fun _ => rfl⟩ ticking
          clearing ?_ ?_
        · rw [entry]
          exact isFree
        · rw [entry, counted]
          push_cast at enough
          lia
        · push_cast at enough
          lia
    · rw [if_neg negative]
      refine Reach.act (.semGone sem) ⟨range, isFree, clearing, not_lt.mp negative⟩ trivial ?_
      exact Reach.done { raised with } ⟨deferred, ticking, rfl⟩

/-- `semdelete` -/
theorem semdelete_ends (shows_ : Shows k b) (agree : Agree b) (rested : Rested k b)
    (plain : b.point.Plain) : Reach move first b Rested (semdelete k sem) := by
  unfold semdelete
  split
  case isTrue => exact answer_ends shows_ rested plain syserr
  case isFalse good =>
    have range := semRange_of_good good
    split
    case isTrue => exact answer_ends shows_ rested plain syserr
    case isFalse inUse =>
      have used := shows_.used inUse
      refine Reach.goOnAt (.answer ok) plain trivial ?_
      have agreeNow := agree.goOnAt (.answer ok)
      have lawful : (b.goOnAt (.answer ok)).Lawful (.semDelete sem) := ⟨range, used, rested.clearing⟩
      refine Reach.act (.semDelete sem) lawful trivial ?_
      rw [shows_.semtab]
      have freed := ((shows_.setSem sem { b.semtab sem with sstate := .free } rfl).goOnAt
        (.answer ok)).note (.semGone sem)
      refine Reach.bind (agreeNow.next lawful) (semdeleteLoop_reach range _
        { freed.deferStart with } (agreeNow.next lawful) ?_
        (deferStart_deferred rested.ndefers rested.due) rested.ticking rfl ?_ (Nat.succ_pos _)) ?_
      · simp [Board.next, Board.note, Board.goOnAt, Board.setProc]
      · simp only [Board.next, Board.note, Board.goOnAt, Board.setProc, Function.update_self,
          Kernel.note, Kernel.goOnAt, Kernel.setProc]
        push_cast
        omega
      · rintro k middle agreeMiddle _ shown ⟨deferred, ticking, clearing⟩
        exact deferStop_ends shown agreeMiddle deferred ticking clearing

/-- What `send` accepts. -/
theorem Shows.accepts (shows_ : Shows k b) (accepted : ¬ k.refuses pid = true) :
    InRange pid ∧ (b.proctab pid).prstate ≠ .free ∧ (b.proctab pid).prhasmsg = false := by
  unfold Kernel.refuses at accepted
  rw [Bool.or_eq_true, not_or] at accepted
  obtain ⟨range, used⟩ := shows_.range accepted.1
  rw [shows_.proctab] at accepted
  exact ⟨range, used, Bool.eq_false_iff.mpr accepted.2⟩

/-- A receiver is readied where the message is stored. -/
theorem alert_ends (shows_ : Shows k b) (agree : Agree b) (after : Agree (b.alert pid))
    (rested : Rested k b) (range : InRange pid) :
    Reach move first (b.alert pid) Rested
      (if (k.proctab pid).prstate = .recv then ready k pid
      else if (k.proctab pid).prstate = .rectim then
        ready ((unsleep k pid).2.note (.roused pid)) pid
      else some k) := by
  unfold Board.alert at after ⊢
  cases state : (b.proctab pid).prstate with
  | recv =>
    rw [state] at after
    obtain ⟨middle, stepped, shown, defers, _⟩ :=
      shows_.readied agree.placed range (by simp [Procent.place, state]) (by simp [state])
    rw [if_pos (by rw [shows_.proctab, state]), stepped]
    exact resched_ends shown after (defers.trans rested.ndefers) rested.ticking rested.clearing
  | rectim =>
    rw [state] at after
    have inside : (b.proctab pid).place = some sleepQueue := by simp [Procent.place, state]
    have member := (agree.placed.member sleepQueue isQueue_sleep pid).mpr ⟨range, inside⟩
    obtain ⟨out, taken, same, keys, threads⟩ := unsleep_spec shows_.threads agree.placed member
      (shows_.good range (by simp [state])) (by rw [shows_.proctab]; exact Or.inr state)
    rw [shows_.keys] at keys
    have roused := (shows_.requeue same threads keys).note (.roused pid)
    obtain ⟨middle, stepped, shown, defers, _⟩ :=
      roused.readyFrom agree isQueue_sleep range inside rfl rfl
    have open_ : middle.ndefers = 0 := by
      rw [defers, same]
      exact rested.ndefers
    rw [if_neg (by rw [shows_.proctab, state]; simp), if_pos (by rw [shows_.proctab, state]), taken,
      stepped]
    exact resched_ends shown after open_ rested.ticking rested.clearing
  | free | curr | ready | sleep | susp | wait =>
    rw [if_neg (by rw [shows_.proctab, state]; simp), if_neg (by rw [shows_.proctab, state]; simp)]
    exact Reach.done shows_ rested

/-- The rest of `send`. -/
theorem deliver_ends {msg : UInt32} (shows_ : Shows k b) (agree : Agree b) (rested : Rested k b)
    (range : InRange pid) (used : (b.proctab pid).prstate ≠ .free)
    (vacant : (b.proctab pid).prhasmsg = false) :
    Reach move first b Rested (deliver k pid msg) := by
  have lawful : b.Lawful (.deliver pid msg) := ⟨rested.due, range, used, vacant⟩
  have stored := (shows_.setProc pid { b.proctab pid with prmsg := msg, prhasmsg := true }).note
    (.sent pid msg)
  have relabelled : Agree (b.setProc pid { b.proctab pid with prmsg := msg, prhasmsg := true }) :=
    agree.relabel rfl rfl
  refine Reach.act (.deliver pid msg) lawful trivial ?_
  unfold deliver
  rw [shows_.proctab]
  exact alert_ends stored (relabelled.note (.sent pid msg)) (agree.next lawful)
    ⟨rested.ndefers, rested.due, rested.ticking, rested.clearing⟩ range

/-- `send` -/
theorem send_ends {msg : UInt32} (shows_ : Shows k b) (agree : Agree b) (rested : Rested k b)
    (plain : b.point.Plain) : Reach move first b Rested (send k pid msg) := by
  unfold send
  split
  case isTrue => exact answer_ends shows_ rested plain syserr
  case isFalse accepted =>
    obtain ⟨range, used, vacant⟩ := shows_.accepts accepted
    refine Reach.goOnAt (.answer ok) plain trivial ?_
    have apart : ∀ field : Procent → Bool,
        (∀ entry point, field { entry with prstkptr := point } = field entry) →
        field ((b.goOnAt (.answer ok)).proctab pid) = field (b.proctab pid) := by
      intro field blind
      rcases eq_or_ne pid b.currpid with rfl | apart
      · simp [Board.goOnAt, Board.setProc, blind]
      · simp [Board.goOnAt, Board.setProc, apart]
    refine deliver_ends (shows_.goOnAt _) (agree.goOnAt _)
      ⟨rested.ndefers, rested.due, rested.ticking, rested.clearing⟩ range ?_ ?_
    · have same := apart (fun entry => decide (entry.prstate = .free)) (fun _ _ => rfl)
      rw [decide_eq_decide] at same
      exact fun isFree => used (same.mp isFree)
    · rw [apart Procent.prhasmsg (fun _ _ => rfl)]
      exact vacant

/-- A message is taken. -/
theorem take_ends (shows_ : Shows k b) (rested : Rested k b)
    (lawful : b.Lawful .take) : Reach move first b Rested (some k.take) := by
  refine Reach.act .take lawful trivial ?_
  have emptied := ((shows_.setProc b.currpid { b.proctab b.currpid with prhasmsg := false }).note
    (.took b.currpid (b.proctab b.currpid).prmsg)).answer (b.proctab b.currpid).prmsg.toNat
  have taken : k.take = ((k.setProc b.currpid { b.proctab b.currpid with prhasmsg := false }).note
      (.took b.currpid (b.proctab b.currpid).prmsg)).answer (b.proctab b.currpid).prmsg.toNat := by
    rw [← shows_.proctab, ← shows_.currpid]
    rfl
  rw [taken]
  exact Reach.done emptied ⟨rested.ndefers, rested.due, rested.ticking, rested.clearing⟩

/-- `receive` -/
theorem receive_ends (shows_ : Shows k b) (agree : Agree b) (rested : Rested k b)
    (plain : b.point.Plain) : Reach (.call .receive) b b Rested (receive k) := by
  unfold receive
  rw [shows_.proctab, shows_.currpid]
  split
  case isTrue vacant =>
    have lawful : b.Lawful .receive := ⟨rested.due, plain, vacant⟩
    refine Reach.act .receive lawful ⟨rfl, rfl⟩ ?_
    have shown := (shows_.setState b.currpid .recv).goOnAt .receiveEnd
    exact resched_ends { shown with } (agree.next lawful) rested.ndefers rested.ticking
      rested.clearing
  case isFalse pending =>
    exact take_ends shows_ rested ⟨rested.due, Or.inr ⟨by simpa using pending, Or.inl plain⟩⟩

/-- The end of `recvtime` -/
theorem recvtimeEnd_ends (shows_ : Shows k b) (rested : Rested k b)
    (point : b.point = .recvtimeEnd ∨ b.point.Plain ∧ (b.proctab b.currpid).prhasmsg = true) :
    Reach move first b Rested (some (recvtimeEnd k)) := by
  unfold recvtimeEnd
  rw [shows_.proctab, shows_.currpid]
  split
  case isTrue pending =>
    exact take_ends shows_ rested
      ⟨rested.due, Or.inr ⟨pending, point.symm.imp (fun both => both.1) id⟩⟩
  case isFalse vacant =>
    rcases point with here | ⟨_, pending⟩
    · refine Reach.act .timeOut ⟨rested.due, here, Bool.eq_false_iff.mpr vacant⟩ trivial ?_
      exact Reach.done ((shows_.note _).answer _)
        ⟨rested.ndefers, rested.due, rested.ticking, rested.clearing⟩
    · exact absurd pending vacant

/-- `recvclr` -/
theorem recvclr_ends (shows_ : Shows k b) (rested : Rested k b) (plain : b.point.Plain) :
    Reach move first b Rested (some (recvclr k)) := by
  unfold recvclr
  rw [shows_.proctab, shows_.currpid]
  split
  case isTrue pending =>
    exact take_ends shows_ rested ⟨rested.due, Or.inr ⟨pending, Or.inl plain⟩⟩
  case isFalse => exact answer_ends shows_ rested plain ok

/-- The current process is linked into the sleep queue. -/
theorem Shows.fallAsleep (shows_ : Shows k b) (agree : Agree b) (settled : b.due = false)
    (delay : Int32) : ∃ asleep, insertd k k.currpid k.sleepq delay = some (ok, asleep) ∧
      Shows asleep (b.fallAsleep b.currpid delay) ∧ asleep.ndefers = k.ndefers := by
  obtain ⟨asleep, inserted, same, keys, threads⟩ := insertd_spec shows_.threads agree.placed
    isQueue_sleep agree.current (agree.currentOutside settled)
    (shows_.good agree.current (by simp [agree.running settled])) delay
  rw [shows_.keys] at keys threads
  refine ⟨asleep, ?_, { shows_.requeue same threads keys with }, ?_⟩
  · rw [shows_.currpid, shows_.sleepq]
    exact inserted
  · rw [same]

/-- `recvtime` -/
theorem recvtime_ends {maxwait : Int32} (shows_ : Shows k b) (agree : Agree b)
    (rested : Rested k b) (plain : b.point.Plain) :
    Reach (.call (.recvtime maxwait)) b b Rested (recvtime k maxwait) := by
  unfold recvtime
  split
  case isTrue => exact answer_ends shows_ rested plain syserr
  case isFalse enough =>
    refine Reach.act .timed ⟨rested.due, plain⟩ trivial ?_
    have noted : Shows (k.note (.timed k.currpid)) (b.next .timed) := by
      rw [shows_.currpid]
      exact shows_.note _
    have agreeNow : Agree (b.next .timed) := agree.note _
    have restedNow : Rested (k.note (.timed k.currpid)) (b.next .timed) :=
      ⟨rested.ndefers, rested.due, rested.ticking, rested.clearing⟩
    generalize k.note (.timed k.currpid) = k at noted restedNow
    dsimp only
    rw [noted.proctab, noted.currpid]
    split
    case isTrue vacant =>
      obtain ⟨asleep, inserted, shown, defers⟩ := noted.fallAsleep agreeNow rested.due maxwait
      rw [← noted.currpid, inserted]
      dsimp only [Option.bind_eq_bind, Option.bind_some]
      rw [if_neg (by decide)]
      have lawful : (b.next .timed).Lawful (.sleep maxwait .rectim) :=
        ⟨rested.due, plain, Or.inr ⟨rfl, vacant, rfl⟩⟩
      refine Reach.act (.sleep maxwait .rectim) lawful
        ⟨rfl, Or.inr ⟨rfl, rfl, not_lt.mp enough, vacant⟩⟩ ?_
      have final := ((shown.setState b.currpid .rectim).note (.slept b.currpid maxwait)).goOnAt
        .recvtimeEnd
      rw [show asleep.currpid = b.currpid from shown.currpid]
      exact resched_ends { final with } (agreeNow.next lawful) (defers.trans restedNow.ndefers)
        rested.ticking rested.clearing
    case isFalse pending =>
      exact recvtimeEnd_ends noted restedNow (Or.inr ⟨plain, by simpa using pending⟩)

/-- `sleepms` -/
theorem sleepms_ends {delay : UInt32} (shows_ : Shows k b) (agree : Agree b)
    (rested : Rested k b) (plain : b.point.Plain) :
    Reach (.call (.sleepms delay)) b b Rested (sleepms k delay) := by
  unfold sleepms
  split
  case isTrue => exact yield_ends shows_ agree rested plain
  case isFalse enough =>
    obtain ⟨asleep, inserted, shown, defers⟩ :=
      shows_.fallAsleep agree rested.due delay.toInt32
    rw [inserted]
    dsimp only [Option.bind_eq_bind, Option.bind_some]
    rw [if_neg (by decide)]
    have lawful : b.Lawful (.sleep delay.toInt32 .sleep) := ⟨rested.due, plain, Or.inl rfl⟩
    refine Reach.act (.sleep delay.toInt32 .sleep) lawful
      ⟨rfl, Or.inl ⟨delay, rfl, enough, rfl⟩⟩ ?_
    have final := ((shown.setState b.currpid .sleep).note (.slept b.currpid delay.toInt32)).goOnAt
      (.answer ok)
    rw [show asleep.currpid = b.currpid from shown.currpid]
    exact resched_ends { final with } (agree.next lawful) (defers.trans rested.ndefers)
      rested.ticking rested.clearing

/-- `chprio` -/
theorem chprio_ends {newprio : Int16} (shows_ : Shows k b) (rested : Rested k b)
    (plain : b.point.Plain) :
    Reach (.call (.chprio pid newprio)) b b Rested (some (chprio k pid newprio)) := by
  unfold chprio
  split
  case isTrue => exact answer_ends shows_ rested plain syserr
  case isFalse good =>
    obtain ⟨range, used⟩ := shows_.range good
    refine Reach.act (.chprio pid newprio) ⟨rested.due, range, used⟩ ⟨rfl, rfl⟩ ?_
    rw [shows_.proctab]
    refine answer_ends (shows_.setProc _ _)
      ⟨rested.ndefers, rested.due, rested.ticking, rested.clearing⟩ ?_ _
    unfold Board.point at plain ⊢
    rcases eq_or_ne b.currpid pid with rfl | apart
    · simpa [Board.next, Board.setProc] using plain
    · simpa [Board.next, Board.setProc, apart] using plain

/-- `newpid` takes a free entry, or all entries it looked at are in use. -/
theorem newpidLoop_spec (shows_ : Shows k b) (turns : Nat) :
    ∃ pid after, newpidLoop turns k = (pid, after) ∧ Shows after b ∧ after.ndefers = k.ndefers ∧
      ((InRange pid ∧ (b.proctab pid).prstate = .free) ∨
        (pid = syserr ∧ ∀ i < turns,
          (b.proctab ((k.nextpid + i) % nproc.toNat : Nat)).prstate ≠ .free)) := by
  induction turns generalizing k with
  | zero => exact ⟨syserr, k, rfl, shows_, rfl, Or.inr ⟨rfl, fun i below => by cases below⟩⟩
  | succ turns inductionHypothesis =>
    unfold newpidLoop
    dsimp only
    split
    case isTrue isFree =>
      rw [shows_.proctab] at isFree
      have below := Nat.mod_lt k.nextpid (show 0 < nproc.toNat by decide)
      refine ⟨_, _, rfl, { shows_ with }, rfl, Or.inl ⟨⟨by omega, ?_⟩, isFree⟩⟩
      have size : nproc = nproc.toNat := rfl
      omega
    case isFalse inUse =>
      rw [shows_.proctab] at inUse
      have moved : Shows { k with nextpid := k.nextpid % nproc.toNat + 1 } b := { shows_ with }
      obtain ⟨pid, after, found, shown, defers, outcome⟩ := inductionHypothesis moved
      refine ⟨pid, after, found, shown, defers, outcome.imp_right ?_⟩
      rintro ⟨none, all⟩
      refine ⟨none, fun i below => ?_⟩
      rcases Nat.eq_zero_or_pos i with rfl | positive
      · rw [Nat.add_zero]
        exact inUse
      · have later := all (i - 1) (by lia)
        have same : (k.nextpid % nproc.toNat + 1 + (i - 1)) % nproc.toNat =
            (k.nextpid + i) % nproc.toNat := by
          rw [Nat.add_assoc, show 1 + (i - 1) = i by lia, Nat.mod_add_mod]
        rw [← same]
        exact later

/-- After as many turns as there are entries, all were looked at. -/
theorem newpid_all (start : Nat)
    (all : ∀ i < nproc.toNat, (b.proctab ((start + i) % nproc.toNat : Nat)).prstate ≠ .free)
    (range : InRange pid) : (b.proctab pid).prstate ≠ .free := by
  have size : nproc.toNat = 100 := rfl
  have low := range.1
  have high : pid < 100 := range.2
  have here := all ((pid.toNat + 100 - start % 100) % 100) (by omega)
  have same : (((start + (pid.toNat + 100 - start % 100) % 100) % nproc.toNat : Nat) : Int) = pid := by
    rw [size]
    lia
  rw [same] at here
  exact here

/-- `create` -/
theorem create_ends {ssize : UInt32} {priority : Int16} {stack : Option UInt32} (shows_ : Shows k b)
    (agree : Agree b) (rested : Rested k b) (plain : b.point.Plain) :
    Reach (.call (.create ssize priority stack)) b b Rested
      (some (create k ssize priority stack)) := by
  unfold create
  cases stack with
  | none => exact answer_ends shows_ rested plain syserr
  | some saddr =>
    obtain ⟨pid, after, found, shown, defers, outcome⟩ := newpidLoop_spec shows_ nproc.toNat
    have restedNow : Rested after b :=
      ⟨defers.trans rested.ndefers, rested.due, rested.ticking, rested.clearing⟩
    unfold newpid
    rw [found]
    dsimp only
    split
    case isTrue refused =>
      refine Reach.act (.leak saddr (stackSize ssize)) ⟨rested.due, plain⟩
        ⟨rfl, ssize, priority, saddr, rfl, ?_⟩ ?_
      · rcases outcome with ⟨range, _⟩ | ⟨_, all⟩
        · refine Or.inl (refused.resolve_left ?_)
          rintro rfl
          exact absurd range.1 (by decide)
        · exact Or.inr fun pid range => newpid_all k.nextpid all range
      · exact answer_ends (shown.note _)
          ⟨restedNow.ndefers, rested.due, rested.ticking, rested.clearing⟩ plain syserr
    case isFalse accepted =>
      rw [not_or, not_lt] at accepted
      have range : InRange pid ∧ (b.proctab pid).prstate = .free :=
        outcome.resolve_right fun none => accepted.1 none.1
      have apart : b.currpid ≠ pid := by
        rintro rfl
        rw [agree.running rested.due] at range
        cases range.2
      refine Reach.act (.create pid priority saddr (stackSize ssize))
        ⟨rested.due, range.1, range.2, accepted.2⟩ trivial ?_
      have counted : Shows { after with prcount := after.prcount + 1 }
          { b with prcount := b.prcount + 1 } :=
        { shown with prcount := congrArg (fun count => count + 1) shown.prcount }
      have fresh := (counted.setProc pid ((b.proctab pid).fresh b.currpid priority saddr
        (stackSize ssize))).note (.created pid saddr (stackSize ssize))
      have entry : { after.proctab pid with
          prstate := .susp, prprio := priority, prstkbase := saddr, prstklen := stackSize ssize,
          prsem := -1, prparent := after.currpid, prhasmsg := false, prstkptr := .user } =
          (b.proctab pid).fresh b.currpid priority saddr (stackSize ssize) := by
        rw [shown.proctab, shown.currpid]
        rfl
      rw [entry]
      refine answer_ends fresh ⟨restedNow.ndefers, rested.due, rested.ticking, rested.clearing⟩ ?_ pid
      simpa [Board.point, Board.setProc, Board.note, apart] using plain

/-- `kill` up to its `send` -/
theorem kill_ends (shows_ : Shows k b) (agree : Agree b) (rested : Rested k b)
    (plain : b.point.Plain) : Reach (.call (.kill pid)) b b Rested (kill k pid) := by
  unfold kill
  split
  case isTrue => exact answer_ends shows_ rested plain syserr
  case isFalse good =>
    rw [not_or] at good
    obtain ⟨range, used⟩ := shows_.range good.1
    have lawful : b.Lawful (.killBegin pid) := ⟨rested.due, plain, range, good.2, used⟩
    refine Reach.act (.killBegin pid) lawful ⟨rfl, rfl⟩ ?_
    have counted : Shows { k with prcount := k.prcount - 1 } { b with prcount := b.prcount - 1 } :=
      { shows_ with prcount := congrArg (fun count => count - 1) shows_.prcount }
    have begun : Shows (({ k with prcount := k.prcount - 1 }.note (.killBegun pid)).goOnAt
        (.killSent pid)) (b.next (.killBegin pid)) :=
      (counted.note (.killBegun pid)).goOnAt (.killSent pid)
    have restedNow : Rested (({ k with prcount := k.prcount - 1 }.note (.killBegun pid)).goOnAt
        (.killSent pid)) (b.next (.killBegin pid)) :=
      ⟨rested.ndefers, rested.due, rested.ticking, rested.clearing⟩
    have agreeNow := agree.next lawful
    dsimp only
    revert begun restedNow
    generalize Kernel.goOnAt _ (.killSent pid) = k
    generalize b.next (.killBegin pid) = b at agreeNow
    intro begun restedNow
    split
    case isTrue =>
      exact Reach.done { begun with }
        ⟨restedNow.ndefers, restedNow.due, restedNow.ticking, restedNow.clearing⟩
    case isFalse =>
      split
      case isTrue => exact Reach.done begun restedNow
      case isFalse accepted =>
        obtain ⟨parentRange, parentUsed, vacant⟩ := begun.accepts accepted
        exact deliver_ends begun agreeNow restedNow parentRange parentUsed vacant

/-- `kill` behind its `send` -/
theorem killRest_ends (shows_ : Shows k b) (agree : Agree b) (rested : Rested k b)
    (point : b.point = .killSent pid) (range : InRange pid) (real : pid ≠ nullproc) :
    Reach .goOn b b Rested (killRest k pid) := by
  have lawful : b.Lawful (.finish pid) := ⟨rested.due, point, range, real, rested.clearing⟩
  have after := agree.next lawful
  have noted := shows_.note (.stackFreed pid (b.proctab pid).prstkbase (b.proctab pid).prstklen)
  have agreeNoted := agree.note (.stackFreed pid (b.proctab pid).prstkbase (b.proctab pid).prstklen)
  have ends : ∀ {left : Kernel} {done : Board}, Shows left done → left.ndefers = 0 →
      done.due = false → done.ticking = false → done.clearing = none →
      b.next (.finish pid) = ((done.setState pid .free).note (.slotFreed pid)).answer ok →
      Reach .goOn b b Rested (some ((left.freeSlot pid).answer ok)) := by
    intro left done shown open_ due ticking clearing next
    refine Reach.act (.finish pid) lawful ⟨rfl, rfl⟩ ?_
    rw [next]
    exact Reach.done (((shown.setState pid .free).note (.slotFreed pid)).answer ok)
      ⟨open_, due, ticking, clearing⟩
  unfold killRest
  rw [shows_.proctab]
  dsimp only
  cases state : (b.proctab pid).prstate with
  | curr =>
    obtain rfl := agree.single pid range state
    refine Reach.act (.finish b.currpid) lawful ⟨rfl, rfl⟩ ?_
    have freed := ((noted.setState b.currpid .free).note (.slotFreed b.currpid)).goOnAt
      (.suicideEnd b.currpid)
    have next : b.next (.finish b.currpid) = { (((b.note (.stackFreed b.currpid
        (b.proctab b.currpid).prstkbase (b.proctab b.currpid).prstklen)).setState b.currpid
        .free).note (.slotFreed b.currpid)).goOnAt (.suicideEnd b.currpid) with due := true } := by
      simp only [Board.next, Board.freeSlot, Board.quit, Board.note, state, if_pos]
      rfl
    rw [next] at after ⊢
    exact resched_ends { freed with } after rested.ndefers rested.ticking rested.clearing
  | sleep | rectim =>
    have inside : (b.proctab pid).place = some sleepQueue := by simp [Procent.place, state]
    have member := (agree.placed.member sleepQueue isQueue_sleep pid).mpr ⟨range, inside⟩
    obtain ⟨out, taken, same, keys, threads⟩ := unsleep_spec noted.threads agreeNoted.placed member
      (noted.good range (by simp [Board.note, state])) (by
        rw [noted.proctab]
        simp [Board.note, state])
    rw [noted.keys] at keys
    have open_ : out.ndefers = 0 := by
      rw [same]
      exact rested.ndefers
    rw [taken]
    refine ends ((noted.requeue same threads keys).note (.roused pid)) open_ rested.due rested.ticking
      rested.clearing ?_
    simp only [Board.next, Board.freeSlot, Board.quit, Board.note, state]
    rfl
  | wait =>
    have semRange := agree.placed.waits pid range state
    have isQueue := isQueue_sem semRange
    have inside : (b.proctab pid).place = some (semQueue (b.proctab pid).prsem) := by
      simp [Procent.place, state]
    have member := (agree.placed.member _ isQueue pid).mpr ⟨range, inside⟩
    have raised := (noted.setCount (b.proctab pid).prsem
      ((b.semtab (b.proctab pid).prsem).scount + 1)).note (.withdrawn pid (b.proctab pid).prsem)
    obtain ⟨out, taken, same, keys, threads, _⟩ :=
      getitem_spec raised.threads agreeNoted.placed isQueue member
    rw [raised.keys] at keys
    have open_ : out.ndefers = 0 := by
      rw [same]
      exact rested.ndefers
    have called : getitem (((k.note (.stackFreed pid (b.proctab pid).prstkbase
        (b.proctab pid).prstklen)).setCount (b.proctab pid).prsem
        ((k.semtab (b.proctab pid).prsem).scount + 1)).note
        (.withdrawn pid (b.proctab pid).prsem)) pid = (pid, out) := by
      rw [shows_.semtab]
      exact taken
    change Reach _ _ _ _ (some (((getitem (((k.note (.stackFreed pid (b.proctab pid).prstkbase
        (b.proctab pid).prstklen)).setCount (b.proctab pid).prsem
        ((k.semtab (b.proctab pid).prsem).scount + 1)).note
        (.withdrawn pid (b.proctab pid).prsem)) pid).2.freeSlot pid).answer ok))
    rw [called]
    refine ends (raised.requeue same threads keys) open_ rested.due rested.ticking rested.clearing ?_
    simp only [Board.next, Board.freeSlot, Board.quit, Board.note, state]
    rfl
  | ready =>
    have inside : (b.proctab pid).place = some readyQueue := by simp [Procent.place, state]
    have member := (agree.placed.member readyQueue isQueue_ready pid).mpr ⟨range, inside⟩
    obtain ⟨out, taken, same, keys, threads, _⟩ :=
      getitem_spec noted.threads agreeNoted.placed isQueue_ready member
    rw [noted.keys] at keys
    have open_ : out.ndefers = 0 := by
      rw [same]
      exact rested.ndefers
    rw [taken]
    refine ends (noted.requeue same threads keys) open_ rested.due rested.ticking rested.clearing ?_
    simp only [Board.next, Board.freeSlot, Board.quit, Board.note, state]
    rfl
  | free | recv | susp =>
    refine ends noted rested.ndefers rested.due rested.ticking rested.clearing ?_
    simp only [Board.next, Board.freeSlot, Board.quit, Board.note, state]
    rfl

/-- A tick lowers the first key of the sleep queue. -/
theorem Shows.tick_nil (shows_ : Shows k b) (isEmpty : b.queues sleepQueue = []) :
    Shows (k.note .ticked) (b.next .tick) := by
  refine { shows_.note .ticked with keys := ?_ }
  simp only [Board.next, isEmpty, adjustFirst]
  exact shows_.keys

theorem Shows.tick_cons (shows_ : Shows k b) (agree : Agree b)
    (head : (b.queues sleepQueue).head? = some pid) :
    Shows (k.note .ticked).lowerFirst (b.next .tick) := by
  obtain ⟨rest, queue⟩ := List.head?_eq_some_iff.mp head
  have range := (agree.first isQueue_sleep head).1
  have noted := shows_.note .ticked
  obtain ⟨firstid, firstkey⟩ := noted.firstkey isQueue_sleep head
  have lowered : (k.note .ticked).lowerFirst = (k.note .ticked).setKey pid (b.key pid - 1) := by
    unfold Kernel.lowerFirst
    rw [noted.sleepq, firstid, firstkey]
    rfl
  have keys : ((k.note .ticked).setKey pid (b.key pid - 1)).keys =
      adjustFirst b.key (fun key => key - 1) (b.queues sleepQueue) := by
    rw [setKey_keys, noted.keys, queue, adjustFirst_cons]
    rfl
  have threads : ((k.note .ticked).setKey pid (b.key pid - 1)).Threads b.queues := by
    refine ⟨fun q isQueue => ?_, fun q isQueue => ?_⟩
    · rw [setKey_nexts, setKey_prevs]
      exact noted.threads.linked q isQueue
    · rw [setKey_keys, Function.update_of_ne (Ne.symm (range.ne_tail isQueue))]
      exact noted.threads.tails q isQueue
  have same : (k.note .ticked).SameBut ((k.note .ticked).setKey pid (b.key pid - 1)) := rfl
  rw [lowered]
  exact { noted.requeue same threads keys with }

/-- The loop of `wakeup` readies the sleepers whose time has come. -/
theorem wakeupLoop_reach (turns : Nat) (shows_ : Shows k b) (agree : Agree b)
    (deferred : Deferred k b) (ticking : b.ticking = true) (clearing : b.clearing = none)
    (enough : (b.queues sleepQueue).length < turns) :
    Reach move first b (fun k after => Deferred k after ∧ after.Lawful .tickEnd ∧
        after.clearing = none)
      (wakeupLoop turns k) := by
  induction turns generalizing k b with
  | zero => cases enough
  | succ turns inductionHypothesis =>
    unfold wakeupLoop
    rw [shows_.sleepq]
    cases head : (b.queues sleepQueue).head? with
    | none =>
      have isEmpty : b.queues sleepQueue = [] := List.head?_eq_none_iff.mp head
      have none_ : ¬ k.nonempty sleepQueue = true := by
        rw [shows_.threads.nonempty_iff agree.placed isQueue_sleep]
        exact not_not.mpr isEmpty
      rw [if_neg fun both => none_ both.1]
      exact Reach.done shows_ ⟨deferred, ⟨ticking, by simp [head]⟩, clearing⟩
    | some pid =>
      have more : k.nonempty sleepQueue = true := by
        rw [shows_.threads.nonempty_iff agree.placed isQueue_sleep]
        intro isEmpty
        rw [isEmpty] at head
        cases head
      rw [(shows_.firstkey isQueue_sleep head).2]
      by_cases come : (b.key pid).toInt ≤ 0
      · obtain ⟨range, inside⟩ := agree.first isQueue_sleep head
        obtain ⟨out, taken, same, keys, threads⟩ :=
          dequeue_spec shows_.threads agree.placed isQueue_sleep head
        rw [shows_.keys] at keys
        have shown := (shows_.requeue same threads keys).note (.woken pid)
        obtain ⟨middle, stepped, final, defers, _⟩ :=
          shown.readyFrom agree isQueue_sleep range inside rfl rfl
        have deferring : middle.ndefers = 1 := by
          rw [defers, same]
          exact deferred.1
        rw [if_pos ⟨more, come⟩, taken]
        dsimp only
        rw [stepped, resched_deferred deferring]
        have lawful : b.Lawful (.wake pid) := ⟨ticking, head, come⟩
        refine Reach.act (.wake pid) lawful trivial ?_
        have marked : Shows { middle with attempt := true } (b.next (.wake pid)) := { final with }
        refine inductionHypothesis marked (agree.next lawful) ⟨deferring, fun _ => rfl⟩ ticking
          clearing ?_
        have left : (b.next (.wake pid)).queues sleepQueue = (b.queues sleepQueue).erase pid := by
          simp [Board.next, Board.becomeReady, Board.note, Board.leave, Board.setQueue,
            Board.setState, Board.setProc, Board.setKey, sleep_ne_ready]
        have fewer := List.length_erase_of_mem (List.mem_of_mem_head? head)
        have some_ := List.length_pos_of_mem (List.mem_of_mem_head? head)
        rw [left]
        lia
      · rw [if_neg fun both => come both.2]
        refine Reach.done shows_ ⟨deferred, ⟨ticking, fun other isFirst => ?_⟩, clearing⟩
        rw [head, Option.mem_some_iff] at isFirst
        subst isFirst
        omega

/-- `wakeup` -/
theorem wakeup_ends (shows_ : Shows k b) (agree : Agree b) (open_ : k.ndefers = 0)
    (due : b.due = false) (ticking : b.ticking = true) (clearing : b.clearing = none) :
    Reach move first b Rested (wakeup k) := by
  have length := agree.placed.length_le isQueue_sleep
  refine Reach.bind agree (wakeupLoop_reach queueTurns shows_.deferStart agree
    (deferStart_deferred open_ due) ticking clearing
    (by unfold queueTurns; exact lt_of_le_of_lt length (by decide))) ?_
  rintro k middle agreeMiddle _ shown ⟨deferred, lawful, stillClear⟩
  refine Reach.act .tickEnd lawful trivial ?_
  exact deferStop_ends { shown with } (agreeMiddle.next lawful) deferred rfl stillClear

/-- The end of the clock handler of arm-bbb -/
theorem clkPreempt_ends (shows_ : Shows k b) (agree : Agree b) (rested : Rested k b) :
    Reach move first b Rested (clkPreempt k) := by
  unfold clkPreempt
  dsimp only
  split
  case isTrue =>
    exact resched_ends { shows_ with } agree rested.ndefers rested.ticking rested.clearing
  case isFalse =>
    exact Reach.done { shows_ with }
      ⟨rested.ndefers, rested.due, rested.ticking, rested.clearing⟩

/-- `clkhandler` -/
theorem clkhandler_ends {platform : Platform} (shows_ : Shows k b) (agree : Agree b)
    (rested : Rested k b) (plain : b.point.Plain) :
    Reach move first b Rested (clkhandler k platform) := by
  have lawful : b.Lawful .tick := ⟨rested.due, rested.ticking⟩
  have after := agree.next lawful
  refine Reach.act .tick lawful trivial ?_
  have nonempty : k.nonempty k.sleepq = true ↔ b.queues sleepQueue ≠ [] := by
    rw [shows_.sleepq]
    exact shows_.threads.nonempty_iff agree.placed isQueue_sleep
  have isempty : k.isempty k.sleepq = false ↔ b.queues sleepQueue ≠ [] := by
    rw [shows_.sleepq, ← Bool.not_eq_true, shows_.threads.isempty_iff agree.placed isQueue_sleep]
  cases head : (b.queues sleepQueue).head? with
  | none =>
    have isEmpty : b.queues sleepQueue = [] := List.head?_eq_none_iff.mp head
    have ended : (b.next .tick).Lawful .tickEnd := by
      refine ⟨rfl, ?_⟩
      simp [Board.next, Board.note, isEmpty]
    have shown := shows_.tick_nil isEmpty
    refine Reach.act .tickEnd ended trivial ?_
    have last := after.next ended
    cases platform with
    | armQemu =>
      change Reach _ _ _ _ (if k.nonempty k.sleepq then _ else _)
      rw [if_neg fun more => nonempty.mp more isEmpty]
      exact resched_ends { shown with } last rested.ndefers rfl rested.clearing
    | armBbb =>
      change Reach _ _ _ _ (if k.isempty k.sleepq = false then _ else _)
      rw [if_neg fun more => isempty.mp more isEmpty]
      exact clkPreempt_ends { shown with } last
        ⟨rested.ndefers, rested.due, rfl, rested.clearing⟩
  | some pid =>
    have isFull : b.queues sleepQueue ≠ [] := by
      intro isEmpty
      rw [isEmpty] at head
      cases head
    have shown := shows_.tick_cons agree head
    have stillHead : ((b.next .tick).queues sleepQueue).head? = some pid := head
    have key : ((k.note .ticked).lowerFirst.firstkey (k.note .ticked).lowerFirst.sleepq) =
        (b.next .tick).key pid := by
      rw [shown.sleepq]
      exact (shown.firstkey isQueue_sleep stillHead).2
    have ended (positive : ((b.next .tick).key pid).toInt ≠ 0) : (b.next .tick).Lawful .tickEnd := by
      refine ⟨rfl, fun other isFirst => ?_⟩
      rw [stillHead, Option.mem_some_iff] at isFirst
      subst isFirst
      exact positive
    cases platform with
    | armQemu =>
      change Reach _ _ _ _ (if k.nonempty k.sleepq then
        (if ((k.note .ticked).lowerFirst.firstkey (k.note .ticked).lowerFirst.sleepq).toInt ≤ 0 then
          wakeup (k.note .ticked).lowerFirst else resched (k.note .ticked).lowerFirst) else _)
      rw [if_pos (nonempty.mpr isFull), key]
      split
      case isTrue =>
        exact wakeup_ends shown after rested.ndefers rested.due rfl rested.clearing
      case isFalse positive =>
        refine Reach.act .tickEnd (ended (by omega)) trivial ?_
        exact resched_ends { shown with } (after.next (ended (by omega))) rested.ndefers rfl
          rested.clearing
    | armBbb =>
      change Reach _ _ _ _ (if k.isempty k.sleepq = false then
        (if ((k.note .ticked).lowerFirst.firstkey (k.note .ticked).lowerFirst.sleepq).toInt = 0 then
          wakeup ((k.note .ticked).lowerFirst.goOnAt .clkWoken)
          else clkPreempt (k.note .ticked).lowerFirst) else _)
      rw [if_pos (isempty.mpr isFull), key]
      split
      case isTrue =>
        refine Reach.goOnAt .clkWoken plain trivial ?_
        exact wakeup_ends (shown.goOnAt _) (after.goOnAt _) rested.ndefers rested.due rfl
          rested.clearing
      case isFalse other =>
        refine Reach.act .tickEnd (ended other) trivial ?_
        exact clkPreempt_ends { shown with } (after.next (ended other))
          ⟨rested.ndefers, rested.due, rfl, rested.clearing⟩

/-- Every call is a sequence of lawful actions. -/
theorem exec_ends (shows_ : Shows k b) (agree : Agree b) (rested : Rested k b)
    (plain : b.point.Plain) (call : Call) : Reach (.call call) b b Rested (exec k call) := by
  cases call with
  | create ssize priority stack => exact create_ends shows_ agree rested plain
  | resume pid => exact resume_ends shows_ agree rested plain
  | suspend pid => exact suspend_ends shows_ agree rested plain
  | wait sem => exact wait_ends shows_ agree rested plain
  | signal sem => exact signal_ends shows_ agree rested plain
  | signaln sem count => exact signaln_ends shows_ agree rested plain
  | semcreate count => exact semcreate_ends shows_ rested plain
  | semreset sem count => exact semreset_ends shows_ agree rested plain
  | semdelete sem => exact semdelete_ends shows_ agree rested plain
  | send pid msg => exact send_ends shows_ agree rested plain
  | receive => exact receive_ends shows_ agree rested plain
  | recvtime maxwait => exact recvtime_ends shows_ agree rested plain
  | recvclr => exact recvclr_ends shows_ rested plain
  | sleepms delay => exact sleepms_ends shows_ agree rested plain
  | yield => exact yield_ends shows_ agree rested plain
  | chprio pid newprio => exact chprio_ends shows_ rested plain
  | kill pid => exact kill_ends shows_ agree rested plain

end Calls

end Xinu.Processes
