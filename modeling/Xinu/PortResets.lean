import Xinu.PortSteps

/-!
# Clearing a port

`_ptclear` takes a port through its stages: the queue goes to the free list, then the two semaphores
are reset or deleted one after the other, and at last the port is open again or free. A process that
was made ready meanwhile belongs to the generation before.
-/

namespace Xinu.Ports

open Semaphores Runs NullTerminated Partitions

section Stages

variable {all : List Nat} {s t : System} {v w : View} {pid : Nat} {point : Point} {portid : Int}
  {side : Side} {newstate : Ptstate} {output : List Effect}

/-- No process is inside of a clear of the port. -/
def Unclaimed (s : System) (portid : Int) : Prop :=
  ∀ pid point, (s.kernel.process pid).point = some point → ∀ newstate,
    point ≠ .clearing portid newstate ∧ point ≠ .cleared portid newstate

/-- Outside of the clear, and in the process that clears while it runs. -/
theorem Sound.unclaimed (sound : Sound all s v)
    (quiet : (∀ newstate, v.stage portid ≠ .halfway newstate ∧ v.stage portid ≠ .nearly newstate) ∨
      v.clearer portid = pid ∧ s.kernel.process pid = .idle) : Unclaimed s portid := by
  intro other point here newstate
  have known := sound.points other point here
  constructor
  · rintro rfl
    obtain ⟨_, _, stage, clearer⟩ := known
    rcases quiet with outside | ⟨isClearer, idle⟩
    · exact (outside newstate).1 stage
    · rw [← clearer, isClearer, idle] at here
      cases here
  · rintro rfl
    obtain ⟨_, _, stage, clearer⟩ := known
    rcases quiet with outside | ⟨isClearer, idle⟩
    · exact (outside newstate).2 stage
    · rw [← clearer, isClearer, idle] at here
      cases here

/-- A port goes to another stage: a process of its generation was at work only where it was open. -/
theorem PointSound.restage (known : PointSound s v pid point)
    (others : ∀ other, other ≠ portid → t.changes other = s.changes other ∧ w.stage other = v.stage other ∧
      w.clearer other = v.clearer other)
    (newer : v.stage portid ≠ .opened ∧ t.changes portid = s.changes portid ∨
      t.changes portid = s.changes portid + 1)
    (outside : ∀ newstate, point ≠ .clearing portid newstate ∧ point ≠ .cleared portid newstate) :
    PointSound t w pid point := by
  have working : ∀ port began, began ≤ s.changes port →
      (began = s.changes port → v.stage port = .opened) →
      began ≤ t.changes port ∧ (began = t.changes port → w.stage port = .opened) := by
    intro port began before current
    by_cases here : port = portid
    · subst here
      rcases newer with ⟨notOpened, same⟩ | later
      · rw [same]
        exact ⟨before, fun isCurrent => absurd (current isCurrent) notOpened⟩
      · rw [later]
        exact ⟨by lia, fun isCurrent => by lia⟩
    · obtain ⟨changes, stage, _⟩ := others port here
      rw [changes, stage]
      exact ⟨before, current⟩
  cases point with
  | sending port seq msg began =>
    obtain ⟨good, isSeq, before, current⟩ := known
    exact ⟨good, isSeq, working port began before current⟩
  | receiving port seq began =>
    obtain ⟨good, isSeq, before, current⟩ := known
    exact ⟨good, isSeq, working port began before current⟩
  | sent => trivial
  | received msg => trivial
  | clearing port newstate =>
    obtain ⟨good, real, stage, clearer⟩ := known
    have apart : port ≠ portid := by
      rintro rfl
      exact (outside newstate).1 rfl
    obtain ⟨_, sameStage, sameClearer⟩ := others port apart
    exact ⟨good, real, sameStage.trans stage, sameClearer.trans clearer⟩
  | cleared port newstate =>
    obtain ⟨good, real, stage, clearer⟩ := known
    have apart : port ≠ portid := by
      rintro rfl
      exact (outside newstate).2 rfl
    obtain ⟨_, sameStage, sameClearer⟩ := others port apart
    exact ⟨good, real, sameStage.trans stage, sameClearer.trans clearer⟩

/-- A port goes to another stage, in a clear by a process. -/
def View.advance (v : View) (portid : Int) (stage : Stage) (pid : Nat) (grants : Int × Side → Int) : View :=
  { v with
    stage := Function.update v.stage portid stage
    clearer := Function.update v.clearer portid pid
    grants := grants }

/-- The state in which a clear leaves a port. -/
def Stage.Clears (newstate : Ptstate) (stage : Stage) : Prop :=
  stage = .emptied newstate ∨ stage = .halfway newstate ∨ stage = .nearly newstate

theorem Stage.Clears.limbo {stage : Stage} (clears : stage.Clears newstate) :
    stage.state = .limbo ∧ stage ≠ .opened ∧ stage ≠ .closed := by
  rcases clears with rfl | rfl | rfl <;> simp [Stage.state]

theorem Stage.Clears.unique {stage : Stage} {other : Ptstate} (clears : stage.Clears newstate)
    (alsoClears : stage.Clears other) : newstate = other := by
  rcases clears with rfl | rfl | rfl <;> simpa [Stage.Clears] using alsoClears

/-- One of the semaphores of a port in the limbo state is reset or deleted. -/
theorem Sound.advance (sound : Sound all s v) (good : isbadport portid = false) {stage : Stage}
    {kernel : Kernel Point} {grants : Int × Side → Int} (before : (v.stage portid).Clears newstate)
    (after : stage.Clears newstate) (unclaimed : Unclaimed s portid)
    (stays : ∀ pid, Stays (s.kernel.process pid) (kernel.process pid))
    (family : Family kernel (v.advance portid stage pid grants).Kept s.sem
      ((v.advance portid stage pid grants).taking s) grants) :
    Sound all { s with kernel := kernel } (v.advance portid stage pid grants) := by
  have stages : ∀ other, other ≠ portid → (v.advance portid stage pid grants).stage other = v.stage other :=
    fun other apart => Function.update_of_ne apart _ _
  have here : (v.advance portid stage pid grants).stage portid = stage := Function.update_self ..
  refine ⟨sound.next, fun other otherGood => ?_, sound.seq, fun other otherGood used => ?_,
    fun other point isThere => ?_, family, ?_⟩
  · by_cases same : other = portid
    · rw [same, here, after.limbo.1, ← before.limbo.1]
      exact sound.state portid good
    · rw [stages other same]
      exact sound.state other otherGood
  · refine sound.capacity other otherGood ?_
    by_cases same : other = portid
    · exact same ▸ before.limbo.2.2
    · rwa [stages other same] at used
  · rw [(stays other).point] at isThere
    refine (sound.points other point isThere).restage (fun other apart => ⟨rfl, stages other apart, ?_⟩)
      (Or.inl ⟨before.limbo.2.1, rfl⟩) (unclaimed other point isThere)
    exact Function.update_of_ne apart _ _
  · refine sound.nodes.exchange good stages (Function.update_eq_self ..).symm (fun _ _ => rfl) (List.Perm.refl _)
      (fun _ _ _ => rfl) sound.nodes.free ⟨fun opened => ?_, fun state clears isAlloc => ?_⟩ fun _ => ?_
    · rw [here] at opened
      exact absurd opened after.limbo.2.1
    · rw [here] at clears
      have same := after.unique clears
      exact (sound.nodes.queues portid good).emptied newstate before (same.trans isAlloc)
    · exact sound.nodes.unused portid (Or.inr before.limbo.2.1)

/-- The points of a generation in which nobody has begun yet. -/
theorem Sound.nobody (sound : Sound all s v) (notOpened : v.stage portid ≠ .opened) (pid : Nat) (point : Point)
    (takes : Taking portid side (s.changes portid) point) : (s.kernel.process pid).point ≠ some point := by
  intro here
  have known := sound.points pid point here
  cases point with
  | sending port seq msg began =>
    obtain ⟨_, rfl, rfl⟩ := takes
    exact notOpened (known.2.2.2 rfl)
  | receiving port seq began =>
    obtain ⟨_, rfl, rfl⟩ := takes
    exact notOpened (known.2.2.2 rfl)
  | sent => cases takes
  | received msg => cases takes
  | clearing port newstate => cases takes
  | cleared port newstate => cases takes

/-- A semaphore is reset when its port goes to the next stage: it serves the new generation then. -/
theorem Sound.reset (sound : Sound all s v) (good : isbadport portid = false) {stage : Stage} {count : Int}
    (before : (v.stage portid).Clears .alloc) (after : stage.Clears .alloc) (enough : 0 ≤ count)
    (unclaimed : Unclaimed s portid) (keeps : ∀ side, (v.stage portid).Keeps side)
    (renewed : stage.serves (s.changes portid) side = s.changes portid)
    (others : ∀ other, other ≠ side →
      stage.serves (s.changes portid) other = (v.stage portid).serves (s.changes portid) other) (pid : Nat) :
    Sound all { s with kernel := (semreset s.kernel (s.sem (portid, side)) count).2 }
      (v.advance portid stage pid (Function.update v.grants (portid, side) count)) := by
  have family := sound.family.semreset ⟨good, keeps side⟩ enough
    (fun pid point takes => sound.nobody before.limbo.2.1 pid point takes)
    (fun _ point _ takes renewedTakes => Taking.unique takes renewedTakes)
  refine sound.advance good before after unclaimed (semreset_stays _ _ _) (family.congr ?_ (fun _ _ => rfl) ?_ ?_)
  · rintro ⟨port, other⟩ ⟨otherGood, otherKeeps⟩
    refine ⟨otherGood, ?_⟩
    by_cases same : port = portid
    · exact same ▸ keeps other
    · simpa [View.advance, same] using otherKeeps
  · rintro ⟨port, other⟩ _
    by_cases same : port = portid
    · subst same
      by_cases here : other = side
      · subst here
        rw [Function.update_self]
        simp [View.taking, View.advance, renewed]
      · rw [Function.update_of_ne (by simp [here])]
        simp [View.taking, View.advance, others other here]
    · rw [Function.update_of_ne (by simp [same])]
      simp [View.taking, View.advance, same]
  · intro _ _ _
    rfl

/-- A semaphore is deleted when its port goes to the next stage. -/
theorem Sound.delete (sound : Sound all s v) (good : isbadport portid = false) {stage : Stage}
    (before : (v.stage portid).Clears .free) (after : stage.Clears .free) (unclaimed : Unclaimed s portid)
    (keeps : (v.stage portid).Keeps side)
    (fewer : ∀ other, stage.Keeps other → other ≠ side ∧ (v.stage portid).Keeps other ∧
      stage.serves (s.changes portid) other = (v.stage portid).serves (s.changes portid) other) (pid : Nat) :
    Sound all { s with kernel := (semdelete s.kernel (s.sem (portid, side))).2 }
      (v.advance portid stage pid v.grants) := by
  have kept : v.Kept (portid, side) := ⟨good, keeps⟩
  have family := sound.family.semdelete kept
  refine sound.advance good before after unclaimed (semdelete_stays _ _) (family.congr ?_ (fun _ _ => rfl) ?_ ?_)
  · rintro ⟨port, other⟩ ⟨otherGood, otherKeeps⟩
    by_cases same : port = portid
    · subst same
      simp only [View.advance, Function.update_self] at otherKeeps
      exact ⟨⟨otherGood, (fewer other otherKeeps).2.1⟩, by simp [(fewer other otherKeeps).1]⟩
    · simp only [View.advance, Function.update_of_ne same] at otherKeeps
      exact ⟨⟨otherGood, otherKeeps⟩, by simp [same]⟩
  · rintro ⟨port, other⟩ ⟨_, otherKeeps⟩
    by_cases same : port = portid
    · subst same
      simp only [View.advance, Function.update_self] at otherKeeps
      simp [View.taking, View.advance, (fewer other otherKeeps).2.2]
    · simp [View.taking, View.advance, same]
  · intro _ _ _
    rfl

/-- The stages of a clear whose grants are not checked. -/
theorem balanced_of_stage {stage : Stage} (here : v.stage portid = stage)
    (free_ : (∃ newstate, stage = .emptied newstate) ∨ stage = .halfway .free ∨ stage = .nearly .free ∨
      stage = .closed) : v.Balanced portid := by
  unfold View.Balanced
  rw [here]
  rcases free_ with ⟨newstate, rfl⟩ | rfl | rfl | rfl <;> trivial

/-- A port leaves the limbo state. -/
theorem Sound.settle (sound : Sound all s v) (good : isbadport portid = false)
    (before : v.stage portid = .nearly newstate) (unclaimed : Unclaimed s portid) {last : Stage}
    (settles : last = .opened ∧ newstate = .alloc ∨ last = .closed ∧ newstate = .free) {nextid : Int}
    (next : isbadport nextid = false) :
    Sound all { s.setPort portid { s.porttab portid with ptstate := newstate } with ptnextid := nextid }
      { v with stage := Function.update v.stage portid last } := by
  have clears : (v.stage portid).Clears newstate := Or.inr (Or.inr before)
  have isEmpty : v.queue portid = [] := sound.nodes.unused portid (Or.inr clears.limbo.2.1)
  have stages : ∀ other, other ≠ portid → Function.update v.stage portid last other = v.stage other :=
    fun other apart => Function.update_of_ne apart _ _
  have entries : ∀ other, ∃ state, Function.update s.porttab portid
      { s.porttab portid with ptstate := newstate } other = { s.porttab other with ptstate := state } := by
    intro other
    by_cases same : other = portid
    · exact ⟨newstate, by rw [same, Function.update_self]⟩
    · exact ⟨_, Function.update_of_ne same _ _⟩
  refine ⟨next, fun other otherGood => ?_, fun other otherGood => ?_, fun other otherGood used => ?_,
    fun other point isThere => ?_, ?_, ?_⟩
  · by_cases same : other = portid
    · subst same
      show (Function.update s.porttab other _ other).ptstate = (Function.update v.stage other last other).state
      rw [Function.update_self, Function.update_self]
      rcases settles with ⟨rfl, rfl⟩ | ⟨rfl, rfl⟩ <;> rfl
    · show (Function.update s.porttab portid _ other).ptstate = (Function.update v.stage portid last other).state
      rw [Function.update_of_ne same, Function.update_of_ne same]
      exact sound.state other otherGood
  · obtain ⟨state, entry⟩ := entries other
    show (Function.update s.porttab portid _ other).ptseq = _
    rw [entry]
    exact sound.seq other otherGood
  · obtain ⟨state, entry⟩ := entries other
    show ((Function.update s.porttab portid _ other).ptmaxcnt.toNat : Int) = _
    rw [entry]
    refine sound.capacity other otherGood ?_
    by_cases same : other = portid
    · exact same ▸ clears.limbo.2.2
    · exact stages other same ▸ used
  · exact (sound.points other point isThere).restage (fun other apart => ⟨rfl, stages other apart, rfl⟩)
      (Or.inl ⟨clears.limbo.2.1, rfl⟩) (unclaimed other point isThere)
  · have sems : ∀ member : Int × Side, ((Function.update s.porttab portid
        { s.porttab portid with ptstate := newstate }) member.1).sem member.2 = s.sem member := by
      rintro ⟨port, side⟩
      obtain ⟨state, entry⟩ := entries port
      dsimp only
      rw [entry]
      cases side <;> rfl
    refine sound.family.congr ?_ (fun member _ => sems member) ?_ (fun _ _ _ => rfl)
    · rintro ⟨port, side⟩ ⟨otherGood, keeps⟩
      refine ⟨otherGood, ?_⟩
      by_cases same : port = portid
      · subst same
        dsimp only at keeps ⊢
        rw [Function.update_self] at keeps
        rw [before]
        rcases settles with ⟨_, isAlloc⟩ | ⟨rfl, _⟩
        · exact isAlloc
        · exact keeps.elim
      · dsimp only at keeps ⊢
        rwa [Function.update_of_ne same] at keeps
    · rintro ⟨port, side⟩ _
      by_cases same : port = portid
      · subst same
        rcases settles with ⟨rfl, _⟩ | ⟨rfl, _⟩ <;>
          simp [View.taking, before, Stage.serves, System.setPort]
      · simp [View.taking, same, System.setPort]
  · refine sound.nodes.exchange good stages (Function.update_eq_self ..).symm
      (fun other apart => Function.update_of_ne apart _ _) (List.Perm.refl _) (fun _ _ _ => rfl) sound.nodes.free
      ⟨fun opened => ?_, fun state clears isAlloc => ?_⟩ fun _ => isEmpty
    · have isAlloc : newstate = .alloc := by
        dsimp only at opened
        rw [Function.update_self] at opened
        rcases settles with ⟨_, isAlloc⟩ | ⟨rfl, _⟩
        · exact isAlloc
        · cases opened
      obtain ⟨head, tail⟩ := (sound.nodes.queues portid good).emptied newstate clears isAlloc
      show Reaches _ null (Function.update s.porttab portid _ portid).pthead (v.queue portid) ∧
        (Function.update s.porttab portid _ portid).pttail = tailOf null (v.queue portid)
      rw [Function.update_self, isEmpty]
      exact ⟨head, tail⟩
    · dsimp only at clears
      rw [Function.update_self] at clears
      rcases settles with ⟨rfl, _⟩ | ⟨rfl, _⟩ <;> simp at clears

/-- The end of a clear. -/
theorem Law.clearEnd (law : Law all s v) (good : isbadport portid = false) (idle : s.kernel.process pid = .idle)
    (stage : v.stage portid = .nearly newstate) (clearer : v.clearer portid = pid) (real : newstate ≠ .limbo) :
    ∃ w, Law all (clearEnd s pid portid newstate).2 w ∧
      Happen (v.slots s) (clearEnd s pid portid newstate).1 (w.slots (clearEnd s pid portid newstate).2) := by
  have unclaimed : Unclaimed s portid := law.toSound.unclaimed (Or.inr ⟨clearer, idle⟩)
  have isEmpty : v.queue portid = [] := law.nodes.unused portid (Or.inr (by simp [stage]))
  have balanced := law.balanced portid good
  unfold View.Balanced at balanced
  rw [stage] at balanced
  have elsewhere : ∀ last other, other ≠ portid → isbadport other = false →
      View.Balanced { v with stage := Function.update v.stage portid last } other := fun last other apart otherGood =>
    (law.balanced other otherGood).congr (Function.update_of_ne apart _ _) rfl rfl fun _ => rfl
  cases newstate with
  | limbo => exact absurd rfl real
  | alloc =>
    have settled := law.toSound.settle good stage unclaimed (Or.inl ⟨rfl, rfl⟩) law.next
    refine ⟨_, ⟨settled.finish idle, fun other otherGood => ?_⟩, .cons _ _ _ _ _ (.settled portid .alloc)
      (happen_returned _ pid ok)⟩
    by_cases same : other = portid
    · subst same
      unfold View.Balanced
      dsimp only
      rw [Function.update_self, isEmpty]
      simpa using ⟨balanced.1, balanced.2.1, balanced.2.2.1⟩
    · exact elsewhere _ other same otherGood
  | free =>
    have settled := law.toSound.settle good stage unclaimed (Or.inr ⟨rfl, rfl⟩) good
    refine ⟨_, ⟨settled.finish idle, fun other otherGood => ?_⟩, .cons _ _ _ _ _ (.settled portid .free)
      (happen_returned _ pid ok)⟩
    by_cases same : other = portid
    · subst same
      exact balanced_of_stage (Function.update_self ..) (Or.inr (Or.inr (Or.inr rfl)))
    · exact elsewhere _ other same otherGood

/-- A process waits for its turn at a point of its clear. -/
theorem Law.clearing (law : Law all s v) (idle : s.kernel.process pid = .idle)
    (known : PointSound s v pid point) (quiet : ∀ port side generation, ¬ Taking port side generation point) :
    Law all (s.place pid (.ready point)) v :=
  ⟨law.toSound.quiet idle quiet known, law.balanced⟩

/-- A process that is not waiting is not touched by `semreset` or `semdelete`. -/
theorem idle_of_stays {before after : Process Point} (stays : Stays before after) (idle : before = .idle) :
    after = .idle := by
  rcases stays with same | released
  · exact same.trans idle
  · rw [released, idle]
    rfl

/-- The ports beside the one that is cleared stay balanced. -/
theorem Law.advanced (law : Law all s v) {stage : Stage} {grants : Int × Side → Int}
    (sound : Sound all t (v.advance portid stage pid grants))
    (others : ∀ other side, other ≠ portid → grants (other, side) = v.grants (other, side))
    (here : (v.advance portid stage pid grants).Balanced portid) :
    Law all t (v.advance portid stage pid grants) := by
  refine ⟨sound, fun other otherGood => ?_⟩
  by_cases same : other = portid
  · exact same ▸ here
  · exact (law.balanced other otherGood).congr (Function.update_of_ne same _ _) rfl rfl
      fun side => others other side same

/-- The second semaphore of a clear. -/
theorem Law.secondSemaphore (law : Law all s v) (good : isbadport portid = false)
    (idle : s.kernel.process pid = .idle) (stage : v.stage portid = .halfway newstate)
    (clearer : v.clearer portid = pid) (real : newstate ≠ .limbo) {switched : Bool} {kernel : Kernel Point}
    (operation : (if newstate = .alloc then semreset s.kernel (s.porttab portid).ptrsem 0
      else semdelete s.kernel (s.porttab portid).ptrsem) = (switched, kernel)) :
    kernel.process pid = .idle ∧
      ∃ grants, Law all { s with kernel := kernel } (v.advance portid (.nearly newstate) pid grants) := by
  have unclaimed : Unclaimed s portid := law.toSound.unclaimed (Or.inr ⟨clearer, idle⟩)
  have balanced := law.balanced portid good
  unfold View.Balanced at balanced
  rw [stage] at balanced
  cases newstate with
  | limbo => exact absurd rfl real
  | alloc =>
    rw [if_pos rfl] at operation
    obtain rfl : kernel = (semreset s.kernel (s.sem (portid, .recv)) 0).2 := (congrArg Prod.snd operation).symm
    refine ⟨idle_of_stays (semreset_stays _ _ _ pid) idle, _, law.advanced (law.toSound.reset good
      (Or.inr (Or.inl stage)) (Or.inr (Or.inr rfl)) (le_refl 0) unclaimed (fun side => ?_) rfl
      (fun other apart => ?_) pid) (fun other side apart => ?_) ?_⟩
    · rw [stage]
      exact Or.inl rfl
    · cases other with
      | send =>
        rw [stage]
        rfl
      | recv => exact absurd rfl apart
    · exact Function.update_of_ne (by simp [apart]) _ _
    · unfold View.Balanced View.advance
      dsimp only
      rw [Function.update_self]
      dsimp only
      rw [Function.update_self, Function.update_of_ne (by simp)]
      exact ⟨balanced.1, rfl, balanced.2⟩
  | free =>
    rw [if_neg (by simp)] at operation
    obtain rfl : kernel = (semdelete s.kernel (s.sem (portid, .recv))).2 := (congrArg Prod.snd operation).symm
    refine ⟨idle_of_stays (semdelete_stays _ _ pid) idle, _, law.advanced (law.toSound.delete good
      (Or.inr (Or.inl stage)) (Or.inr (Or.inr rfl)) unclaimed ?_ (fun other keeps => ?_) pid)
      (fun _ _ _ => rfl) (balanced_of_stage (Function.update_self ..) (Or.inr (Or.inr (Or.inl rfl))))⟩
    · rw [stage]
      exact Or.inr rfl
    · cases keeps

/-- The second semaphore of a clear, and what follows it. -/
theorem Law.clearSecond (law : Law all s v) (good : isbadport portid = false)
    (idle : s.kernel.process pid = .idle) (stage : v.stage portid = .halfway newstate)
    (clearer : v.clearer portid = pid) (real : newstate ≠ .limbo) :
    ∃ w, Law all (clearSecond s pid portid newstate).2 w ∧
      Happen (v.slots s) (clearSecond s pid portid newstate).1
        (w.slots (clearSecond s pid portid newstate).2) := by
  have advanced := fun switched kernel => @Law.secondSemaphore _ _ _ _ _ _ law good idle stage clearer real switched kernel
  unfold Ports.clearSecond
  dsimp only
  split
  case h_1 kernel switched =>
    obtain ⟨stillIdle, grants, after⟩ := advanced _ _ switched
    exact ⟨_, after.clearing stillIdle ⟨good, real, Function.update_self .., Function.update_self ..⟩
      (fun _ _ _ => id), .nil _⟩
  case h_2 kernel switched =>
    obtain ⟨stillIdle, grants, after⟩ := advanced _ _ switched
    exact after.clearEnd good stillIdle (Function.update_self ..) (Function.update_self ..) real

/-- The first semaphore of a clear. -/
theorem Law.firstSemaphore (law : Law all s v) (good : isbadport portid = false)
    (idle : s.kernel.process pid = .idle) (stage : v.stage portid = .emptied newstate)
    (low : v.limit portid % 2 ^ 16 = v.limit portid) (real : newstate ≠ .limbo) {switched : Bool}
    {kernel : Kernel Point}
    (operation : (if newstate = .alloc then semreset s.kernel (s.porttab portid).ptssem
        (s.porttab portid).ptmaxcnt.toNat
      else semdelete s.kernel (s.porttab portid).ptssem) = (switched, kernel)) :
    kernel.process pid = .idle ∧
      ∃ grants, Law all { s with kernel := kernel } (v.advance portid (.halfway newstate) pid grants) := by
  have unclaimed : Unclaimed s portid :=
    @Sound.unclaimed _ _ _ pid _ law.toSound (Or.inl fun newstate => by simp [stage])
  have capacity : ((s.porttab portid).ptmaxcnt.toNat : Int) = v.limit portid :=
    (law.capacity portid good (by simp [stage])).trans low
  cases newstate with
  | limbo => exact absurd rfl real
  | alloc =>
    rw [if_pos rfl] at operation
    obtain rfl : kernel = (semreset s.kernel (s.sem (portid, .send)) (s.porttab portid).ptmaxcnt.toNat).2 :=
      (congrArg Prod.snd operation).symm
    refine ⟨idle_of_stays (semreset_stays _ _ _ pid) idle, _, law.advanced (law.toSound.reset good
      (Or.inl stage) (Or.inr (Or.inl rfl)) (Int.natCast_nonneg _) unclaimed (fun side => ?_) rfl
      (fun other apart => ?_) pid) (fun other side apart => ?_) ?_⟩
    · rw [stage]
      trivial
    · cases other with
      | send => exact absurd rfl apart
      | recv =>
        rw [stage]
        rfl
    · exact Function.update_of_ne (by simp [apart]) _ _
    · unfold View.Balanced View.advance
      dsimp only
      rw [Function.update_self]
      dsimp only
      rw [Function.update_self]
      exact ⟨capacity, by lia, by lia⟩
  | free =>
    rw [if_neg (by simp)] at operation
    obtain rfl : kernel = (semdelete s.kernel (s.sem (portid, .send))).2 := (congrArg Prod.snd operation).symm
    refine ⟨idle_of_stays (semdelete_stays _ _ pid) idle, _, law.advanced (law.toSound.delete good
      (Or.inl stage) (Or.inr (Or.inl rfl)) unclaimed ?_ (fun other keeps => ?_) pid)
      (fun _ _ _ => rfl) (balanced_of_stage (Function.update_self ..) (Or.inr (Or.inl rfl)))⟩
    · rw [stage]
      trivial
    · rcases keeps with isAlloc | rfl
      · cases isAlloc
      · rw [stage]
        exact ⟨by simp, trivial, rfl⟩

/-- The first semaphore of a clear, and what follows it. -/
theorem Law.clearFirst (law : Law all s v) (good : isbadport portid = false)
    (idle : s.kernel.process pid = .idle) (stage : v.stage portid = .emptied newstate)
    (low : v.limit portid % 2 ^ 16 = v.limit portid) (real : newstate ≠ .limbo) :
    ∃ w, Law all (clearFirst s pid portid newstate).2 w ∧
      Happen (v.slots s) (clearFirst s pid portid newstate).1
        (w.slots (clearFirst s pid portid newstate).2) := by
  have advanced := fun switched kernel => @Law.firstSemaphore _ _ _ _ _ _ law good idle stage low real switched kernel
  unfold Ports.clearFirst
  dsimp only
  split
  case h_1 kernel switched =>
    obtain ⟨stillIdle, grants, after⟩ := advanced _ _ switched
    exact ⟨_, after.clearing stillIdle ⟨good, real, Function.update_self .., Function.update_self ..⟩
      (fun _ _ _ => id), .nil _⟩
  case h_2 kernel switched =>
    obtain ⟨stillIdle, grants, after⟩ := advanced _ _ switched
    exact after.clearSecond good stillIdle (Function.update_self ..) (Function.update_self ..) real

/-- A view after the queue of a port was given back. -/
def View.emptied (v : View) (portid : Int) (newstate : Ptstate) : View :=
  { v with
    stage := Function.update v.stage portid (.emptied newstate)
    limit := Function.update v.limit portid (v.limit portid % 2 ^ 16)
    free := v.queue portid ++ v.free
    queue := Function.update v.queue portid [] }

theorem porttab_empty_self : ∃ head tail, (s.empty portid newstate).porttab portid = { s.porttab portid with
    ptstate := .limbo, ptseq := (s.porttab portid).ptseq + 1, pthead := head, pttail := tail } := by
  by_cases isAlloc : newstate = .alloc
  · exact ⟨null, null, (Function.update_self ..).trans (if_pos isAlloc)⟩
  · exact ⟨_, _, (Function.update_self ..).trans (if_neg isAlloc)⟩

theorem porttab_empty_of_ne {other : Int} (apart : other ≠ portid) :
    (s.empty portid newstate).porttab other = s.porttab other := by
  refine (Function.update_of_ne apart _ _).trans ?_
  split <;> rfl

theorem kernel_empty : (s.empty portid newstate).kernel = s.kernel ∧
    (s.empty portid newstate).ptnextid = s.ptnextid ∧
    (s.empty portid newstate).changes = Function.update s.changes portid (s.changes portid + 1) := by
  unfold System.empty System.countChange System.setPort
  dsimp only
  split
  · exact ⟨rfl, rfl, rfl⟩
  · exact ⟨rfl, rfl, rfl⟩

/-- The nodes of a port are given back, and its generation ends. -/
theorem Sound.empty (sound : Sound all s v) (good : isbadport portid = false)
    (opened : v.stage portid = .opened) (newstate : Ptstate) :
    Sound all (s.empty portid newstate) (v.emptied portid newstate) := by
  obtain ⟨kernel, nextid, changes⟩ := @kernel_empty s portid newstate
  obtain ⟨head, tail, entry⟩ := @porttab_empty_self s portid newstate
  have unclaimed : Unclaimed s portid :=
    @Sound.unclaimed _ _ _ 0 _ sound (Or.inl fun newstate => by simp [opened])
  have stages : ∀ other, other ≠ portid → (v.emptied portid newstate).stage other = v.stage other :=
    fun other apart => Function.update_of_ne apart _ _
  have here : (v.emptied portid newstate).stage portid = .emptied newstate := Function.update_self ..
  refine ⟨nextid ▸ sound.next, fun other otherGood => ?_, fun other otherGood => ?_,
    fun other otherGood used => ?_, fun other point isThere => ?_, ?_, ?_⟩
  · by_cases same : other = portid
    · subst same
      rw [entry, here]
      rfl
    · rw [porttab_empty_of_ne same, stages other same]
      exact sound.state other otherGood
  · rw [changes]
    by_cases same : other = portid
    · subst same
      rw [entry, Function.update_self]
      dsimp only
      rw [sound.seq other good]
      exact (Int32.ofNat_add _ 1).symm
    · rw [porttab_empty_of_ne same, Function.update_of_ne same]
      exact sound.seq other otherGood
  · by_cases same : other = portid
    · subst same
      rw [entry]
      refine (sound.capacity other good (by simp [opened])).trans ?_
      show _ = Function.update v.limit other (v.limit other % 2 ^ 16) other % 2 ^ 16
      rw [Function.update_self, Int.emod_emod]
    · rw [porttab_empty_of_ne same]
      refine (sound.capacity other otherGood (stages other same ▸ used)).trans ?_
      show _ = Function.update v.limit portid (v.limit portid % 2 ^ 16) other % 2 ^ 16
      rw [Function.update_of_ne same]
  · rw [kernel] at isThere
    refine (sound.points other point isThere).restage (fun other apart => ⟨?_, stages other apart, rfl⟩)
      (Or.inr ?_) (unclaimed other point isThere)
    · rw [changes, Function.update_of_ne apart]
    · rw [changes, Function.update_self]
  · rw [kernel]
    refine sound.family.congr ?_ ?_ ?_ (fun _ _ _ => rfl)
    · rintro ⟨port, side⟩ ⟨otherGood, keeps⟩
      by_cases same : port = portid
      · subst same
        exact sound.kept_of_opened good opened side
      · exact ⟨otherGood, stages port same ▸ keeps⟩
    · rintro ⟨port, side⟩ _
      by_cases same : port = portid
      · subst same
        unfold System.sem
        dsimp only
        rw [entry]
        cases side <;> rfl
      · unfold System.sem
        dsimp only
        rw [porttab_empty_of_ne same]
    · rintro ⟨port, side⟩ _
      unfold View.taking
      dsimp only
      rw [changes]
      by_cases same : port = portid
      · subst same
        rw [here, opened, Function.update_self]
        cases side <;> rfl
      · rw [stages port same, Function.update_of_ne same]
  · exact (sound.nodes.empty good opened newstate).withLimit _

theorem ptmsg_empty (address : Nat) :
    ((s.empty portid newstate).node address).ptmsg = (s.node address).ptmsg := by
  unfold System.empty System.countChange System.setPort
  dsimp only
  split
  · rfl
  · exact ptmsg_setNext ..

theorem Law.empty (law : Law all s v) (good : isbadport portid = false)
    (opened : v.stage portid = .opened) (newstate : Ptstate) :
    Law all (s.empty portid newstate) (v.emptied portid newstate) ∧
      (v.emptied portid newstate).slots (s.empty portid newstate) =
        Function.update (v.slots s) portid ⟨v.limit portid % 2 ^ 16, []⟩ := by
  refine ⟨⟨law.toSound.empty good opened newstate, fun other otherGood => ?_⟩,
    slots_update (Function.update_self ..) ?_ (fun other apart => Function.update_of_ne apart _ _)
      fun other apart => ?_⟩
  · by_cases same : other = portid
    · subst same
      exact balanced_of_stage (Function.update_self ..) (Or.inl ⟨newstate, rfl⟩)
    · refine (law.balanced other otherGood).congr (Function.update_of_ne same _ _) ?_
        (Function.update_of_ne same _ _) fun _ => rfl
      exact congrArg List.length (Function.update_of_ne same _ _)
  · unfold View.messages View.emptied
    dsimp only
    rw [Function.update_self, List.map_nil]
  · unfold View.messages View.emptied
    dsimp only
    rw [Function.update_of_ne apart]
    exact List.map_congr_left fun address _ => ptmsg_empty address

/-- `ptreset` and `ptdelete`. -/
theorem Law.ptclear (law : Law all s v) (idle : s.kernel.process pid = .idle) (real : newstate ≠ .limbo)
    (completed : ptclear s pid portid newstate = some (output, t)) :
    ∃ w, Law all t w ∧ Happen (v.slots s) output (w.slots t) := by
  unfold Ports.ptclear at completed
  split at completed
  case isTrue =>
    cases completed
    exact ⟨v, law.finish idle syserr⟩
  case isFalse accepted =>
    obtain ⟨good, isAlloc⟩ := not_or.mp accepted
    replace good : isbadport portid = false := by simpa using good
    have opened : v.stage portid = .opened := (law.toSound.opened_iff good).mp (not_not.mp isAlloc)
    have walked : walk s turns (s.porttab portid).pthead = some (v.messages s portid) :=
      walk_reaches ((law.nodes.queues portid good).reaches opened).1 (law.nodes.short portid)
    rw [walked] at completed
    cases completed
    obtain ⟨emptied, slots⟩ := law.empty good opened newstate
    have stillIdle : (s.empty portid newstate).kernel.process pid = .idle := by rw [kernel_empty.1]; exact idle
    have low : (v.emptied portid newstate).limit portid % 2 ^ 16 = (v.emptied portid newstate).limit portid := by
      unfold View.emptied
      dsimp only
      rw [Function.update_self, Int.emod_emod]
    obtain ⟨w, after, happen⟩ := emptied.clearFirst good stillIdle (Function.update_self ..) low real
    exact ⟨w, after, .cons _ _ _ _ _ (.cleared portid) (slots ▸ happen)⟩

/-- A clear goes on behind its first semaphore. -/
theorem Law.afterFirst (law : Law all s v) (ready : s.kernel.process pid = .ready (.clearing portid newstate)) :
    ∃ w, Law all (Ports.clearSecond (s.place pid .idle) pid portid newstate).2 w ∧
      Happen (v.slots s) (Ports.clearSecond (s.place pid .idle) pid portid newstate).1
        (w.slots (Ports.clearSecond (s.place pid .idle) pid portid newstate).2) := by
  obtain ⟨good, real, stage, clearer⟩ := law.points pid _ (by rw [ready]; rfl)
  have runs : Law all (s.place pid .idle) v := ⟨law.toSound.run ready fun _ _ takes => takes, law.balanced⟩
  exact runs.clearSecond good (place_self _) stage clearer real

/-- A clear goes on behind its second semaphore. -/
theorem Law.afterSecond (law : Law all s v) (ready : s.kernel.process pid = .ready (.cleared portid newstate)) :
    ∃ w, Law all (Ports.clearEnd (s.place pid .idle) pid portid newstate).2 w ∧
      Happen (v.slots s) (Ports.clearEnd (s.place pid .idle) pid portid newstate).1
        (w.slots (Ports.clearEnd (s.place pid .idle) pid portid newstate).2) := by
  obtain ⟨good, real, stage, clearer⟩ := law.points pid _ (by rw [ready]; rfl)
  have runs : Law all (s.place pid .idle) v := ⟨law.toSound.run ready fun _ _ takes => takes, law.balanced⟩
  exact runs.clearEnd good (place_self _) stage clearer real

end Stages

end Xinu.Ports
