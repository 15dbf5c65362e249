import Xinu.PortDelivery

/-!
# The capacity after a reset

`ptreset` sets the sender semaphore of a port to the count that the table keeps. The table keeps 16
bits of the count with which the port was made, so that a port with a larger count has fewer places
after its first reset. The receiver semaphore is 0, the queue is empty and its nodes are on the free
list.
-/

namespace Xinu.Ports

open Semaphores Runs NullTerminated Partitions

/-- The effects of a clear. -/
def Effect.clears : Effect → Bool
  | .cleared _ _ | .settled _ _ => true
  | .created _ _ | .sent _ _ | .received _ _ | .returned _ _ => false

section Counts

variable {all : List Nat} {s t : System} {v w : View} {pid : Nat} {point : Point} {portid : Int}
  {side : Side} {newstate : Ptstate} {output history : List Effect} {move : Move}

/-- At the end of a reset nobody waits for a semaphore of the port, and its count is what it grants. -/
theorem Law.counts (law : Law all s v) (good : isbadport portid = false)
    (stage : v.stage portid = .nearly .alloc) (side : Side) (made : s.sem (portid, side) ≠ Semaphores.syserr) :
    semcount s.kernel (s.sem (portid, side)) = v.grants (portid, side) := by
  have kept : v.Kept (portid, side) := by
    refine ⟨good, ?_⟩
    dsimp only
    rw [stage]
    rfl
  have nobody : ∀ pid point, v.taking s (portid, side) point → (s.kernel.process pid).point ≠ some point := by
    intro pid point takes
    unfold View.taking at takes
    dsimp only at takes
    rw [stage] at takes
    exact law.toSound.nobody (by simp [stage]) pid point takes
  rcases law.family.granted _ kept with ⟨missing, _⟩ | tokens
  · exact absurd missing made
  have counted := tokens.counted fun pid point takes ready => nobody pid point takes (by rw [ready]; rfl)
  have length := law.family.law.count _ tokens.valid.2
  have isEmpty : (s.kernel.semtab (s.sem (portid, side))).squeue = [] := by
    refine List.eq_nil_iff_forall_not_mem.mpr fun pid member => ?_
    obtain ⟨point, waits⟩ := (law.family.law.queued _ pid).mp member
    exact nobody pid point (tokens.waiting pid point waits) (by rw [waits]; rfl)
  rw [isEmpty, List.length_nil] at length
  rw [semcount_eq tokens.valid]
  lia

/-- A state in which a reset sets the state of its port. -/
structure Settling (all : List Nat) (s : System) (v : View) (portid : Int) (before : System) (limit : Int) :
    Prop where
  law : Law all s v
  good : isbadport portid = false
  stage : v.stage portid = .nearly .alloc
  limit : v.limit portid % 2 ^ 16 = limit % 2 ^ 16
  sems : ∀ side, s.sem (portid, side) = before.sem (portid, side)

/-- The second semaphore of a clear comes right before its end. -/
theorem settling_second (law : Law all s v) (good : isbadport portid = false)
    (idle : s.kernel.process pid = .idle) (stage : v.stage portid = .halfway newstate)
    (clearer : v.clearer portid = pid) (real : newstate ≠ .limbo) {other : Int}
    (settled : .settled other .alloc ∈ (clearSecond s pid portid newstate).1) :
    ∃ r x, Settling all r x other s (v.limit other) ∧
      (clearSecond s pid portid newstate).2 = (clearEnd r pid other .alloc).2 := by
  have advanced := fun switched kernel => @Law.secondSemaphore _ _ _ _ _ _ law good idle stage clearer real switched kernel
  unfold Ports.clearSecond at settled ⊢
  dsimp only at settled ⊢
  split at settled
  case h_1 => cases settled
  case h_2 kernel switched =>
    obtain ⟨_, grants, after⟩ := advanced _ _ switched
    unfold Ports.clearEnd System.finish at settled
    simp only [List.mem_cons, Effect.settled.injEq, reduceCtorEq, List.not_mem_nil, or_false] at settled
    obtain ⟨rfl, rfl⟩ := settled
    exact ⟨_, _, ⟨after, good, Function.update_self .., rfl, fun _ => rfl⟩, rfl⟩

/-- The first semaphore of a reset, without a switch behind it. -/
theorem settling_first (law : Law all s v) (good : isbadport portid = false)
    (idle : s.kernel.process pid = .idle) (stage : v.stage portid = .emptied newstate)
    (low : v.limit portid % 2 ^ 16 = v.limit portid) (real : newstate ≠ .limbo) {other : Int}
    (settled : .settled other .alloc ∈ (clearFirst s pid portid newstate).1) :
    ∃ r x, Settling all r x other s (v.limit other) ∧
      (clearFirst s pid portid newstate).2 = (clearEnd r pid other .alloc).2 := by
  have advanced := fun switched kernel => @Law.firstSemaphore _ _ _ _ _ _ law good idle stage low real switched kernel
  unfold Ports.clearFirst at settled ⊢
  dsimp only at settled ⊢
  split at settled
  case h_1 => cases settled
  case h_2 kernel switched =>
    obtain ⟨stillIdle, grants, after⟩ := advanced _ _ switched
    obtain ⟨r, x, settling, result⟩ := settling_second after good stillIdle (Function.update_self ..)
      (Function.update_self ..) real settled
    exact ⟨r, x, ⟨settling.law, settling.good, settling.stage, settling.limit, settling.sems⟩, result⟩

/-- A call of `ptreset` that goes through without a switch. -/
theorem settling_clear (law : Law all s v) (idle : s.kernel.process pid = .idle) (real : newstate ≠ .limbo)
    (completed : ptclear s pid portid newstate = some (output, t)) {other : Int}
    (settled : .settled other .alloc ∈ output) :
    ∃ r x, Settling all r x other s (v.limit other) ∧ t = (clearEnd r pid other .alloc).2 := by
  unfold Ports.ptclear at completed
  split at completed
  case isTrue =>
    cases completed
    simp at settled
  case isFalse accepted =>
    obtain ⟨good, isAlloc⟩ := not_or.mp accepted
    replace good : isbadport portid = false := by simpa using good
    have opened : v.stage portid = .opened := (law.toSound.opened_iff good).mp (not_not.mp isAlloc)
    have walked : walk s turns (s.porttab portid).pthead = some (v.messages s portid) :=
      walk_reaches ((law.nodes.queues portid good).reaches opened).1 (law.nodes.short portid)
    rw [walked] at completed
    cases completed
    have emptied := (law.empty good opened newstate).1
    have stillIdle : (s.empty portid newstate).kernel.process pid = .idle := by rw [kernel_empty.1]; exact idle
    have low : (v.emptied portid newstate).limit portid % 2 ^ 16 = (v.emptied portid newstate).limit portid := by
      unfold View.emptied
      dsimp only
      rw [Function.update_self, Int.emod_emod]
    rcases List.mem_cons.mp settled with here | later
    · cases here
    obtain ⟨r, x, settling, result⟩ := settling_first emptied good stillIdle (Function.update_self ..) low real later
    refine ⟨r, x, ⟨settling.law, settling.good, settling.stage, settling.limit.trans ?_,
      fun side => (settling.sems side).trans ?_⟩, result⟩
    · unfold View.emptied
      dsimp only
      by_cases same : other = portid
      · rw [same, Function.update_self, Int.emod_emod]
      · rw [Function.update_of_ne same]
    · unfold System.sem
      dsimp only
      by_cases same : other = portid
      · obtain ⟨head, tail, entry⟩ := @porttab_empty_self s portid newstate
        rw [same, entry]
        cases side <;> rfl
      · rw [porttab_empty_of_ne same]

/-- `ptsend` and `ptrecv` clear nothing. -/
theorem ptsendRest_quiet {seq : Int32} {msg : UInt32}
    (completed : ptsendRest s pid portid seq msg = some (output, t)) : ∀ effect ∈ output, effect.clears = false := by
  unfold ptsendRest at completed
  split at completed
  · cases completed
    simp [Effect.clears]
  split at completed
  · cases completed
  dsimp only at completed
  split at completed
  · cases completed
    simp [Effect.clears]
  · cases completed
    simp [Effect.clears, System.finish]

theorem ptrecvRest_quiet {seq : Int32}
    (completed : ptrecvRest s pid portid seq = some (output, t)) : ∀ effect ∈ output, effect.clears = false := by
  unfold ptrecvRest at completed
  split at completed
  · cases completed
    simp [Effect.clears]
  split at completed
  · cases completed
  dsimp only at completed
  split at completed
  · cases completed
    simp [Effect.clears]
  · cases completed
    simp [Effect.clears, System.finish]

theorem ptsend_quiet {msg : UInt32} (completed : ptsend s pid portid msg = some (output, t)) :
    ∀ effect ∈ output, effect.clears = false := by
  unfold ptsend at completed
  split at completed
  · cases completed
    simp [Effect.clears]
  dsimp only at completed
  split at completed
  · cases completed
    simp [Effect.clears]
  · cases completed
    simp [Effect.clears]
  · exact ptsendRest_quiet completed

theorem ptrecv_quiet (completed : ptrecv s pid portid = some (output, t)) :
    ∀ effect ∈ output, effect.clears = false := by
  unfold ptrecv at completed
  split at completed
  · cases completed
    simp [Effect.clears]
  dsimp only at completed
  split at completed
  · cases completed
    simp [Effect.clears]
  · cases completed
    simp [Effect.clears]
  · exact ptrecvRest_quiet completed

/-- A step that ends a reset. -/
theorem settling_step (law : Law all s v) (completed : step s move = some (output, t))
    (settled : .settled portid .alloc ∈ output) :
    ∃ r x pid, Settling all r x portid s (v.limit portid) ∧ t = (clearEnd r pid portid .alloc).2 := by
  unfold step at completed
  split at completed
  case h_1 pid call =>
    split at completed
    case isFalse => cases completed
    case isTrue idle =>
      cases call with
      | ptcreate count =>
        cases completed
        split at settled <;> simp at settled
      | ptsend port msg => cases ptsend_quiet completed _ settled
      | ptrecv port => cases ptrecv_quiet completed _ settled
      | ptreset port =>
        obtain ⟨r, x, settling, result⟩ := settling_clear law idle (by simp) completed settled
        exact ⟨r, x, pid, settling, result⟩
      | ptdelete port =>
        obtain ⟨r, x, settling, result⟩ := settling_clear law idle (by simp) completed settled
        exact ⟨r, x, pid, settling, result⟩
  case h_2 pid =>
    split at completed
    case h_2 => cases completed
    case h_3 => cases completed
    case h_1 point ready =>
      cases point with
      | sending port seq msg began => cases ptsendRest_quiet completed _ settled
      | receiving port seq began => cases ptrecvRest_quiet completed _ settled
      | sent =>
        cases completed
        simp at settled
      | received msg =>
        cases completed
        simp at settled
      | clearing port state =>
        obtain ⟨good, real, stage, clearer⟩ := law.points pid _ (by rw [ready]; rfl)
        have runs : Law all (s.place pid .idle) v := ⟨law.toSound.run ready fun _ _ takes => takes, law.balanced⟩
        have result : clearSecond (s.place pid .idle) pid port state = (output, t) := Option.some.inj completed
        obtain ⟨r, x, settling, last⟩ := settling_second runs good (place_self _) stage clearer real
          (by rw [result]; exact settled)
        rw [result] at last
        exact ⟨r, x, pid, ⟨settling.law, settling.good, settling.stage, settling.limit, settling.sems⟩, last⟩
      | cleared port state =>
        obtain ⟨good, real, stage, clearer⟩ := law.points pid _ (by rw [ready]; rfl)
        have runs : Law all (s.place pid .idle) v := ⟨law.toSound.run ready fun _ _ takes => takes, law.balanced⟩
        cases completed
        simp only [List.mem_cons, Effect.settled.injEq, reduceCtorEq,
          List.not_mem_nil, or_false] at settled
        obtain ⟨rfl, rfl⟩ := settled
        exact ⟨_, _, pid, ⟨runs, good, stage, rfl, fun _ => rfl⟩, rfl⟩

/-- The stages of a clear behind its first one change no node and clear nothing more. -/
theorem clearSecond_nodes (s : System) (pid : Nat) (portid : Int) (newstate : Ptstate) :
    (clearSecond s pid portid newstate).2.node = s.node ∧ (clearSecond s pid portid newstate).2.ptfree = s.ptfree ∧
      ∀ other disposed, .cleared other disposed ∉ (clearSecond s pid portid newstate).1 := by
  have last : ∀ kernel, (clearEnd { s with kernel := kernel } pid portid newstate).2.node = s.node ∧
      (clearEnd { s with kernel := kernel } pid portid newstate).2.ptfree = s.ptfree ∧
      ∀ other disposed, .cleared other disposed ∉ (clearEnd { s with kernel := kernel } pid portid newstate).1 := by
    intro kernel
    unfold clearEnd System.finish
    dsimp only
    split <;> exact ⟨rfl, rfl, fun other disposed => by simp⟩
  unfold clearSecond
  dsimp only
  split
  · exact ⟨rfl, rfl, fun _ _ => by simp⟩
  · exact last _

theorem clearFirst_nodes (s : System) (pid : Nat) (portid : Int) (newstate : Ptstate) :
    (clearFirst s pid portid newstate).2.node = s.node ∧ (clearFirst s pid portid newstate).2.ptfree = s.ptfree ∧
      ∀ other disposed, .cleared other disposed ∉ (clearFirst s pid portid newstate).1 := by
  unfold clearFirst
  dsimp only
  split
  · exact ⟨rfl, rfl, fun _ _ => by simp⟩
  · exact clearSecond_nodes ..

/-- A call that clears a port gives its nodes back. -/
theorem clear_gives_back (law : Law all s v) (completed : ptclear s pid portid newstate = some (output, t))
    {other : Int} {disposed : List UInt32} (cleared : .cleared other disposed ∈ output) :
    Reaches t.next null t.ptfree (v.queue other ++ v.free) ∧ isbadport other = false ∧ v.stage other = .opened := by
  unfold ptclear at completed
  split at completed
  case isTrue =>
    cases completed
    simp at cleared
  case isFalse accepted =>
    obtain ⟨good, isAlloc⟩ := not_or.mp accepted
    replace good : isbadport portid = false := by simpa using good
    have opened : v.stage portid = .opened := (law.toSound.opened_iff good).mp (not_not.mp isAlloc)
    have walked : walk s turns (s.porttab portid).pthead = some (v.messages s portid) :=
      walk_reaches ((law.nodes.queues portid good).reaches opened).1 (law.nodes.short portid)
    rw [walked] at completed
    cases completed
    obtain ⟨node, free, quiet⟩ := clearFirst_nodes (s.empty portid newstate) pid portid newstate
    rcases List.mem_cons.mp cleared with here | later
    · cases here
      have given := (law.nodes.empty good opened newstate).free
      have next : (clearFirst (s.empty portid newstate) pid portid newstate).2.next = (s.empty portid newstate).next := by
        unfold System.next
        rw [node]
      refine ⟨?_, good, opened⟩
      show Reaches (clearFirst (s.empty portid newstate) pid portid newstate).2.next null
        (clearFirst (s.empty portid newstate) pid portid newstate).2.ptfree _
      rw [next, free]
      exact given
    · exact absurd later (quiet other disposed)

/-- A step that clears a port gives its nodes back. -/
theorem step_gives_back (law : Law all s v) (completed : step s move = some (output, t))
    {disposed : List UInt32} (cleared : .cleared portid disposed ∈ output) :
    Reaches t.next null t.ptfree (v.queue portid ++ v.free) ∧ isbadport portid = false ∧
      v.stage portid = .opened := by
  unfold step at completed
  split at completed
  case h_1 pid call =>
    split at completed
    case isFalse => cases completed
    case isTrue idle =>
      cases call with
      | ptcreate count =>
        cases completed
        split at cleared <;> simp at cleared
      | ptsend port msg => cases ptsend_quiet completed _ cleared
      | ptrecv port => cases ptrecv_quiet completed _ cleared
      | ptreset port => exact clear_gives_back law completed cleared
      | ptdelete port => exact clear_gives_back law completed cleared
  case h_2 pid =>
    split at completed
    case h_2 => cases completed
    case h_3 => cases completed
    case h_1 point ready =>
      cases point with
      | sending port seq msg began => cases ptsendRest_quiet completed _ cleared
      | receiving port seq began => cases ptrecvRest_quiet completed _ cleared
      | sent =>
        cases completed
        simp at cleared
      | received msg =>
        cases completed
        simp at cleared
      | clearing port state =>
        have result : clearSecond (s.place pid .idle) pid port state = (output, t) := Option.some.inj completed
        have quiet := (clearSecond_nodes (s.place pid .idle) pid port state).2.2 portid disposed
        rw [result] at quiet
        exact absurd cleared quiet
      | cleared port state =>
        cases completed
        simp at cleared

end Counts

/-- What a reset restores: the sender semaphore has a count, the receiver semaphore 0, and no message is
left. -/
structure Restored (s : System) (portid count : Int) : Prop where
  send : semcount s.kernel (s.porttab portid).ptssem = count
  recv : semcount s.kernel (s.porttab portid).ptrsem = 0
  empty : (s.porttab portid).pthead = null ∧ (s.porttab portid).pttail = null

/-- Where an event clears a port, every node that was queued goes to the free list once. -/
def GivenBack (event : Event System Move (List Effect)) : Prop :=
  ∀ portid disposed, .cleared portid disposed ∈ event.reply → ∀ cells spare,
    Reaches event.before.next null (event.before.porttab portid).pthead cells →
    Reaches event.before.next null event.before.ptfree spare →
    Reaches event.after.next null event.after.ptfree (cells ++ spare) ∧ (cells ++ spare).Nodup

section Resets

variable {s t last : System} {v : View} {used : Int → Processes.Sstate} {all : List Nat} {maxmsgs memory : Nat}
  {portid limit count : Int} {pid : Nat} {move : Move} {output history : List Effect}
  {events : List (Event System Move (List Effect))} {event : Event System Move (List Effect)}

theorem givenBack (reached : Reached all s history) (completed : step s move = some (output, t)) :
    GivenBack ⟨s, move, output, t⟩ := by
  intro portid disposed cleared cells spare queued isFree
  obtain ⟨v, law, _⟩ := reached
  obtain ⟨given, good, opened⟩ := step_gives_back law completed cleared
  have sameQueue : v.queue portid = cells := ((law.nodes.queues portid good).reaches opened).1.unique queued
  have sameFree : v.free = spare := law.nodes.free.unique isFree
  rw [sameQueue, sameFree] at given
  refine ⟨given, List.nodup_append.mpr ⟨?_, ?_, ?_⟩⟩
  · exact sameQueue ▸ law.nodes.divided.distinct (some portid)
  · exact sameFree ▸ law.nodes.divided.distinct none
  · rintro address inQueue _ inFree rfl
    exact law.nodes.not_free (sameQueue ▸ inQueue) (sameFree ▸ inFree)

/-- The end of a reset leaves the counts that its semaphores grant, and the queue empty. -/
theorem Settling.counts (settling : Settling all s v portid t limit)
    (made : ∀ side, t.sem (portid, side) ≠ Semaphores.syserr) (pid : Nat) :
    Restored (clearEnd s pid portid .alloc).2 portid (limit % 2 ^ 16) := by
  obtain ⟨law, good, stage, sameLimit, sems⟩ := settling
  have balanced := law.balanced portid good
  unfold View.Balanced at balanced
  rw [stage] at balanced
  have counts := fun side => law.counts good stage side (sems side ▸ made side)
  have sameSems : ∀ side, ((clearEnd s pid portid .alloc).2.porttab portid).sem side = s.sem (portid, side) := by
    intro side
    show (Function.update s.porttab portid _ portid).sem side = _
    rw [Function.update_self]
    cases side <;> rfl
  have semtab : ∀ sem, semcount (clearEnd s pid portid .alloc).2.kernel sem = semcount s.kernel sem := fun _ => rfl
  refine ⟨?_, ?_, ?_⟩
  · rw [semtab]
    refine (congrArg _ (sameSems .send)).trans ((counts .send).trans ?_)
    lia
  · rw [semtab]
    exact (congrArg _ (sameSems .recv)).trans ((counts .recv).trans balanced.2.1)
  · show (Function.update s.porttab portid _ portid).pthead = null ∧
      (Function.update s.porttab portid _ portid).pttail = null
    rw [Function.update_self]
    exact (law.nodes.queues portid good).emptied .alloc (Or.inr (Or.inr stage)) rfl

/-- A semaphore that was not made has no count. -/
theorem not_restored (missing : (s.porttab portid).ptssem = Semaphores.syserr ∨
    (s.porttab portid).ptrsem = Semaphores.syserr) (counted : 0 ≤ count) : ¬ Restored s portid count := by
  intro restored
  have noCount : semcount s.kernel Semaphores.syserr = Semaphores.syserr := by
    unfold semcount
    exact if_pos (Or.inl rfl)
  rcases missing with missing | missing
  · have send := restored.send
    rw [missing, noCount] at send
    rw [← send] at counted
    exact absurd counted (by decide)
  · have recv := restored.recv
    rw [missing, noCount] at recv
    exact absurd recv (by decide)

/-- The end of a clear keeps the semaphores of its port. -/
theorem sems_clearEnd (s : System) (pid : Nat) (portid : Int) (side : Side) :
    ((clearEnd s pid portid .alloc).2.porttab portid).sem side = s.sem (portid, side) := by
  show (Function.update s.porttab portid _ portid).sem side = _
  rw [Function.update_self]
  cases side <;> rfl

/-- Every clear of a run gives the nodes back. -/
theorem run_gives_back (reached : Reached all s []) (run : Run step s events last) (fewer : Meets Fewer events) :
    ∀ clear ∈ events, GivenBack clear := by
  have known := invariant_events (fun state => ∃ history, Reached all state history) Fewer
    (fun _ _ _ _ before condition completed =>
      ⟨_, (Exists.choose_spec before).step condition completed⟩) s last events run ⟨[], reached⟩ fewer
  intro clear member
  obtain ⟨⟨history, before⟩, _, completed⟩ := known clear member
  exact givenBack before completed

/-- In every run from boot, a reset restores its port if and only if 16 bits hold the count with which
the port was made and both of its semaphores were made. -/
theorem reset_restores_capacity_iff (someNodes : 0 < maxmsgs) (real : memory ≠ null)
    (fits : memory + 8 * maxmsgs ≤ 2 ^ 32)
    (run : Run step (booted s used maxmsgs memory) (events ++ [event]) last)
    (fewer : Meets Fewer (events ++ [event])) (settled : .settled portid .alloc ∈ event.reply) :
    (Restored last portid (ledgers (events.flatMap Event.reply) portid).count ∧
        ∀ clear ∈ events ++ [event], GivenBack clear) ↔
      (ledgers (events.flatMap Event.reply) portid).count < 2 ^ 16 ∧
        (event.before.porttab portid).ptssem ≠ Semaphores.syserr ∧
        (event.before.porttab portid).ptrsem ≠ Semaphores.syserr := by
  obtain ⟨law, slots⟩ := booted_law s used someNodes real fits
  have initial : Reached (nodesFrom (maxmsgs - 1) memory) (booted s used maxmsgs memory) [] :=
    ⟨_, law, slots ▸ .nil _⟩
  have givenBack := run_gives_back initial run fewer
  obtain ⟨middle, front, rest⟩ := (run_append _ _ _ _).mp run
  have reached : Reached (nodesFrom (maxmsgs - 1) memory) middle ([] ++ events.flatMap Event.reply) :=
    history_last (Reached (nodesFrom (maxmsgs - 1) memory)) (fun _ => Fewer)
      (fun _ _ _ _ _ before condition completed => before.step condition completed) _ middle events front []
      initial (meetsAfter_of_meets Fewer [] events ((meets_append _ _ _).mp fewer).1)
  rw [List.nil_append] at reached
  obtain ⟨v, lawHere, happen⟩ := reached
  have accounts := history_accounts happen portid
  have counted := accounts.counted
  have limits : v.limit portid % 2 ^ 16 = (ledgers (events.flatMap Event.reply) portid).count % 2 ^ 16 := by
    have limit := accounts.limit
    unfold View.slots at limit
    dsimp only at limit
    lia
  cases rest with
  | taken _ call reply after _ _ completed tail =>
    cases tail
    obtain ⟨r, x, pid, settling, result⟩ := settling_step lawHere completed settled
    have sems : ∀ side, (last.porttab portid).sem side = (middle.porttab portid).sem side := fun side => by
      rw [result, sems_clearEnd]
      exact settling.sems side
    by_cases made : (middle.porttab portid).ptssem ≠ Semaphores.syserr ∧
        (middle.porttab portid).ptrsem ≠ Semaphores.syserr
    · have both : ∀ side, middle.sem (portid, side) ≠ Semaphores.syserr := fun side => by
        cases side with
        | send => exact made.1
        | recv => exact made.2
      have restored := settling.counts both pid
      rw [← result, limits] at restored
      refine ⟨fun holds => ⟨?_, made⟩, fun small => ⟨?_, givenBack⟩⟩
      · have low := holds.1.send.symm.trans restored.send
        lia
      · rwa [Int.emod_eq_of_lt counted small.1] at restored
    · have missing : (last.porttab portid).ptssem = Semaphores.syserr ∨
          (last.porttab portid).ptrsem = Semaphores.syserr := by
        have send : (last.porttab portid).ptssem = (middle.porttab portid).ptssem := sems .send
        have recv : (last.porttab portid).ptrsem = (middle.porttab portid).ptrsem := sems .recv
        rw [send, recv]
        by_contra neither
        exact made (not_or.mp neither)
      exact iff_of_false (fun holds => not_restored missing counted holds.1) fun small => made small.2

theorem small_count_is_restored : ∃ events event last,
    Run step (booted blank (fun _ => .free) 3 8) (events ++ [event]) last ∧ Restored last 0 2 ∧
      ∀ clear ∈ events ++ [event], GivenBack clear := by
  obtain ⟨events, middle, front, checked⟩ := trace_exists step (booted blank (fun _ => .free) 3 8)
    [.call 1 (.ptcreate 2), .call 1 (.ptsend 0 5), .call 1 (.ptsend 0 7)]
    (fun events middle => decide (events.map Event.call = [.call 1 (.ptcreate 2), .call 1 (.ptsend 0 5),
      .call 1 (.ptsend 0 7)] ∧ (ledgers (events.flatMap Event.reply) 0).count = 2 ∧
      ((middle.porttab 0).ptssem ≠ Semaphores.syserr ∧ (middle.porttab 0).ptrsem ≠ Semaphores.syserr) ∧
      ∃ result ∈ step middle (.call 1 (.ptreset 0)), .settled 0 .alloc ∈ result.1)) (by decide +kernel)
  obtain ⟨calls, count, made, ⟨reply, last⟩, completed, settled⟩ := of_decide_eq_true checked
  have run := (run_append _ _ _ _).mpr ⟨middle, front, .taken middle _ reply last last [] completed (.done last)⟩
  have fewer : Meets Fewer (events ++ [⟨middle, .call 1 (.ptreset 0), reply, last⟩]) :=
    fewer_of_calls (by rw [List.map_append, calls]; simp)
  obtain ⟨restored, givenBack⟩ := (reset_restores_capacity_iff (by decide) (by decide) (by decide) run fewer
    settled).mpr ⟨by rw [count]; decide, made⟩
  exact ⟨events, _, last, run, count ▸ restored, givenBack⟩

/-- A port for 65536 messages takes none after its reset. -/
theorem reset_loses_places : ∃ events last, Run step (booted blank (fun _ => .free) 3 8) events last ∧
    Meets Fewer events ∧ (∃ event ∈ events, .settled 0 .alloc ∈ event.reply) ∧
    (ledgers (events.flatMap Event.reply) 0).count = 65536 ∧ ¬ Restored last 0 65536 := by
  obtain ⟨events, last, run, checked⟩ := trace_exists step (booted blank (fun _ => .free) 3 8)
    [.call 1 (.ptcreate 65536), .call 1 (.ptsend 0 5), .call 1 (.ptreset 0)]
    (fun events last => decide (events.map Event.call = [.call 1 (.ptcreate 65536), .call 1 (.ptsend 0 5),
      .call 1 (.ptreset 0)] ∧ (∃ event ∈ events, .settled 0 .alloc ∈ event.reply) ∧
      (ledgers (events.flatMap Event.reply) 0).count = 65536 ∧
      semcount last.kernel (last.porttab 0).ptssem = 0)) (by decide +kernel)
  obtain ⟨calls, settled, count, send⟩ := of_decide_eq_true checked
  have fewer : Meets Fewer events := fewer_of_calls (by rw [calls]; simp)
  refine ⟨events, last, run, fewer, settled, count, fun restored => ?_⟩
  have wrong := send.symm.trans restored.send
  exact absurd wrong (by decide)

end Resets

end Xinu.Ports
