import Xinu.PoolConcurrency

/-!
# Pools and statistics over initialisations

`xmalloc_init` starts the numbering of the pools anew and clears two of the three statistics.
The lines of `xheap_snapshot` agree as long as the third one is zero for all ten sizes when
`xmalloc_init` comes, whatever else the clients do. A buffer that is given back comes to the pool
from which it was taken as long as no buffer is in use, and no process inside of `getbuf`, when
`xmalloc_init` comes.
-/

namespace Xinu.BufferPools

open CIntegers WordMemory Semaphores Runs

/-- The three statistics of a pool agree. -/
def System.Agrees (s : System) (poolid : Int) : Prop :=
  s.fragmBy poolid = s.bufsize poolid * s.allocBf poolid - s.allocBy poolid

/-- The statistics of every pool are the same, or agree. -/
structure Tallied (s after : System) : Prop where
  bufsize : after.bufsize = s.bufsize
  pools : ∀ poolid, (after.allocBy poolid = s.allocBy poolid ∧ after.allocBf poolid = s.allocBf poolid ∧
    after.fragmBy poolid = s.fragmBy poolid) ∨ after.Agrees poolid

/-- What a step of one process leaves as it is. -/
structure Local (s after : System) : Prop where
  heap : after.heap = s.heap
  nbpools : after.nbpools = s.nbpools
  home : after.home = s.home
  made : after.made = s.made

section Frames

variable {s middle after : System} {pid : Nat} {poolid : Int} {reply : Option Int}

theorem Tallied.same (bufsize : after.bufsize = s.bufsize) (allocBy : after.allocBy = s.allocBy)
    (allocBf : after.allocBf = s.allocBf) (fragmBy : after.fragmBy = s.fragmBy) : Tallied s after := by
  refine ⟨bufsize, fun poolid => Or.inl ?_⟩
  rw [allocBy, allocBf, fragmBy]
  exact ⟨rfl, rfl, rfl⟩

theorem tallied_tally (poolid : Int) (bytes buffers : Int32) :
    Tallied s (s.tally poolid bytes buffers) := by
  refine ⟨rfl, fun other => ?_⟩
  rcases eq_or_ne other poolid with rfl | apart
  · right
    simp [System.Agrees, System.tally]
  · left
    simp [System.tally, apart]

theorem Tallied.agrees (tallied : Tallied s after) (agrees : s.Agrees poolid) : after.Agrees poolid := by
  rcases tallied.pools poolid with ⟨bytes, buffers, fragments⟩ | new
  · unfold System.Agrees
    rw [tallied.bufsize, bytes, buffers, fragments]
    exact agrees
  · exact new

/-- `getbuf` behind its `wait`, with the rest of its call. -/
theorem getbufRest_frame {home : Pool} {request : Option Int32}
    (completed : getbufRest s pid poolid home request = some (reply, after)) :
    Local s after ∧ after.kernel = s.kernel.place pid .idle ∧ Tallied s after := by
  unfold getbufRest System.take at completed
  dsimp only at completed
  split at completed
  case isTrue => cases completed
  case isFalse =>
    cases request with
    | none =>
      obtain ⟨rfl, rfl⟩ := Prod.mk.inj (Option.some.inj completed)
      exact ⟨⟨rfl, rfl, rfl, rfl⟩, rfl, Tallied.same rfl rfl rfl rfl⟩
    | some size =>
      obtain ⟨rfl, rfl⟩ := Prod.mk.inj (Option.some.inj completed)
      exact ⟨⟨rfl, rfl, rfl, rfl⟩, rfl, ⟨rfl, (tallied_tally poolid _ _).pools⟩⟩

/-- The list and the semaphore of `freebuf`, with the rest of its call. -/
theorem freebufSignal_frame {bufaddr : Nat} {point : Point} :
    Local s (freebufSignal s pid poolid bufaddr point).2 ∧
      (∃ process, (process = .idle ∨ process = .ready point) ∧
        (freebufSignal s pid poolid bufaddr point).2.kernel = (signal s.kernel
          ((s.putBack poolid bufaddr).buftab poolid).bpsem).2.place pid process) ∧
      Tallied s (freebufSignal s pid poolid bufaddr point).2 := by
  unfold freebufSignal
  dsimp only
  split
  case h_1 kernel switched =>
    have isKernel : kernel = (signal s.kernel ((s.putBack poolid bufaddr).buftab poolid).bpsem).2 :=
      congrArg Prod.snd switched.symm
    rw [← isKernel]
    exact ⟨⟨rfl, rfl, rfl, rfl⟩, ⟨_, Or.inr rfl, rfl⟩, Tallied.same rfl rfl rfl rfl⟩
  case h_2 kernel quiet =>
    have isKernel : kernel = (signal s.kernel ((s.putBack poolid bufaddr).buftab poolid).bpsem).2 :=
      congrArg Prod.snd quiet.symm
    rw [← isKernel]
    cases point with
    | taking => exact ⟨⟨rfl, rfl, rfl, rfl⟩, ⟨_, Or.inl rfl, rfl⟩, Tallied.same rfl rfl rfl rfl⟩
    | freebufEnd => exact ⟨⟨rfl, rfl, rfl, rfl⟩, ⟨_, Or.inl rfl, rfl⟩, Tallied.same rfl rfl rfl rfl⟩
    | xfreeEnd other size =>
      exact ⟨⟨rfl, rfl, rfl, rfl⟩, ⟨_, Or.inl rfl, rfl⟩, ⟨rfl, (tallied_tally other _ _).pools⟩⟩

/-- A step of one process keeps the base. -/
theorem Base.local_ (base : Base s) (local_ : Local s after) (sems : Semaphores.Law after.kernel)
    (past : ∀ this point, At (after.kernel.process this) point →
      At (s.kernel.process this) point ∨ ∀ home ∈ point.home, home.serial < s.made) : Base after := by
  refine ⟨local_.heap ▸ base.heap, sems, local_.nbpools ▸ base.bound, fun poolid current => ?_,
    fun this point here => ?_⟩
  · rw [local_.home, local_.made]
    refine base.young poolid ?_
    unfold System.Current at current ⊢
    rwa [local_.nbpools] at current
  · rw [local_.made]
    rcases past this point here with old | new
    · exact base.past this point old
    · exact new

/-- A process that comes to a place without a pool. -/
theorem at_place {k : Kernel Point} {process : Process Point} (this : Nat) (point : Point)
    (here : At ((k.place pid process).process this) point) :
    At (k.process this) point ∨ At process point := by
  rcases eq_or_ne this pid with rfl | apart
  · rw [place_self] at here
    exact Or.inr here
  · rw [place_of_ne apart] at here
    exact Or.inl here

/-- `wait` brings a process to its own point only. -/
theorem wait_at {k : Kernel Point} {point : Point} {sem : Int} (this : Nat) (other : Point)
    (here : At ((wait k pid point sem).2.process this) other) :
    At (k.process this) other ∨ other = point := by
  by_cases valid : k.Valid sem
  · obtain ⟨_, result⟩ | ⟨_, result⟩ := @wait_cases _ k pid point sem valid
    · rw [result] at here
      exact Or.inl here
    · rw [result] at here
      rcases at_place this other here with old | new
      · exact Or.inl old
      · right
        simpa [At, eq_comm] using new
  · rw [wait_refused valid] at here
    exact Or.inl here

/-- A `wait` that does not block leaves the processes as they are. -/
theorem wait_process {k kernel : Kernel Point} {point : Point} {sem : Int} {waited : Waited}
    (result : wait k pid point sem = (waited, kernel)) (notBlocked : waited ≠ .blocked) :
    kernel.process = k.process := by
  by_cases valid : k.Valid sem
  · obtain ⟨_, same⟩ | ⟨_, same⟩ := @wait_cases _ k pid point sem valid
    · rw [same] at result
      cases result
      rfl
    · rw [same] at result
      cases result
      exact absurd rfl notBlocked
  · rw [wait_refused valid] at result
    cases result
    rfl

theorem Base.getbufRest (base : Base s) (awake : (s.kernel.process pid).Awake) {home : Pool}
    {request : Option Int32}
    (completed : getbufRest s pid poolid home request = some (reply, after)) :
    Base after ∧ Tallied s after := by
  obtain ⟨local_, kernel, tallied⟩ := getbufRest_frame completed
  refine ⟨base.local_ local_ ?_ fun this point here => ?_, tallied⟩
  · rw [kernel]
    exact base.sems.place awake awake_idle
  · rw [kernel] at here
    rcases at_place this point here with old | new
    · exact Or.inl old
    · simp [At] at new

theorem Base.getbufWait (base : Base s) (idle : s.kernel.process pid = .idle)
    (current : s.Current poolid) {request : Option Int32}
    (completed : getbufWait s pid poolid request = some (reply, after)) :
    Base after ∧ Tallied s after := by
  have sems : Semaphores.Law (Semaphores.wait s.kernel pid (.taking poolid (s.home poolid) request)
      (s.buftab poolid).bpsem).2 := base.sems.wait (idle ▸ awake_idle : (s.kernel.process pid).Awake)
  have waited : Base { s with kernel := (Semaphores.wait s.kernel pid
      (.taking poolid (s.home poolid) request) (s.buftab poolid).bpsem).2 } := by
    refine base.local_ ⟨rfl, rfl, rfl, rfl⟩ sems fun this point here => ?_
    rcases wait_at this point here with old | rfl
    · exact Or.inl old
    · refine Or.inr fun home isHome => ?_
      obtain rfl : s.home poolid = home := Option.some.inj isHome
      exact base.young poolid current
  have rest : ∀ kernel result, Semaphores.wait s.kernel pid (.taking poolid (s.home poolid) request)
        (s.buftab poolid).bpsem = (result, kernel) → result ≠ .blocked →
      BufferPools.getbufRest { s with kernel := kernel } pid poolid (s.home poolid) request =
        some (reply, after) → Base after ∧ Tallied s after := by
    intro kernel result isKernel notBlocked rest
    have same := wait_process isKernel notBlocked
    rw [isKernel] at waited
    have awake : (kernel.process pid).Awake := by
      rw [same, idle]
      exact awake_idle
    obtain ⟨baseAfter, tallied⟩ := waited.getbufRest awake rest
    exact ⟨baseAfter, tallied.bufsize, tallied.pools⟩
  unfold BufferPools.getbufWait at completed
  dsimp only at completed
  split at completed
  case h_1 kernel isKernel =>
    rw [isKernel] at waited
    obtain ⟨rfl, rfl⟩ := Prod.mk.inj (Option.some.inj completed)
    exact ⟨waited, Tallied.same rfl rfl rfl rfl⟩
  case h_2 kernel isKernel => exact rest kernel _ isKernel (by simp) completed
  case h_3 kernel isKernel => exact rest kernel _ isKernel (by simp) completed

theorem Base.freebufSignal (base : Base s) (idle : s.kernel.process pid = .idle) (poolid : Int)
    (bufaddr : Nat) {point : Point} (harmless : point.home = none) :
    Base (freebufSignal s pid poolid bufaddr point).2 ∧
      Tallied s (freebufSignal s pid poolid bufaddr point).2 := by
  obtain ⟨local_, ⟨process, places, kernel⟩, tallied⟩ :=
    @freebufSignal_frame s pid poolid bufaddr point
  have stillIdle := signal_idle base.sems ((s.putBack poolid bufaddr).buftab poolid).bpsem idle
  have awake : process.Awake := by
    rcases places with rfl | rfl
    · exact awake_idle
    · exact awake_ready
  refine ⟨base.local_ local_ ?_ fun this other here => ?_, tallied⟩
  · rw [kernel]
    exact base.sems.signal.place (stillIdle ▸ awake_idle) awake
  · rw [kernel] at here
    rcases at_place this other here with old | new
    · exact Or.inl (signal_at base.sems _ this other old)
    · right
      rcases places with rfl | rfl
      · simp [At] at new
      · have same : point = other := by simpa [At] using new
        rw [← same, harmless]
        simp

theorem Base.placeIdle (base : Base s) (awake : (s.kernel.process pid).Awake) :
    Base (s.place pid .idle) := by
  refine base.local_ ⟨rfl, rfl, rfl, rfl⟩ (base.sems.place awake awake_idle) fun this point here => ?_
  rcases at_place this point here with old | new
  · exact Or.inl old
  · simp [At] at new

/-- Every call keeps the base, and those but `xmalloc_init` keep the statistics in agreement. -/
theorem Base.exec (base : Base s) (idle : s.kernel.process pid = .idle) {call : Call}
    (completed : exec s pid call = some (reply, after)) :
    Base after ∧ (call ≠ .xmallocInit → Tallied s after) := by
  have awake : (s.kernel.process pid).Awake := idle ▸ awake_idle
  have refused : Base (s.place pid .idle) ∧ Tallied s (s.place pid .idle) :=
    ⟨base.placeIdle awake, Tallied.same rfl rfl rfl rfl⟩
  cases call with
  | mkbufpool bufsiz numbufs =>
    obtain ⟨poolid, made, result, baseAfter, extended, _⟩ :=
      lasting_base.mkbufpool base bufsiz numbufs
    rw [BufferPools.exec, result] at completed
    cases completed
    exact ⟨baseAfter, fun _ => Tallied.same extended.bufsize extended.allocBy extended.allocBf
      extended.fragmBy⟩
  | getbuf poolid =>
    unfold BufferPools.exec getbuf at completed
    dsimp only at completed
    split at completed
    case isTrue =>
      cases completed
      exact ⟨refused.1, fun _ => refused.2⟩
    case isFalse inside =>
      have current : s.Current poolid.toInt := ⟨by omega, by omega⟩
      exact (base.getbufWait idle current completed).imp_right fun tallied _ => tallied
  | freebuf bufaddr =>
    have ends := @Base.freebufSignal s pid base idle (s.header bufaddr) bufaddr .freebufEnd rfl
    unfold BufferPools.exec freebuf at completed
    dsimp only at completed
    split at completed
    case isTrue =>
      cases completed
      exact ⟨refused.1, fun _ => refused.2⟩
    case isFalse =>
      rw [Option.some.inj completed] at ends
      exact ends.imp_right fun tallied _ => tallied
  | xmallocInit =>
    obtain ⟨made, result, law, _⟩ := base.xmallocInit
    rw [BufferPools.exec, result] at completed
    cases completed
    exact ⟨law.toBase, fun isOther => absurd rfl isOther⟩
  | xmalloc size =>
    unfold BufferPools.exec xmalloc at completed
    dsimp only at completed
    split at completed
    case isTrue =>
      cases completed
      exact ⟨refused.1, fun _ => refused.2⟩
    split at completed
    case isTrue =>
      cases completed
      exact ⟨refused.1, fun _ => refused.2⟩
    split at completed
    case isTrue =>
      cases completed
      exact ⟨refused.1, fun _ => refused.2⟩
    split at completed
    case isTrue =>
      cases completed
      exact ⟨refused.1, fun _ => refused.2⟩
    case isFalse inside =>
      have current : s.Current (findClosestIndex s size) := ⟨by omega, by omega⟩
      exact (base.getbufWait idle current completed).imp_right fun tallied _ => tallied
  | xfree bufaddr =>
    have ends := @Base.freebufSignal s pid base idle (s.header bufaddr) bufaddr
      (.xfreeEnd (s.header bufaddr)
        (load s.memory (bufaddr + (s.buftab (s.header bufaddr)).bpsize - 4)).toInt32) rfl
    unfold BufferPools.exec xfree at completed
    dsimp only at completed
    split at completed
    case isTrue =>
      cases completed
      exact ⟨refused.1, fun _ => refused.2⟩
    split at completed
    case isTrue =>
      cases completed
      exact ⟨refused.1, fun _ => refused.2⟩
    case isFalse =>
      rw [Option.some.inj completed] at ends
      exact ends.imp_right fun tallied _ => tallied

/-- Every move keeps the base, and those but `xmalloc_init` keep the statistics in agreement. -/
theorem Base.step (base : Base s) {move : Move} (completed : step s move = some (reply, after)) :
    Base after ∧ ((∀ pid, move ≠ .call pid .xmallocInit) → Tallied s after) := by
  have enabled := enabled_of_step completed
  cases move with
  | call pid call =>
    have idle : s.kernel.process pid = .idle := enabled
    have result : BufferPools.step s (.call pid call) = BufferPools.exec s pid call := if_pos idle
    rw [result] at completed
    refine (base.exec idle completed).imp_right fun tallied other => tallied ?_
    rintro rfl
    exact other pid rfl
  | goOn pid =>
    obtain ⟨point, ready⟩ := enabled
    have awake : (s.kernel.process pid).Awake := ready ▸ awake_ready
    have result : BufferPools.step s (.goOn pid) = proceed s pid point := by
      simp only [BufferPools.step, ready]
    rw [result] at completed
    cases point with
    | taking poolid home request =>
      have entered := base.placeIdle awake
      obtain ⟨baseAfter, tallied⟩ :=
        entered.getbufRest ((place_self _).symm ▸ awake_idle) completed
      exact ⟨baseAfter, fun _ => ⟨tallied.bufsize, tallied.pools⟩⟩
    | freebufEnd =>
      cases completed
      exact ⟨base.placeIdle awake, fun _ => Tallied.same rfl rfl rfl rfl⟩
    | xfreeEnd poolid size =>
      cases completed
      have placed := base.placeIdle awake
      refine ⟨⟨placed.heap, placed.sems, placed.bound, placed.young, placed.past⟩, fun _ => ?_⟩
      exact ⟨rfl, (tallied_tally poolid _ _).pools⟩
  | write address byte =>
    cases completed
    exact ⟨⟨base.heap, base.sems, base.bound, base.young, base.past⟩,
      fun _ => Tallied.same rfl rfl rfl rfl⟩

end Frames

/-- `xmalloc_init` comes while no bytes of the ten pools are counted as fragmented. -/
def Unfragmented (s : System) : Move → Prop
  | .call _ .xmallocInit => ∀ poolid, 0 ≤ poolid → poolid < poolnum → s.fragmBy poolid = 0
  | _ => True

/-- A buffer came back to the pool from which it was taken: it is the first of the free buffers,
which are all of this pool, and the semaphore of this pool was signalled. -/
structure Returned (before after : System) (hold : Hold) : Prop where
  first : (after.buftab hold.poolid).bpnext = hold.block
  own : ∃ free, Chain after.memory (after.buftab hold.poolid).bpnext free ∧
    ∀ block ∈ free, block ∈ hold.home.blocks
  sem : (after.buftab hold.poolid).bpsem = hold.home.sem
  signalled : (after.kernel.semtab hold.home.sem).scount =
    (before.kernel.semtab hold.home.sem).scount + 1

section Coherence

variable {s after : System} {hold : Hold} {pid : Nat} {reply : Option Int}

/-- `signal` raises the count of its semaphore. -/
theorem signal_count {k : Kernel Point} {sem : Int} (law : Semaphores.Law k) (valid : k.Valid sem) :
    ((signal k sem).2.semtab sem).scount = (k.semtab sem).scount + 1 := by
  obtain ⟨_, result⟩ | ⟨_, first, point, queue, _, _, result⟩ := signal_cases law valid
  · rw [result, setSem_self]
  · rw [result, place_semtab, setSem_self]

/-- `freebuf` of a buffer in use. -/
theorem returned_of_calm (calm : Calm s) (member : hold ∈ s.held)
    (completed : step s (.call pid (.freebuf hold.pointer)) = some (reply, after)) :
    Returned s after hold := by
  have idle : s.kernel.process pid = .idle := enabled_of_step completed
  have current := calm.law.homes hold member
  have pool := calm.law.pools hold.poolid current
  obtain ⟨isHome, _⟩ := pool.headers hold (mem_heldOf.mpr ⟨member, rfl⟩)
  have result : BufferPools.step s (.call pid (.freebuf hold.pointer)) =
      some (freebufSignal s pid hold.poolid hold.pointer .freebufEnd) := by
    rw [← freebuf_result calm.law member pid]
    exact if_pos idle
  have isAfter := congrArg Prod.snd (Option.some.inj (result.symm.trans completed))
  obtain ⟨buftab, _, semtab⟩ := freebufSignal_list s pid hold.poolid hold.pointer .freebufEnd
  obtain ⟨local_, _⟩ := @freebufSignal_frame s pid hold.poolid hold.pointer .freebufEnd
  rw [isAfter] at buftab semtab local_
  have calmAfter := calm_preserved s (.call pid (.freebuf hold.pointer)) reply after calm
    ⟨hold, List.mem_append_left _ member, rfl⟩ completed
  have sem : ((s.putBack hold.poolid hold.pointer).buftab hold.poolid).bpsem = hold.home.sem := by
    rw [isHome, ← pool.sem]
    simp [System.putBack, System.setNext, System.setWord]
  refine ⟨?_, ?_, ?_, ?_⟩
  · rw [buftab]
    simp [System.putBack, System.setNext, Hold.block]
  · have stillCurrent : after.Current hold.poolid := by
      unfold System.Current
      rw [local_.nbpools]
      exact current
    obtain ⟨free, _, chain, perm, _⟩ := (calmAfter.law.pools hold.poolid stillCurrent).lists
    refine ⟨free, chain, fun block inFree => ?_⟩
    rw [isHome, ← local_.home]
    exact perm.mem_iff.mp (List.mem_append_left _ inFree)
  · rw [buftab]
    exact sem
  · rw [semtab, sem, isHome]
    exact signal_count calm.law.sems pool.valid

/-- `freebuf` leaves every pool its semaphore. -/
theorem freebuf_bpsem (s : System) (pid bufaddr : Nat) (poolid : Int) :
    ((freebuf s pid bufaddr).2.buftab poolid).bpsem = (s.buftab poolid).bpsem := by
  unfold freebuf
  dsimp only
  split
  case isTrue => rfl
  case isFalse =>
    rw [(freebufSignal_list ..).1]
    rcases eq_or_ne poolid (s.header bufaddr) with rfl | other
    · simp [System.putBack, System.setNext, System.setWord]
    · simp [System.putBack, System.setNext, System.setWord, other]

/-- `xmalloc_init` clears the statistics of the ten pools. -/
theorem initArrays_agrees (unfragmented : ∀ poolid, 0 ≤ poolid → poolid < poolnum → s.fragmBy poolid = 0)
    (agrees : ∀ poolid, s.Agrees poolid) (poolid : Int) :
    (initArrays (bufinit s)).Agrees poolid := by
  unfold System.Agrees initArrays
  dsimp only
  split
  case isTrue inside =>
    have cleared : (bufinit s).fragmBy poolid = 0 := unfragmented poolid inside.1 inside.2
    rw [cleared]
    simp
  case isFalse => exact agrees poolid

/-- The statistics agree after every step that meets the condition. -/
theorem agrees_preserved (base : Base s) (agrees : ∀ poolid, s.Agrees poolid) {move : Move}
    (unfragmented : Unfragmented s move) (completed : step s move = some (reply, after)) (poolid : Int) :
    after.Agrees poolid := by
  obtain ⟨_, tallied⟩ := base.step completed
  by_cases isInit : ∃ pid, move = .call pid .xmallocInit
  · obtain ⟨pid, rfl⟩ := isInit
    have idle : s.kernel.process pid = .idle := enabled_of_step completed
    obtain ⟨made, result, _, extended, _⟩ := base.xmallocInit
    have initialised : step s (.call pid .xmallocInit) = some (some null, made) := by
      rw [step, if_pos idle, exec, result]
      rfl
    obtain ⟨_, rfl⟩ := Prod.mk.inj (Option.some.inj (initialised.symm.trans completed))
    have cleared := initArrays_agrees unfragmented agrees poolid
    unfold System.Agrees at cleared ⊢
    rw [extended.fragmBy, extended.bufsize, extended.allocBf, extended.allocBy]
    exact cleared
  · exact (tallied fun pid same => isInit ⟨pid, same⟩).agrees (agrees poolid)

end Coherence

/-- In every run in which `xmalloc_init` comes while nothing is fragmented, the numbers of every
line agree. In every run in which it comes while no buffer is in use and no process inside of
`getbuf`, every buffer comes back to its own pool. -/
theorem pools_stay_coherent (heap : HeapMemory.Kernel) (memory : Memory)
    (used : Int → Processes.Sstate) (started : HeapStarted heap)
    (events : List (Event System Move (Option Int))) (last : System)
    (run : Run step (boot heap memory used) events last) :
    (Meets Unfragmented events → ∀ line ∈ xheapSnapshot last,
      line.fragmentedBytes = line.bufferSize * line.allocatedBuffers - line.allocatedBytes) ∧
    (Meets Orderly events → ∀ event ∈ events, ∀ pid hold,
      event.call = .call pid (.freebuf hold.pointer) →
      hold ∈ event.before.held ++ event.before.stranded →
        Returned event.before event.after hold) := by
  refine ⟨fun unfragmented line member => ?_, fun orderly event member pid hold isFree inUse => ?_⟩
  · have initial : Base (boot heap memory used) ∧ ∀ poolid, (boot heap memory used).Agrees poolid :=
      ⟨(boot_calm started).law.toBase, fun _ => by simp [System.Agrees, boot]⟩
    obtain ⟨_, agrees⟩ := invariant_last (fun s => Base s ∧ ∀ poolid, s.Agrees poolid) Unfragmented
      (fun before move reply after holds clean completed =>
        ⟨(holds.1.step completed).1, agrees_preserved holds.1 holds.2 clean completed⟩)
      _ _ _ run initial unfragmented
    obtain ⟨poolid, _, rfl⟩ := List.mem_map.mp member
    exact agrees poolid
  · obtain ⟨calm, completed⟩ := (orderly_run started run orderly).2 event member
    rw [isFree] at completed
    exact returned_of_calm calm (calm.held inUse) completed

/-- An executable form of the two conditions, for moves other than `xmalloc_init`. -/
def System.orderly (s : System) : Move → Bool
  | .call _ (.freebuf bufaddr) | .call _ (.xfree bufaddr) =>
    (s.held ++ s.stranded).any fun hold => hold.pointer = bufaddr
  | .call _ .xmallocInit | .write _ _ => false
  | _ => true

theorem orderly_of_orderly {s : System} {move : Move} (orderly : s.orderly move = true) :
    Orderly s move ∧ Unfragmented s move := by
  refine ⟨?_, ?_⟩
  · unfold Orderly
    split
    case h_1 | h_2 => simpa only [System.orderly, List.any_eq_true, decide_eq_true_eq] using orderly
    case h_3 | h_4 => cases orderly
    case h_5 => trivial
  · unfold Unfragmented
    split
    case h_1 => cases orderly
    case h_2 => trivial

/-- A packet pool is made behind the pools of `xmalloc_init`, and its buffer comes back to it while
one of the smallest buffers is in use. -/
theorem packet_buffer_comes_back : ∃ events last, Run step
    (boot (freshHeap 8 65536) (fun _ => 0) (fun _ => .free)) events last ∧
    (∀ line ∈ xheapSnapshot last,
      line.fragmentedBytes = line.bufferSize * line.allocatedBuffers - line.allocatedBytes) ∧
    last.nbpools = 2 ∧ last.fragmBy 0 = 7 ∧
    ∃ event ∈ events, ∃ hold ∈ event.before.held, event.call = .call 1 (.freebuf hold.pointer) ∧
      hold.poolid = 1 ∧ Returned event.before event.after hold := by
  obtain ⟨events, last, run, checked⟩ := trace_exists step
    (boot (freshHeap 8 65536) (fun _ => 0) (fun _ => .free))
    [.call 1 .xmallocInit, .call 1 (.mkbufpool 1514 2), .call 1 (.getbuf 1), .call 2 (.xmalloc 5),
      .call 1 (.freebuf 40972)]
    (fun events last => decide (last.nbpools = 2 ∧ last.fragmBy 0 = 7 ∧
      (∀ event ∈ events.take 1, event.call = .call 1 .xmallocInit) ∧
      (∀ event ∈ events.drop 1, event.before.orderly event.call = true) ∧
      ∃ event ∈ events, event.call = .call 1 (.freebuf 40972) ∧ ∃ hold ∈ event.before.held, hold.poolid = 1 ∧
        hold.pointer = 40972)) (by decide +kernel)
  obtain ⟨pools, fragmented, isInit, others, event, member, isFree, hold, inUse, isPacket, pointer⟩ :=
    of_decide_eq_true checked
  have conditions : Meets Orderly events ∧ Meets Unfragmented events := by
    cases run with
    | done => exact absurd member List.not_mem_nil
    | taken _ call reply after _ rest completed tail =>
      obtain rfl : call = .call 1 .xmallocInit := isInit _ List.mem_cons_self
      refine ⟨fun event inside => ?_, fun event inside => ?_⟩
      · obtain rfl | inTail := List.mem_cons.mp inside
        · exact ⟨rfl, fun _ _ _ _ inside => by simp [boot, At] at inside⟩
        · exact (orderly_of_orderly (others event inTail)).1
      · obtain rfl | inTail := List.mem_cons.mp inside
        · exact fun _ _ _ => rfl
        · exact (orderly_of_orderly (others event inTail)).2
  obtain ⟨lines, returns⟩ := pools_stay_coherent _ _ _ (freshHeap_started (by decide) (by decide)
    (by decide) (by decide) (by decide)) events last run
  refine ⟨events, last, run, lines conditions.2, pools, fragmented, event, member, hold, inUse, ?_, isPacket, ?_⟩
  · rw [pointer]
    exact isFree
  · refine returns conditions.1 event member 1 hold ?_ (List.mem_append_left _ inUse)
    rw [pointer]
    exact isFree

/-- A second `xmalloc_init` keeps the fragmented bytes of the first one, and a buffer that was taken
from a packet pool before `xmalloc_init` is linked into another pool. -/
theorem initialisation_breaks_coherence :
    (∃ events last, Run step (boot (freshHeap 8 (2 ^ 25)) (fun _ => 0) (fun _ => .free)) events last ∧
      ∃ line ∈ xheapSnapshot last,
        line.fragmentedBytes ≠ line.bufferSize * line.allocatedBuffers - line.allocatedBytes) ∧
    ∃ events last, Run step (boot (freshHeap 8 (2 ^ 25)) (fun _ => 0) (fun _ => .free)) events last ∧
      ∃ event ∈ events, ∃ pid hold, event.call = .call pid (.freebuf hold.pointer) ∧
        hold ∈ event.before.held ++ event.before.stranded ∧
          ¬ Returned event.before event.after hold := by
  refine ⟨?_, ?_⟩
  · obtain ⟨events, last, run, checked⟩ := trace_exists step
      (boot (freshHeap 8 (2 ^ 25)) (fun _ => 0) (fun _ => .free))
      [.call 1 .xmallocInit, .call 1 (.xmalloc 5), .call 1 .xmallocInit]
      (fun _ (last : System) => decide (∃ line ∈ xheapSnapshot last,
        line.fragmentedBytes ≠ line.bufferSize * line.allocatedBuffers - line.allocatedBytes))
      (by decide +kernel)
    exact ⟨events, last, run, of_decide_eq_true checked⟩
  · obtain ⟨events, middle, run, checked⟩ := trace_exists step
      (boot (freshHeap 8 (2 ^ 25)) (fun _ => 0) (fun _ => .free))
      [.call 1 (.mkbufpool 1514 2), .call 1 (.getbuf 0), .call 1 .xmallocInit]
      (fun _ (middle : System) => decide (middle.kernel.process 1 = .idle ∧
        ∃ hold ∈ middle.held ++ middle.stranded, hold.pointer = 12 ∧
          (middle.buftab hold.poolid).bpsem ≠ hold.home.sem)) (by decide +kernel)
    obtain ⟨idle, hold, inUse, pointer, moved⟩ := of_decide_eq_true checked
    have completed : step middle (.call 1 (.freebuf 12)) = some (freebuf middle 1 12) := if_pos idle
    refine ⟨_, _, (run_append ..).mpr ⟨middle, run, .taken _ _ _ _ _ _ completed (.done _)⟩, _,
      List.mem_append_right _ List.mem_cons_self, 1, hold, ?_, inUse, fun returned => moved ?_⟩
    · rw [pointer]
    · rw [← returned.sem]
      exact (freebuf_bpsem ..).symm

end Xinu.BufferPools
