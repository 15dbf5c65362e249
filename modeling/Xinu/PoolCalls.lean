import Xinu.PoolCreation

/-!
# The calls on buffer pools

Every call on the pools keeps their law and comes to its next switch or to its end: in
particular `getbuf` finds a buffer behind its `wait`. A process that goes on takes its buffer
from the pool that it waited for.
-/

namespace Xinu.BufferPools

open CIntegers WordMemory Semaphores Runs

/-- The processes inside of `getbuf` are about to take from pools that there are. -/
def System.Settled (s : System) : Prop :=
  ∀ pid poolid home request, At (s.kernel.process pid) (.taking poolid home request) →
    s.Current poolid ∧ home = s.home poolid

/-- The pools stay, and processes come only to places from which they take from these. -/
structure Onward (s after : System) : Prop where
  nbpools : after.nbpools = s.nbpools
  home : after.home = s.home
  stranded : s.stranded = [] → after.stranded = []
  points : ∀ pid poolid home request, At (after.kernel.process pid) (.taking poolid home request) →
    At (s.kernel.process pid) (.taking poolid home request) ∨ s.Current poolid ∧ home = s.home poolid

section Onward

variable {s middle after : System}

theorem Onward.trans (first : Onward s middle) (second : Onward middle after) : Onward s after := by
  refine ⟨second.nbpools.trans first.nbpools, second.home.trans first.home,
    fun none_ => second.stranded (first.stranded none_), fun pid poolid home request here => ?_⟩
  rcases second.points pid poolid home request here with old | ⟨current, isHome⟩
  · exact first.points pid poolid home request old
  · unfold System.Current at current ⊢
    rw [first.nbpools] at current
    rw [first.home] at isHome
    exact Or.inr ⟨current, isHome⟩

theorem Onward.settled (onward : Onward s after) (settled : s.Settled) : after.Settled := by
  intro pid poolid home request here
  unfold System.Current
  rw [onward.nbpools, onward.home]
  rcases onward.points pid poolid home request here with old | new
  · exact settled pid poolid home request old
  · exact new

/-- One process comes to a place from which it takes nothing. -/
theorem Onward.place (nbpools : after.nbpools = s.nbpools) (home : after.home = s.home)
    (stranded : after.stranded = s.stranded) (pid : Nat)
    {process : Process Point} (changed : after.kernel.process = Function.update s.kernel.process pid process)
    (notTakes : ∀ point, At process point → point.home = none) : Onward s after := by
  refine ⟨nbpools, home, fun none_ => stranded.trans none_,
    fun this poolid home request here => Or.inl ?_⟩
  rw [changed] at here
  rcases eq_or_ne this pid with rfl | apart
  · rw [Function.update_self] at here
    have none_ := notTakes _ here
    cases none_
  · rwa [Function.update_of_ne apart] at here

theorem at_idle_home (point : Point) (here : At .idle point) : point.home = none := by
  simp [At] at here

theorem not_takes_idle {process : Process Point} (idle : process = .idle) (poolid : Int) (home : Pool) :
    ¬ Takes process poolid home := by
  rintro ⟨_, takes⟩
  rw [idle] at takes
  cases takes

end Onward

section Taking

variable {s : System} {slack : Option Int} {poolid : Int} {pid : Nat} {request : Option Int32} {hold : Hold}

theorem Law.placeIdle (law : Law s slack) (idle : s.kernel.process pid = .idle) :
    Law (s.place pid .idle) slack :=
  law.place (idle ▸ awake_idle) awake_idle (not_takes_idle idle) at_idle_home

/-- The statistics and the last word of a buffer that was taken for `xmalloc`. -/
theorem Law.xmallocRest (law : Law s none) (member : hold ∈ s.held)
    (idle : s.kernel.process pid = .idle) (size : Int32) :
    Law (xmallocRest s pid hold.poolid hold.pointer size).2 none ∧
      Onward s (xmallocRest s pid hold.poolid hold.pointer size).2 := by
  have pool := law.pools hold.poolid (law.homes hold member)
  have wide := pool.shape.wide
  have written : Law (s.setWord (hold.pointer + (s.buftab hold.poolid).bpsize - 4) size.toUInt32) none := by
    refine law.scribble member fun byte outside => store_outside ?_
    rw [pool.size]
    lia
  have counted : Law ((s.setWord (hold.pointer + (s.buftab hold.poolid).bpsize - 4) size.toUInt32).tally
      hold.poolid (s.allocBy hold.poolid + size) (s.allocBf hold.poolid + 1)) none :=
    written.congr rfl rfl rfl rfl rfl rfl rfl rfl
  exact ⟨counted.placeIdle idle, Onward.place rfl rfl rfl pid rfl at_idle_home⟩

/-- `getbuf` behind its `wait`. -/
theorem Law.getbufRest (law : Law s (some poolid)) (current : s.Current poolid)
    (idle : s.kernel.process pid = .idle) (request : Option Int32) :
    ∃ after, getbufRest s pid poolid (s.home poolid) request =
        some (some (((s.buftab poolid).bpnext + 4 : Nat) : Int), after) ∧ Law after none ∧
      Onward s after := by
  obtain ⟨taken, lawTaken⟩ := @Law.take s poolid pid request law current
  have onward : Onward s (s.taken pid poolid request) := ⟨rfl, rfl, id, fun _ _ _ _ here => Or.inl here⟩
  unfold BufferPools.getbufRest
  rw [taken]
  cases request with
  | none =>
    exact ⟨_, rfl, lawTaken.placeIdle idle, Onward.place rfl rfl rfl pid rfl at_idle_home⟩
  | some size =>
    obtain ⟨lawRest, later⟩ := lawTaken.xmallocRest List.mem_cons_self idle size
    exact ⟨_, rfl, lawRest, onward.trans later⟩

/-- `getbuf` of a pool that exists comes to its end or waits. -/
theorem Law.getbufWait (law : Law s none) (current : s.Current poolid)
    (idle : s.kernel.process pid = .idle) (request : Option Int32) :
    ∃ reply after, getbufWait s pid poolid request = some (reply, after) ∧ Law after none ∧
      Onward s after := by
  have pool := law.pools poolid current
  unfold BufferPools.getbufWait
  dsimp only
  rw [pool.sem]
  obtain ⟨kernel, ⟨process, result, waits⟩ | ⟨process, result, _, passed⟩⟩ :=
    law.wait current idle request
  · rw [result]
    refine ⟨none, _, rfl, waits, rfl, rfl, id, fun this other home wanted here => ?_⟩
    dsimp only at here
    rw [process] at here
    rcases eq_or_ne this pid with rfl | apart
    · right
      simp only [At, Function.update_self, reduceCtorEq, Process.waiting.injEq, false_or] at here
      obtain ⟨_, _, point⟩ := here
      cases point
      exact ⟨current, rfl⟩
    · rw [Function.update_of_ne apart] at here
      exact Or.inl here
  · rw [result]
    have stillIdle : kernel.process pid = .idle := by rw [process, idle]
    obtain ⟨after, completed, lawAfter, onward⟩ := passed.getbufRest current stillIdle request
    refine ⟨_, after, completed, lawAfter, Onward.trans ?_ onward⟩
    refine ⟨rfl, rfl, id, fun this other home wanted here => Or.inl ?_⟩
    dsimp only at here
    rwa [process] at here

end Taking

section Freeing

variable {s : System} {pid : Nat} {hold : Hold} {point : Point}

/-- The id of the pool that is read back. -/
theorem Law.header_eq {slack : Option Int} (law : Law s slack) (member : hold ∈ s.held) :
    s.header hold.pointer = hold.poolid := by
  have current := law.homes hold member
  obtain ⟨_, header⟩ := (law.pools hold.poolid current).headers hold (mem_heldOf.mpr ⟨member, rfl⟩)
  have bound := law.bound.2
  have inTable : hold.poolid < 20 := lt_of_lt_of_le current.2 bound
  have small := current.1
  unfold System.header
  unfold Hold.block at header
  rw [header]
  have read : (Int32.ofInt hold.poolid).toUInt32.toInt32 = Int32.ofInt hold.poolid := rfl
  rw [read, toInt_ofInt, wrap_of_range _ (by lia) (by omega)]

/-- `freebuf` and `xfree` behind the `signal`. -/
theorem Law.freebufRest (law : Law s none) (awake : (s.kernel.process pid).Awake)
    (notTaking : ∀ poolid home, ¬ Takes (s.kernel.process pid) poolid home) (point : Point) :
    Law (freebufRest s pid point).2 none ∧ Onward s (freebufRest s pid point).2 := by
  cases point with
  | taking poolid home request =>
    exact ⟨law.place awake awake_idle notTaking at_idle_home, Onward.place rfl rfl rfl pid rfl at_idle_home⟩
  | freebufEnd =>
    exact ⟨law.place awake awake_idle notTaking at_idle_home, Onward.place rfl rfl rfl pid rfl at_idle_home⟩
  | xfreeEnd poolid size =>
    have counted : Law (s.tally poolid (s.allocBy poolid - size) (s.allocBf poolid - 1)) none :=
      law.congr rfl rfl rfl rfl rfl rfl rfl rfl
    exact ⟨counted.place awake awake_idle notTaking at_idle_home,
      Onward.place rfl rfl rfl pid rfl at_idle_home⟩

/-- A signal brings processes to places where they were already. -/
theorem signal_at {k : Kernel Point} (law : Semaphores.Law k) (sem : Int) (this : Nat) (point : Point)
    (here : At ((signal k sem).2.process this) point) : At (k.process this) point := by
  by_cases valid : k.Valid sem
  · obtain ⟨_, result⟩ | ⟨_, first, place, queue, _, waits, result⟩ := signal_cases law valid
    · rw [result] at here
      exact here
    · rw [result] at here
      rcases eq_or_ne this first with rfl | apart
      · have same : place = point := by simpa [At] using here
        exact Or.inr ⟨sem, same ▸ waits⟩
      · simpa [place_of_ne apart] using here
  · rw [signal_refused valid] at here
    exact here

/-- `signal` changes no process that is outside of all calls. -/
theorem signal_idle {k : Kernel Point} (law : Semaphores.Law k) (sem : Int)
    (idle : k.process pid = .idle) : (signal k sem).2.process pid = .idle := by
  by_cases valid : k.Valid sem
  · obtain ⟨_, result⟩ | ⟨_, first, place, queue, _, waits, result⟩ := signal_cases law valid
    · rw [result]
      exact idle
    · rw [result]
      have apart : pid ≠ first := by
        rintro rfl
        rw [idle] at waits
        cases waits
      rw [place_of_ne apart]
      exact idle
  · rw [signal_refused valid]
    exact idle

/-- The list and the semaphore of `freebuf`. -/
theorem Law.freebufSignal (law : Law s none) (member : hold ∈ s.held)
    (idle : s.kernel.process pid = .idle) (harmless : point.home = none) :
    Law (freebufSignal s pid hold.poolid hold.pointer point).2 none ∧
      Onward s (freebufSignal s pid hold.poolid hold.pointer point).2 := by
  have current := law.homes hold member
  have returned := law.putBack member
  have sameSem : ((s.putBack hold.poolid hold.pointer).buftab hold.poolid).bpsem =
      ((s.putBack hold.poolid hold.pointer).home hold.poolid).sem :=
    (returned.pools hold.poolid current).sem
  have signalled := returned.signal current
  have onward : Onward s { s.putBack hold.poolid hold.pointer with
      kernel := (Semaphores.signal s.kernel ((s.putBack hold.poolid hold.pointer).home hold.poolid).sem).2 } :=
    ⟨rfl, rfl, fun none_ => by simp [System.putBack, System.setNext, System.setWord, none_],
      fun this _ _ _ here => Or.inl (signal_at law.sems _ this _ here)⟩
  have stillIdle := signal_idle law.sems
    ((s.putBack hold.poolid hold.pointer).home hold.poolid).sem idle
  unfold BufferPools.freebufSignal
  dsimp only
  rw [sameSem]
  split
  case h_1 kernel switched =>
    have isKernel : kernel = (Semaphores.signal s.kernel
        ((s.putBack hold.poolid hold.pointer).home hold.poolid).sem).2 := congrArg Prod.snd switched.symm
    rw [isKernel]
    refine ⟨?_, onward.trans (Onward.place rfl rfl rfl pid rfl ?_)⟩
    · refine signalled.place (stillIdle ▸ awake_idle) awake_ready (not_takes_idle stillIdle) ?_
      intro other here
      have same : point = other := by simpa [At] using here
      exact same ▸ harmless
    · intro other here
      have same : point = other := by simpa [At] using here
      exact same ▸ harmless
  case h_2 kernel quiet =>
    have isKernel : kernel = (Semaphores.signal s.kernel
        ((s.putBack hold.poolid hold.pointer).home hold.poolid).sem).2 := congrArg Prod.snd quiet.symm
    rw [isKernel]
    obtain ⟨lawRest, later⟩ := signalled.freebufRest (stillIdle ▸ awake_idle)
      (not_takes_idle stillIdle) point
    exact ⟨lawRest, onward.trans later⟩

end Freeing

section Starting

variable {s : System}

/-- `bufinit` forgets all pools. -/
theorem Base.forgotten (base : Base s) : Law (initArrays (bufinit s)) none := by
  have nothing : ∀ poolid, ¬ (initArrays (bufinit s)).Current poolid := by
    rintro poolid ⟨from_, to_⟩
    have below : poolid < 0 := to_
    lia
  refine ⟨⟨base.heap, base.sems, ⟨le_refl _, Int.le_of_lt (by decide : 0 < maxPools)⟩, ?_, base.past⟩, ?_, ?_, ?_, ?_, ?_, ?_⟩
  · exact fun poolid current => absurd current (nothing poolid)
  · exact fun poolid current => absurd current (nothing poolid)
  · exact fun poolid current => absurd current (nothing poolid)
  · exact fun poolid _ current => absurd current (nothing poolid)
  · exact fun poolid _ current => absurd current (nothing poolid)
  · intro hold member
    cases member
  · exact fun _ poolid _ current => absurd current (nothing poolid)

/-- `xmalloc_init` makes new pools, all of whose buffers are free. -/
theorem Base.xmallocInit (base : Base s) : ∃ after, xmallocInit s = some after ∧ Law after none ∧
    Extends (initArrays (bufinit s)) after ∧ after.nbpools ≤ poolnum ∧
    ∀ index : Nat, (index : Int) < after.nbpools →
      (after.home index).Fits (initSize index + 4) (initNumb index) := by
  obtain ⟨after, made, law, extended, below, all⟩ :=
    lasting_law.makePools poolnum.toNat 0 base.forgotten
  have none_ : (initArrays (bufinit s)).nbpools = 0 := rfl
  have turns : ((poolnum.toNat : Nat) : Int) = poolnum := rfl
  rw [none_, turns, Int.zero_add] at below
  rw [none_] at all
  refine ⟨after, made, law, extended, below, fun index inside => ?_⟩
  have fits := all index (by omega)
  have size : (initArrays (bufinit s)).bufsize index = initSize index :=
    if_pos ⟨Int.natCast_nonneg index, inside.trans_le below⟩
  have number : (initArrays (bufinit s)).bufnumb index = initNumb index :=
    if_pos ⟨Int.natCast_nonneg index, inside.trans_le below⟩
  rwa [Int.zero_add, size, number] at fits

end Starting

/-- A move that can be made: calls come from processes outside of all calls, and processes go on
that do not wait. -/
def Enabled (s : System) : Move → Prop
  | .call pid _ => s.kernel.process pid = .idle
  | .goOn pid => ∃ point, s.kernel.process pid = .ready point
  | .write _ _ => True

theorem enabled_of_step {s after : System} {move : Move} {reply : Option Int}
    (completed : step s move = some (reply, after)) : Enabled s move := by
  cases move with
  | call pid call =>
    by_contra busy
    have refused : step s (.call pid call) = none := if_neg busy
    rw [refused] at completed
    cases completed
  | goOn pid =>
    cases process : s.kernel.process pid with
    | idle => simp [step, process] at completed
    | waiting sem point => simp [step, process] at completed
    | ready point => exact ⟨point, process⟩
  | write => trivial

/-- Buffers in use are given back and written into, and `xmalloc_init` comes when no buffer is in
use and no process is inside of `getbuf`. -/
def Orderly (s : System) : Move → Prop
  | .call _ (.freebuf bufaddr) | .call _ (.xfree bufaddr) =>
    ∃ hold ∈ s.held ++ s.stranded, hold.pointer = bufaddr
  | .call _ .xmallocInit => s.held = [] ∧
    ∀ pid poolid home request, ¬ At (s.kernel.process pid) (.taking poolid home request)
  | .write address _ => ∃ hold ∈ s.held ++ s.stranded,
    hold.pointer ≤ address ∧ address < hold.pointer + hold.home.size
  | _ => True

/-- The system between the moves of such a run. -/
structure Calm (s : System) : Prop where
  law : Law s none
  settled : s.Settled
  stranded : s.stranded = []

section Steps

variable {s after : System} {pid : Nat} {reply : Option Int}

theorem Calm.onward (calm : Calm s) (law : Law after none) (onward : Onward s after) : Calm after :=
  ⟨law, onward.settled calm.settled, onward.stranded calm.stranded⟩

/-- A call is over at once. -/
theorem Calm.refused (calm : Calm s) (idle : s.kernel.process pid = .idle) : Calm (s.place pid .idle) :=
  calm.onward (calm.law.placeIdle idle) (Onward.place rfl rfl rfl pid rfl at_idle_home)

theorem Calm.held (calm : Calm s) {hold : Hold} (member : hold ∈ s.held ++ s.stranded) : hold ∈ s.held := by
  rwa [calm.stranded, List.append_nil] at member

/-- Pools are added. -/
theorem Calm.extended (calm : Calm s) (law : Law after none) (extended : Extends s after) : Calm after := by
  refine ⟨law, fun pid poolid home request here => ?_, extended.stranded.trans calm.stranded⟩
  rw [extended.process] at here
  obtain ⟨current, isHome⟩ := calm.settled pid poolid home request here
  refine ⟨⟨current.1, lt_of_lt_of_le current.2 extended.nbpools⟩, ?_⟩
  rw [extended.home poolid current]
  exact isHome

/-- Every call of an orderly run comes to its next switch or to its end. -/
theorem Calm.exec (calm : Calm s) (idle : s.kernel.process pid = .idle) {call : Call}
    (orderly : Orderly s (.call pid call)) :
    ∃ reply after, exec s pid call = some (reply, after) ∧ Calm after := by
  have law := calm.law
  cases call with
  | mkbufpool bufsiz numbufs =>
    obtain ⟨poolid, after, result, lawAfter, extended, _⟩ := lasting_law.mkbufpool law bufsiz numbufs
    refine ⟨some poolid, after, ?_, calm.extended lawAfter extended⟩
    rw [BufferPools.exec, result]
    rfl
  | getbuf poolid =>
    unfold BufferPools.exec getbuf
    dsimp only
    split
    case isTrue => exact ⟨_, _, rfl, calm.refused idle⟩
    case isFalse inside =>
      have current : s.Current poolid.toInt := ⟨by omega, by omega⟩
      obtain ⟨reply, after, result, lawAfter, onward⟩ := law.getbufWait current idle none
      exact ⟨reply, after, result, calm.onward lawAfter onward⟩
  | freebuf bufaddr =>
    obtain ⟨hold, member, rfl⟩ := orderly
    have inHeld := calm.held member
    obtain ⟨lawAfter, onward⟩ := @Law.freebufSignal s pid hold .freebufEnd law inHeld idle rfl
    refine ⟨(freebuf s pid hold.pointer).1, (freebuf s pid hold.pointer).2, rfl, ?_⟩
    unfold freebuf
    dsimp only
    rw [law.header_eq inHeld]
    split
    case isTrue => exact calm.refused idle
    case isFalse => exact calm.onward lawAfter onward
  | xmallocInit =>
    obtain ⟨noneHeld, outside⟩ := orderly
    obtain ⟨after, result, lawAfter, extended, _⟩ := law.toBase.xmallocInit
    refine ⟨some null, after, ?_, lawAfter, fun this poolid home request here => ?_, ?_⟩
    · rw [BufferPools.exec, result]
      rfl
    · rw [extended.process] at here
      exact absurd here (outside this poolid home request)
    · rw [extended.stranded]
      unfold initArrays bufinit
      dsimp only
      rw [noneHeld, calm.stranded]
      rfl
  | xmalloc size =>
    unfold BufferPools.exec xmalloc
    dsimp only
    split
    case isTrue => exact ⟨_, _, rfl, calm.refused idle⟩
    split
    case isTrue => exact ⟨_, _, rfl, calm.refused idle⟩
    split
    case isTrue => exact ⟨_, _, rfl, calm.refused idle⟩
    split
    case isTrue => exact ⟨_, _, rfl, calm.refused idle⟩
    case isFalse inside =>
      have current : s.Current (findClosestIndex s size) := ⟨by omega, by omega⟩
      obtain ⟨reply, after, result, lawAfter, onward⟩ := law.getbufWait current idle (some size)
      exact ⟨reply, after, result, calm.onward lawAfter onward⟩
  | xfree bufaddr =>
    obtain ⟨hold, member, rfl⟩ := orderly
    have inHeld := calm.held member
    refine ⟨(xfree s pid hold.pointer).1, (xfree s pid hold.pointer).2, rfl, ?_⟩
    unfold xfree
    dsimp only
    rw [law.header_eq inHeld]
    split
    case isTrue => exact calm.refused idle
    split
    case isTrue => exact calm.refused idle
    case isFalse =>
      obtain ⟨lawAfter, onward⟩ := @Law.freebufSignal s pid hold (.xfreeEnd hold.poolid
        (load s.memory (hold.pointer + (s.buftab hold.poolid).bpsize - 4)).toInt32) law inHeld idle rfl
      exact calm.onward lawAfter onward

/-- Every process that can go on does so. -/
theorem Calm.proceed (calm : Calm s) {point : Point} (ready : s.kernel.process pid = .ready point) :
    ∃ reply after, proceed s pid point = some (reply, after) ∧ Calm after := by
  have awake : (s.kernel.process pid).Awake := ready ▸ awake_ready
  cases point with
  | taking poolid home request =>
    obtain ⟨current, rfl⟩ := calm.settled pid poolid home request (Or.inl ready)
    have entered := calm.law.goOn current ⟨request, ready⟩
    obtain ⟨after, result, lawAfter, onward⟩ := entered.getbufRest current (place_self _) request
    refine ⟨_, after, result, calm.onward lawAfter (Onward.trans ?_ onward)⟩
    exact Onward.place rfl rfl rfl pid rfl at_idle_home
  | freebufEnd =>
    obtain ⟨lawAfter, onward⟩ := calm.law.freebufRest awake
      (fun _ _ ⟨_, takes⟩ => by rw [ready] at takes; cases takes) .freebufEnd
    exact ⟨_, _, rfl, calm.onward lawAfter onward⟩
  | xfreeEnd poolid size =>
    obtain ⟨lawAfter, onward⟩ := calm.law.freebufRest awake
      (fun _ _ ⟨_, takes⟩ => by rw [ready] at takes; cases takes) (.xfreeEnd poolid size)
    exact ⟨_, _, rfl, calm.onward lawAfter onward⟩

/-- Every enabled move of an orderly run completes and keeps the law. -/
theorem Calm.step (calm : Calm s) {move : Move} (enabled : Enabled s move) (orderly : Orderly s move) :
    ∃ reply after, step s move = some (reply, after) ∧ Calm after := by
  cases move with
  | call pid call =>
    obtain ⟨reply, after, result, calmAfter⟩ := calm.exec enabled orderly
    exact ⟨reply, after, (if_pos enabled).trans result, calmAfter⟩
  | goOn pid =>
    obtain ⟨point, ready⟩ := enabled
    obtain ⟨reply, after, result, calmAfter⟩ := calm.proceed ready
    refine ⟨reply, after, ?_, calmAfter⟩
    unfold BufferPools.step
    dsimp only
    rw [ready]
    exact result
  | write address byte =>
    obtain ⟨hold, member, low, high⟩ := orderly
    have inHeld := calm.held member
    obtain ⟨isHome, _⟩ := (calm.law.pools hold.poolid (calm.law.homes hold inHeld)).headers hold
      (mem_heldOf.mpr ⟨inHeld, rfl⟩)
    rw [isHome] at high
    refine ⟨none, _, rfl, calm.law.scribble inHeld fun other outside => ?_, calm.settled, calm.stranded⟩
    exact Function.update_of_ne (by lia) _ _

end Steps

end Xinu.BufferPools
