import Xinu.BufferPools

/-!
# The law of the buffer pools

Every buffer of a pool is on the free list or in use, and not both. The free buffers are as
many as the semaphore counts, and one more for each process that was released from `wait` and
has not yet taken its buffer. A buffer in use has the id of its pool in front.

Inside of a call a pool may have one free buffer more than that: the buffer that the process
of the call is about to take, or that it has put back and not yet signalled.
-/

namespace Xinu.BufferPools

open CIntegers WordMemory Semaphores Runs

/-- The bytes of a buffer with the word in front of it. -/
def Pool.stride (pool : Pool) : Nat := pool.size + 4

def Pool.blocks (pool : Pool) : List Nat := cells pool.base pool.stride pool.number

def Pool.stop (pool : Pool) : Nat := pool.base + pool.number * pool.stride

/-- A pool that `mkbufpool` can make. -/
structure Pool.Sound (pool : Pool) : Prop where
  wide : 8 ≤ pool.size
  someBuffer : 0 < pool.number
  real : 0 < pool.base
  inWord : pool.stop < 2 ^ 32

/-- The word in front of a buffer in use. -/
def Hold.block (hold : Hold) : Nat := hold.pointer - 4

/-- The ids of the pools. -/
def System.Current (s : System) (poolid : Int) : Prop := 0 ≤ poolid ∧ poolid < s.nbpools

/-- The buffers of a pool that are in use. -/
def System.heldOf (s : System) (poolid : Int) : List Hold :=
  s.held.filter fun hold => hold.poolid = poolid

/-- A pool with some buffers more than its semaphore and the released processes account for. -/
structure PoolLaw (s : System) (poolid : Int) (extra : Nat) : Prop where
  shape : (s.home poolid).Sound
  sem : (s.buftab poolid).bpsem = (s.home poolid).sem
  size : (s.buftab poolid).bpsize = (s.home poolid).size
  valid : s.kernel.Valid (s.home poolid).sem
  lists : ∃ free released : List Nat, Chain s.memory (s.buftab poolid).bpnext free ∧
    (free ++ (s.heldOf poolid).map Hold.block).Perm (s.home poolid).blocks ∧ released.Nodup ∧
    (∀ pid, pid ∈ released ↔
      ∃ request, s.kernel.process pid = .ready (.taking poolid (s.home poolid) request)) ∧
    (free.length : Int) =
      max 0 (s.kernel.semtab (s.home poolid).sem).scount + released.length + extra
  headers : ∀ hold ∈ s.heldOf poolid,
    hold.home = s.home poolid ∧ load s.memory hold.block = (Int32.ofInt poolid).toUInt32

/-- The pool that a process is about to take from. -/
def Point.home : Point → Option Pool
  | .taking _ home _ => some home
  | .freebufEnd | .xfreeEnd _ _ => none

/-- A process goes on or will go on at a point. -/
def At (process : Process Point) (point : Point) : Prop :=
  process = .ready point ∨ ∃ sem, process = .waiting sem point

/-- The buffers that one pool has too many. -/
def excess (slack : Option Int) (poolid : Int) : Nat := if slack = some poolid then 1 else 0

/-- What holds whatever clients do: the heap and the semaphores are sound, and every pool that a
process knows was made before. -/
structure Base (s : System) : Prop where
  heap : ∃ low high, s.heap.Sound low high
  sems : Semaphores.Law s.kernel
  bound : 0 ≤ s.nbpools ∧ s.nbpools ≤ maxPools
  young : ∀ poolid, s.Current poolid → (s.home poolid).serial < s.made
  past : ∀ pid point, At (s.kernel.process pid) point → ∀ home ∈ point.home, home.serial < s.made

/-- The law of all pools. -/
structure Law (s : System) (slack : Option Int) : Prop extends Base s where
  pools : ∀ poolid, s.Current poolid → PoolLaw s poolid (excess slack poolid)
  granted : ∀ poolid, s.Current poolid →
    ⟨.memory, (s.home poolid).base, (s.home poolid).number * (s.home poolid).stride⟩ ∈ s.heap.live
  apart : ∀ poolid other, s.Current poolid → s.Current other → poolid ≠ other →
    (s.home poolid).stop ≤ (s.home other).base ∨ (s.home other).stop ≤ (s.home poolid).base
  distinct : ∀ poolid other, s.Current poolid → s.Current other → poolid ≠ other →
    (s.home poolid).sem ≠ (s.home other).sem
  homes : ∀ hold ∈ s.held, s.Current hold.poolid
  waiting : ∀ pid poolid point, s.Current poolid →
    s.kernel.process pid = .waiting (s.home poolid).sem point →
    ∃ request, point = .taking poolid (s.home poolid) request

section Frames

variable {s after : System} {slack : Option Int} {poolid other : Int} {extra : Nat}

/-- Nothing that concerns a pool changes. -/
theorem PoolLaw.frame (law : PoolLaw s poolid extra) (home : after.home poolid = s.home poolid)
    (entry : after.buftab poolid = s.buftab poolid)
    (semtab : after.kernel.semtab (s.home poolid).sem = s.kernel.semtab (s.home poolid).sem)
    (process : ∀ pid request,
      after.kernel.process pid = .ready (.taking poolid (s.home poolid) request) ↔
        s.kernel.process pid = .ready (.taking poolid (s.home poolid) request))
    (held : after.heldOf poolid = s.heldOf poolid)
    (memory : ∀ block ∈ (s.home poolid).blocks, load after.memory block = load s.memory block) :
    PoolLaw after poolid extra := by
  obtain ⟨free, released, chain, perm, distinct, ready, count⟩ := law.lists
  have inBlocks : ∀ block, block ∈ free ∨ block ∈ (s.heldOf poolid).map Hold.block →
      block ∈ (s.home poolid).blocks :=
    fun block member => perm.mem_iff.mp (List.mem_append.mpr member)
  refine ⟨home ▸ law.shape, ?_, ?_, ?_, ⟨free, released, ?_, ?_, distinct, fun pid => ?_, ?_⟩, ?_⟩
  · rw [entry, home, law.sem]
  · rw [entry, home, law.size]
  · rw [home]
    exact ⟨law.valid.1, semtab ▸ law.valid.2⟩
  · rw [entry]
    exact chain.congr fun block member => memory block (inBlocks block (Or.inl member))
  · rw [held, home]
    exact perm
  · rw [home, ready]
    simp only [process]
  · rw [home, semtab, count]
  · rw [held, home]
    intro hold member
    obtain ⟨isHome, header⟩ := law.headers hold member
    exact ⟨isHome, (memory _ (inBlocks _ (Or.inr (List.mem_map_of_mem member)))).trans header⟩

/-- The statistics are no part of the law. -/
theorem Law.congr (law : Law s slack) (heap : after.heap = s.heap) (memory : after.memory = s.memory)
    (kernel : after.kernel = s.kernel) (buftab : after.buftab = s.buftab)
    (nbpools : after.nbpools = s.nbpools) (home : after.home = s.home) (made : after.made = s.made)
    (held : after.held = s.held) : Law after slack := by
  have current : ∀ poolid, after.Current poolid ↔ s.Current poolid := by
    simp [System.Current, nbpools]
  refine ⟨⟨heap ▸ law.heap, kernel ▸ law.sems, nbpools ▸ law.bound, ?_, ?_⟩, fun poolid isCurrent => ?_,
    ?_, ?_, ?_, ?_, ?_⟩
  · simpa only [current, home, made] using law.young
  · simpa only [kernel, made] using law.past
  · refine (law.pools poolid ((current poolid).mp isCurrent)).frame (congrFun home poolid)
      (congrFun buftab poolid) (by rw [kernel]) (by simp [kernel]) ?_ (by simp [memory])
    unfold System.heldOf
    rw [held]
  · simpa only [current, home, heap] using law.granted
  · simpa only [current, home] using law.apart
  · simpa only [current, home] using law.distinct
  · simpa only [current, held] using law.homes
  · simpa only [current, home, kernel] using law.waiting

theorem excess_self : excess (some poolid) poolid = 1 := if_pos rfl

theorem excess_none : excess none poolid = 0 := if_neg (by simp)

theorem excess_of_ne (apart : other ≠ poolid) : excess (some poolid) other = 0 :=
  if_neg fun same => apart (Option.some.inj same).symm

/-- Two blocks are the same one or do not overlap. -/
theorem Law.blocks_apart (law : Law s slack) (current : s.Current poolid) (otherCurrent : s.Current other)
    {block place : Nat} (member : block ∈ (s.home poolid).blocks)
    (placeMember : place ∈ (s.home other).blocks) (distinct : poolid = other → block ≠ place) :
    block + (s.home poolid).stride ≤ place ∨ place + (s.home other).stride ≤ block := by
  rcases eq_or_ne poolid other with rfl | away
  · exact cells_apart member placeMember (distinct rfl)
  · have here := cells_bounds member
    have there := cells_bounds placeMember
    have ordered := law.apart poolid other current otherCurrent away
    unfold Pool.stop at ordered
    lia

/-- A word inside of one block changes: all words in front of other blocks are the same. -/
theorem Law.load_apart (law : Law s slack) (current : s.Current poolid) (otherCurrent : s.Current other)
    {block place address : Nat} {word : UInt32} (member : block ∈ (s.home poolid).blocks)
    (placeMember : place ∈ (s.home other).blocks) (distinct : poolid = other → block ≠ place)
    (low : block ≤ address) (high : address + 4 ≤ block + (s.home poolid).stride) :
    load (WordMemory.store s.memory address word) place = load s.memory place := by
  have wide := (law.pools other otherCurrent).shape.wide
  have separated := law.blocks_apart current otherCurrent member placeMember distinct
  refine load_store_apart ?_
  unfold Pool.stride at separated high
  lia

end Frames

section Lists

variable {s : System} {poolid : Int} {pid : Nat} {hold : Hold}

theorem mem_heldOf : hold ∈ s.heldOf poolid ↔ hold ∈ s.held ∧ hold.poolid = poolid := by
  simp [System.heldOf]

/-- The block of a buffer in use is one of its pool. -/
theorem PoolLaw.inBlocks {extra : Nat} (law : PoolLaw s poolid extra) (member : hold ∈ s.heldOf poolid) :
    hold.block ∈ (s.home poolid).blocks := by
  obtain ⟨free, _, _, perm, _⟩ := law.lists
  exact perm.mem_iff.mp (List.mem_append_right free (List.mem_map_of_mem member))

theorem PoolLaw.block_pos {extra : Nat} (law : PoolLaw s poolid extra) {block : Nat}
    (member : block ∈ (s.home poolid).blocks) : 0 < block ∧ block < 2 ^ 32 := by
  have bounds := cells_bounds member
  have real := law.shape.real
  have inWord := law.shape.inWord
  unfold Pool.stop at inWord
  lia

/-- The blocks of a pool are distinct. -/
theorem PoolLaw.nodup {extra : Nat} (_ : PoolLaw s poolid extra) : (s.home poolid).blocks.Nodup :=
  cells_nodup (Nat.succ_pos _)

/-- A buffer is given back: the others stay. -/
theorem perm_filter_pointer {held : List Hold} (distinct : (held.map Hold.block).Nodup)
    (member : hold ∈ held) :
    held.Perm (hold :: held.filter fun other => other.pointer ≠ hold.pointer) := by
  induction held with
  | nil => cases member
  | cons first rest inductionHypothesis =>
    obtain ⟨fresh, tail⟩ := List.nodup_cons.mp distinct
    rcases List.mem_cons.mp member with rfl | later
    · have others : rest.filter (fun other => other.pointer ≠ hold.pointer) = rest := by
        refine List.filter_eq_self.mpr fun other inRest => ?_
        rw [decide_eq_true_eq]
        intro same
        refine fresh (List.mem_map.mpr ⟨other, inRest, ?_⟩)
        unfold Hold.block
        rw [same]
      rw [List.filter_cons_of_neg (by simp), others]
    · have apart : first.pointer ≠ hold.pointer := by
        intro same
        refine fresh (List.mem_map.mpr ⟨hold, later, ?_⟩)
        unfold Hold.block
        rw [same]
      rw [List.filter_cons_of_pos (by simpa using apart)]
      exact ((inductionHypothesis tail later).cons first).trans (List.Perm.swap _ _ _)

end Lists

section Taking

variable {s : System} {slack : Option Int} {poolid : Int} {pid : Nat} {request : Option Int32}

/-- The system after a buffer was taken. -/
def System.taken (s : System) (pid : Nat) (poolid : Int) (request : Option Int32) : System :=
  let bufptr := (s.buftab poolid).bpnext
  let s := s.setNext poolid (load s.memory bufptr).toNat
  let s := s.setWord bufptr (Int32.ofInt poolid).toUInt32
  { s with held := ⟨pid, bufptr + 4, poolid, s.home poolid, request⟩ :: s.held }

/-- A process takes the buffer that is there for it. -/
theorem Law.take (law : Law s (some poolid)) (current : s.Current poolid) :
    s.take pid poolid (s.home poolid) request =
        some ((s.buftab poolid).bpnext + 4, s.taken pid poolid request) ∧
      Law (s.taken pid poolid request) none := by
  have pool := law.pools poolid current
  rw [excess_self] at pool
  obtain ⟨free, released, chain, perm, distinct, ready, count⟩ := pool.lists
  obtain ⟨block, rest, rfl⟩ : ∃ block rest, free = block :: rest := by
    cases free with
    | nil =>
      rw [List.length_nil] at count
      omega
    | cons block rest => exact ⟨block, rest, rfl⟩
  obtain ⟨first, real, linked⟩ := chain
  have inBlocks : block ∈ (s.home poolid).blocks :=
    perm.mem_iff.mp (List.mem_append_left _ List.mem_cons_self)
  have nodup := perm.nodup_iff.mpr pool.nodup
  have fresh : block ∉ rest ++ (s.heldOf poolid).map Hold.block := (List.nodup_cons.mp nodup).1
  have others : ∀ {other : Int} {place : Nat}, s.Current other → place ∈ (s.home other).blocks →
      (poolid = other → block ≠ place) →
      load (s.taken pid poolid request).memory place = load s.memory place := by
    intro other place otherCurrent member apart
    unfold System.taken
    rw [first]
    exact law.load_apart current otherCurrent inBlocks member apart (Nat.le_refl _)
      (by unfold Pool.stride; lia)
  refine ⟨?_, ⟨law.heap, law.sems, law.bound, law.young, law.past⟩, fun other otherCurrent => ?_,
    law.granted, law.apart, law.distinct, ?_, law.waiting⟩
  · unfold System.take
    dsimp only
    rw [if_neg (first ▸ real)]
    rfl
  · rw [excess_none]
    rcases eq_or_ne other poolid with rfl | apart
    · have entry : (s.taken pid other request).buftab other =
          ⟨(load s.memory block).toNat, (s.buftab other).bpsem, (s.buftab other).bpsize⟩ := by
        unfold System.taken
        rw [← first]
        exact Function.update_self _ _ _
      have held : (s.taken pid other request).heldOf other =
          ⟨pid, (s.buftab other).bpnext + 4, other, s.home other, request⟩ :: s.heldOf other :=
        List.filter_cons_of_pos (by simp)
      have newBlock : Hold.block ⟨pid, (s.buftab other).bpnext + 4, other, s.home other, request⟩ =
          block := by
        unfold Hold.block
        dsimp only
        lia
      refine ⟨pool.shape, ?_, ?_, pool.valid, ⟨rest, released, ?_, ?_, distinct, ready, ?_⟩, ?_⟩
      · rw [entry]
        exact pool.sem
      · rw [entry]
        exact pool.size
      · rw [entry]
        refine linked.congr fun place member => others current ?_ fun _ same => ?_
        · exact perm.mem_iff.mp (List.mem_append_left _ (List.mem_cons_of_mem _ member))
        · exact fresh (List.mem_append_left _ (same ▸ member))
      · rw [held, List.map_cons, newBlock]
        exact List.perm_middle.trans perm
      · have shorter : ((block :: rest).length : Int) = rest.length + 1 := by simp
        have sems : (s.taken pid other request).kernel = s.kernel := rfl
        have home : (s.taken pid other request).home = s.home := rfl
        rw [sems, home]
        omega
      · rw [held]
        intro hold member
        rcases List.mem_cons.mp member with rfl | old
        · refine ⟨rfl, ?_⟩
          rw [newBlock]
          unfold System.taken
          rw [first]
          exact load_store_same
        · obtain ⟨isHome, header⟩ := pool.headers hold old
          refine ⟨isHome, (others current (pool.inBlocks old) fun _ same => ?_).trans header⟩
          exact fresh (List.mem_append_right _ (same ▸ List.mem_map_of_mem old))
    · have frame := law.pools other otherCurrent
      rw [excess_of_ne apart] at frame
      refine frame.frame rfl ?_ rfl (fun _ _ => Iff.rfl) ?_ fun place member =>
        others otherCurrent member fun same => absurd same.symm apart
      · exact Function.update_of_ne apart _ _
      · exact List.filter_cons_of_neg (by simpa using Ne.symm apart)
  · intro hold member
    rcases List.mem_cons.mp member with rfl | old
    · exact current
    · exact law.homes hold old

end Taking

/-- A process is about to take a buffer of a pool. -/
def Takes (process : Process Point) (poolid : Int) (home : Pool) : Prop :=
  ∃ request, process = .ready (.taking poolid home request)

section Switching

variable {s : System} {slack later : Option Int} {kernel : Kernel Point} {poolid : Int} {pid : Nat}

/-- The semaphore of one pool and the processes change. -/
theorem Law.switch (law : Law s slack) (poolid : Int) (sems : Semaphores.Law kernel)
    (others : ∀ other, s.Current other → other ≠ poolid →
      kernel.semtab (s.home other).sem = s.kernel.semtab (s.home other).sem ∧
      (∀ pid, Takes (kernel.process pid) other (s.home other) ↔
        Takes (s.kernel.process pid) other (s.home other)) ∧
      excess later other = excess slack other)
    (valid : s.Current poolid → kernel.Valid (s.home poolid).sem)
    (balance : s.Current poolid → ∀ released : List Nat, released.Nodup →
      (∀ pid, pid ∈ released ↔ Takes (s.kernel.process pid) poolid (s.home poolid)) →
      ∃ takers : List Nat, takers.Nodup ∧
        (∀ pid, pid ∈ takers ↔ Takes (kernel.process pid) poolid (s.home poolid)) ∧
        max 0 (s.kernel.semtab (s.home poolid).sem).scount + released.length + excess slack poolid =
          max 0 (kernel.semtab (s.home poolid).sem).scount + takers.length + excess later poolid)
    (waiting : ∀ pid other point, s.Current other →
      kernel.process pid = .waiting (s.home other).sem point →
      ∃ request, point = .taking other (s.home other) request)
    (past : ∀ pid point, At (kernel.process pid) point → ∀ home ∈ point.home, home.serial < s.made) :
    Law { s with kernel := kernel } later := by
  refine ⟨⟨law.heap, sems, law.bound, law.young, past⟩, fun other current => ?_, law.granted, law.apart,
    law.distinct, law.homes, waiting⟩
  have pool := law.pools other current
  obtain ⟨free, released, chain, perm, distinct, ready, count⟩ := pool.lists
  rcases eq_or_ne other poolid with rfl | away
  · obtain ⟨takers, nodup, takes, balanced⟩ := balance current released distinct ready
    refine ⟨pool.shape, pool.sem, pool.size, valid current,
      ⟨free, takers, chain, perm, nodup, takes, ?_⟩, pool.headers⟩
    dsimp only
    lia
  · obtain ⟨semtab, takes, same⟩ := others other current away
    refine ⟨pool.shape, pool.sem, pool.size, ⟨pool.valid.1, ?_⟩,
      ⟨free, released, chain, perm, distinct, fun pid => ?_, ?_⟩, pool.headers⟩
    · dsimp only
      rw [semtab]
      exact pool.valid.2
    · exact (ready pid).trans (takes pid).symm
    · dsimp only
      rw [semtab, same]
      exact count

/-- A process moves between places that do not take a buffer. -/
theorem Law.place (law : Law s slack) {process : Process Point}
    (before : (s.kernel.process pid).Awake) (awake : process.Awake)
    (notTaking : ∀ poolid home, ¬ Takes (s.kernel.process pid) poolid home)
    (notTakes : ∀ point, At process point → point.home = none) : Law (s.place pid process) slack := by
  have takes : ∀ other poolid home, Takes ((s.kernel.place pid process).process other) poolid home ↔
      Takes (s.kernel.process other) poolid home := by
    intro other poolid home
    rcases eq_or_ne other pid with rfl | away
    · refine iff_of_false ?_ (notTaking poolid home)
      rintro ⟨request, here⟩
      have := notTakes (.taking poolid home request) (Or.inl (by simpa [Kernel.place] using here))
      cases this
    · simp [Kernel.place, away]
  refine law.switch (-1) (law.sems.place before awake)
    (fun other _ _ => ⟨rfl, fun this => takes this _ _, rfl⟩)
    (fun current => absurd current.1 (by decide)) (fun current => absurd current.1 (by decide))
    (fun this other point current waits => ?_) (fun this point here => ?_)
  · rcases eq_or_ne this pid with rfl | away
    · exact absurd (by simpa [Kernel.place] using waits) (awake _ point)
    · exact law.waiting this other point current (by simpa [Kernel.place, away] using waits)
  · rcases eq_or_ne this pid with rfl | away
    · rw [notTakes point (by simpa [Kernel.place] using here)]
      simp
    · exact law.past this point (by simpa [Kernel.place, away] using here)

/-- A released process comes to take its buffer. -/
theorem Law.goOn (law : Law s none) (current : s.Current poolid)
    (here : Takes (s.kernel.process pid) poolid (s.home poolid)) :
    Law (s.place pid .idle) (some poolid) := by
  have awake : (s.kernel.process pid).Awake := by
    obtain ⟨request, point⟩ := here
    rw [point]
    exact awake_ready
  have elsewhere : ∀ {other : Nat}, other ≠ pid →
      (s.kernel.place pid .idle).process other = s.kernel.process other :=
    fun away => Function.update_of_ne away _ _
  have mine : (s.kernel.place pid .idle).process pid = .idle := Function.update_self _ _ _
  refine law.switch poolid (law.sems.place awake awake_idle) (fun other _ away => ⟨rfl, fun this => ?_, ?_⟩)
    (fun _ => (law.pools poolid current).valid) (fun _ released nodup ready => ?_)
    (fun this other point isCurrent waits => ?_) (fun this point at_ => ?_)
  · rcases eq_or_ne this pid with rfl | apart
    · obtain ⟨request, point⟩ := here
      rw [mine, point]
      simp [Takes, Ne.symm away]
    · rw [elsewhere apart]
  · rw [excess_of_ne away, excess_none]
  · refine ⟨released.erase pid, nodup.erase pid, fun this => ?_, ?_⟩
    · rw [nodup.mem_erase_iff, ready]
      rcases eq_or_ne this pid with rfl | apart
      · rw [mine]
        simp [Takes]
      · rw [elsewhere apart]
        simp [apart]
    · have member := (ready pid).mpr here
      have length := List.length_erase_of_mem member
      have positive := List.length_pos_of_mem member
      have sems : (s.kernel.place pid .idle).semtab = s.kernel.semtab := rfl
      rw [excess_self, excess_none, sems]
      lia
  · rcases eq_or_ne this pid with rfl | apart
    · rw [mine] at waits
      cases waits
    · rw [elsewhere apart] at waits
      exact law.waiting this other point isCurrent waits
  · rcases eq_or_ne this pid with rfl | apart
    · rw [mine] at at_
      simp [At] at at_
    · rw [elsewhere apart] at at_
      exact law.past this point at_

/-- `wait` passes, and there is a buffer to take, or the process waits for one. -/
theorem Law.wait (law : Law s none) (current : s.Current poolid) (idle : s.kernel.process pid = .idle)
    (request : Option Int32) : ∃ kernel, kernel.process = Function.update s.kernel.process pid
          (.waiting (s.home poolid).sem (.taking poolid (s.home poolid) request)) ∧
        wait s.kernel pid (.taking poolid (s.home poolid) request) (s.home poolid).sem =
          (.blocked, kernel) ∧ Law { s with kernel := kernel } none ∨
      kernel.process = s.kernel.process ∧
        wait s.kernel pid (.taking poolid (s.home poolid) request) (s.home poolid).sem =
          (.passed, kernel) ∧ 0 < (s.kernel.semtab (s.home poolid).sem).scount ∧
        Law { s with kernel := kernel } (some poolid) := by
  have pool := law.pools poolid current
  have awake : (s.kernel.process pid).Awake := idle ▸ awake_idle
  have sems : Semaphores.Law (Semaphores.wait s.kernel pid (.taking poolid (s.home poolid) request)
      (s.home poolid).sem).2 := law.sems.wait awake
  obtain ⟨positive, result⟩ | ⟨low, result⟩ := @wait_cases _ s.kernel pid
    (.taking poolid (s.home poolid) request) _ pool.valid
  · rw [result] at sems
    refine ⟨_, Or.inr ⟨?_, result, positive, ?_⟩⟩
    · rfl
    refine law.switch poolid sems (fun other otherCurrent away => ⟨?_, fun _ => Iff.rfl, ?_⟩) (fun _ => ?_)
      (fun _ released nodup ready => ⟨released, nodup, ready, ?_⟩) law.waiting law.past
    · exact Function.update_of_ne (law.distinct other poolid otherCurrent current away) _ _
    · rw [excess_of_ne away, excess_none]
    · refine ⟨pool.valid.1, ?_⟩
      rw [setSem_self]
      exact pool.valid.2
    · rw [excess_self, excess_none, setSem_self]
      dsimp only
      lia
  · rw [result] at sems
    refine ⟨_, Or.inl ⟨rfl, result, ?_⟩⟩
    have elsewhere : ∀ {other : Nat} {process : Process Point}, other ≠ pid →
        ((s.kernel.setSem (s.home poolid).sem ⟨.used, (s.kernel.semtab (s.home poolid).sem).scount - 1,
          (s.kernel.semtab (s.home poolid).sem).squeue ++ [pid]⟩).place pid process).process other =
        s.kernel.process other := fun away => Function.update_of_ne away _ _
    refine law.switch poolid sems (fun other otherCurrent away => ⟨?_, fun this => ?_, ?_⟩) (fun _ => ?_)
      (fun _ released nodup ready => ⟨released, nodup, fun this => ?_, ?_⟩)
      (fun this other point isCurrent waits => ?_) (fun this point at_ => ?_)
    · exact Function.update_of_ne (law.distinct other poolid otherCurrent current away) _ _
    · rcases eq_or_ne this pid with rfl | apart
      · simp [Takes, idle, Kernel.place]
      · rw [elsewhere apart]
    · rfl
    · refine ⟨pool.valid.1, ?_⟩
      rw [place_semtab, setSem_self]
    · rw [ready]
      rcases eq_or_ne this pid with rfl | apart
      · simp [Takes, idle, Kernel.place]
      · rw [elsewhere apart]
    · rw [place_semtab, setSem_self]
      dsimp only
      lia
    · rcases eq_or_ne this pid with rfl | apart
      · simp only [Kernel.place, Function.update_self, Process.waiting.injEq] at waits
        obtain ⟨same, rfl⟩ := waits
        rcases eq_or_ne other poolid with rfl | away
        · exact ⟨request, rfl⟩
        · exact absurd same (law.distinct poolid other current isCurrent (Ne.symm away))
      · rw [elsewhere apart] at waits
        exact law.waiting this other point isCurrent waits
    · rcases eq_or_ne this pid with rfl | apart
      · simp only [At, Kernel.place, Function.update_self, reduceCtorEq, Process.waiting.injEq,
          false_or] at at_
        obtain ⟨_, _, rfl⟩ := at_
        intro home isHome
        obtain rfl : s.home poolid = home := Option.some.inj isHome
        exact law.young poolid current
      · rw [elsewhere apart] at at_
        exact law.past this point at_

/-- `signal` of the semaphore of a pool for the buffer that was put back. -/
theorem Law.signal (law : Law s (some poolid)) (current : s.Current poolid) :
    Law { s with kernel := (signal s.kernel (s.home poolid).sem).2 } none := by
  have pool := law.pools poolid current
  have sems : Semaphores.Law (Semaphores.signal s.kernel (s.home poolid).sem).2 := law.sems.signal
  obtain ⟨high, result⟩ | ⟨low, first, point, queue, isQueue, waits, result⟩ :=
    signal_cases law.sems pool.valid
  · rw [result] at sems ⊢
    refine law.switch poolid sems (fun other otherCurrent away => ⟨?_, fun _ => Iff.rfl, ?_⟩)
      (fun _ => ?_) (fun _ released nodup ready => ⟨released, nodup, ready, ?_⟩) law.waiting law.past
    · exact Function.update_of_ne (law.distinct other poolid otherCurrent current away) _ _
    · rw [excess_of_ne away, excess_none]
    · refine ⟨pool.valid.1, ?_⟩
      rw [setSem_self]
      exact pool.valid.2
    · rw [excess_self, excess_none, setSem_self]
      dsimp only
      lia
  · rw [result] at sems ⊢
    obtain ⟨request, rfl⟩ := law.waiting first poolid point current waits
    refine law.switch poolid sems (fun other otherCurrent away => ⟨?_, fun this => ?_, ?_⟩)
      (fun _ => ?_) (fun _ released nodup ready => ⟨first :: released, ?_, fun this => ?_, ?_⟩)
      (fun this other at_ isCurrent waitsNow => ?_) (fun this at_ here => ?_)
    · exact Function.update_of_ne (law.distinct other poolid otherCurrent current away) _ _
    · rcases eq_or_ne this first with rfl | apart
      · rw [place_self, waits]
        simp [Takes, Ne.symm away]
      · rw [place_of_ne apart, setSem_process]
    · rw [excess_of_ne away, excess_none]
    · refine ⟨pool.valid.1, ?_⟩
      rw [place_semtab, setSem_self]
    · refine List.nodup_cons.mpr ⟨fun member => ?_, nodup⟩
      obtain ⟨_, here⟩ := (ready first).mp member
      rw [waits] at here
      cases here
    · rw [List.mem_cons, ready]
      rcases eq_or_ne this first with rfl | apart
      · rw [place_self]
        simp [Takes]
      · rw [place_of_ne apart, setSem_process]
        simp [apart]
    · rw [excess_self, excess_none, place_semtab, setSem_self, List.length_cons]
      push_cast
      lia
    · rcases eq_or_ne this first with rfl | apart
      · rw [place_self] at waitsNow
        cases waitsNow
      · rw [place_of_ne apart, setSem_process] at waitsNow
        exact law.waiting this other at_ isCurrent waitsNow
    · rcases eq_or_ne this first with rfl | apart
      · rw [place_self] at here
        have same : Point.taking poolid (s.home poolid) request = at_ := by simpa [At] using here
        exact law.past this at_ (Or.inr ⟨_, same ▸ waits⟩)
      · rw [place_of_ne apart] at here
        exact law.past this at_ here

end Switching

section Freeing

variable {s : System} {slack : Option Int} {hold : Hold}

/-- The buffers in use of a pool, less one. -/
theorem heldOf_putBack (poolid other : Int) (bufaddr : Nat) : (s.putBack poolid bufaddr).heldOf other =
    (s.heldOf other).filter fun hold => hold.pointer ≠ bufaddr :=
  List.filter_comm _ _ _

/-- A buffer in use is put back. -/
theorem Law.putBack (law : Law s none) (member : hold ∈ s.held) :
    Law (s.putBack hold.poolid hold.pointer) (some hold.poolid) := by
  have current := law.homes hold member
  have pool := law.pools hold.poolid current
  have inHeld : hold ∈ s.heldOf hold.poolid := mem_heldOf.mpr ⟨member, rfl⟩
  have inBlocks := pool.inBlocks inHeld
  obtain ⟨free, released, chain, perm, distinct, ready, count⟩ := pool.lists
  have nodup := List.nodup_append.mp (perm.nodup_iff.mpr pool.nodup)
  have others : ∀ {other : Int} {place : Nat}, s.Current other → place ∈ (s.home other).blocks →
      (hold.poolid = other → hold.block ≠ place) →
      load (s.putBack hold.poolid hold.pointer).memory place = load s.memory place := by
    intro other place otherCurrent placeMember apart
    exact law.load_apart current otherCurrent inBlocks placeMember apart (Nat.le_refl _)
      (by unfold Hold.block Pool.stride; lia)
  refine ⟨⟨law.heap, law.sems, law.bound, law.young, law.past⟩, fun other otherCurrent => ?_,
    law.granted, law.apart, law.distinct, ?_, law.waiting⟩
  · rcases eq_or_ne other hold.poolid with rfl | away
    · have entry : (s.putBack hold.poolid hold.pointer).buftab hold.poolid =
          ⟨hold.block, (s.buftab hold.poolid).bpsem, (s.buftab hold.poolid).bpsize⟩ :=
        Function.update_self _ _ _
      have fresh : hold.block ∉ free := fun inFree =>
        nodup.2.2 _ inFree _ (List.mem_map_of_mem inHeld) rfl
      have freeApart : ∀ place ∈ free, place + 4 ≤ hold.block ∨ hold.block + 4 ≤ place := by
        intro place inFree
        have placeBlocks := perm.mem_iff.mp (List.mem_append_left _ inFree)
        have separated := cells_apart placeBlocks inBlocks fun same => fresh (same ▸ inFree)
        unfold Pool.stride at separated
        lia
      have small := chain.first_lt fun place inFree =>
        (pool.block_pos (perm.mem_iff.mp (List.mem_append_left _ inFree))).2
      rw [excess_self]
      refine ⟨pool.shape, ?_, ?_, pool.valid,
        ⟨hold.block :: free, released, ?_, ?_, distinct, ready, ?_⟩, ?_⟩
      · rw [entry]
        exact pool.sem
      · rw [entry]
        exact pool.size
      · rw [entry]
        exact chain.push (Nat.ne_of_gt (pool.block_pos inBlocks).1) small freeApart
      · rw [heldOf_putBack]
        refine List.Perm.trans ?_ perm
        refine (List.perm_middle.symm).trans (List.Perm.append_left free ?_)
        exact ((perm_filter_pointer nodup.2.1 inHeld).map Hold.block).symm
      · rw [excess_none] at count
        have longer : ((hold.block :: free).length : Int) = free.length + 1 := by simp
        have sems : (s.putBack hold.poolid hold.pointer).kernel = s.kernel := rfl
        have home : (s.putBack hold.poolid hold.pointer).home = s.home := rfl
        rw [sems, home]
        omega
      · rw [heldOf_putBack]
        intro other otherMember
        obtain ⟨old, apart⟩ := List.mem_filter.mp otherMember
        obtain ⟨isHome, header⟩ := pool.headers other old
        refine ⟨isHome, (others current (pool.inBlocks old) fun _ same => ?_).trans header⟩
        have positive := (pool.block_pos inBlocks).1
        have otherPositive := (pool.block_pos (pool.inBlocks old)).1
        have different : other.pointer ≠ hold.pointer := by simpa using apart
        unfold Hold.block at same positive otherPositive
        lia
    · have frame := law.pools other otherCurrent
      rw [excess_none] at frame
      rw [excess_of_ne away]
      refine frame.frame rfl (Function.update_of_ne away _ _) rfl (fun _ _ => Iff.rfl) ?_
        fun place placeMember => others otherCurrent placeMember fun same => absurd same.symm away
      rw [heldOf_putBack]
      refine List.filter_eq_self.mpr fun another inOther => ?_
      rw [decide_eq_true_eq]
      intro same
      have separated := law.blocks_apart current otherCurrent inBlocks (frame.inBlocks inOther)
        fun isOther => absurd isOther.symm away
      unfold Hold.block Pool.stride at separated
      lia
  · intro other otherMember
    exact law.homes other (List.mem_filter.mp otherMember).1

/-- A client writes into the bytes of a buffer in use. -/
theorem Law.scribble (law : Law s slack) (member : hold ∈ s.held) {memory : Memory}
    (same : ∀ byte, byte < hold.pointer ∨ hold.pointer + (s.home hold.poolid).size ≤ byte →
      memory byte = s.memory byte) : Law { s with memory := memory } slack := by
  have current := law.homes hold member
  have pool := law.pools hold.poolid current
  have inBlocks := pool.inBlocks (mem_heldOf.mpr ⟨member, rfl⟩)
  have positive := (pool.block_pos inBlocks).1
  refine ⟨⟨law.heap, law.sems, law.bound, law.young, law.past⟩, fun other otherCurrent => ?_,
    law.granted, law.apart, law.distinct, law.homes, law.waiting⟩
  refine (law.pools other otherCurrent).frame rfl rfl rfl (fun _ _ => Iff.rfl) rfl
    fun place placeMember => load_congr fun k below => same _ ?_
  have wide := (law.pools other otherCurrent).shape.wide
  unfold Hold.block at positive
  by_cases here : hold.poolid = other ∧ hold.block = place
  · have block : hold.block = hold.pointer - 4 := rfl
    lia
  · have separated := law.blocks_apart current otherCurrent inBlocks placeMember fun isOther isPlace =>
      here ⟨isOther, isPlace⟩
    unfold Hold.block Pool.stride at separated
    lia

end Freeing

end Xinu.BufferPools
