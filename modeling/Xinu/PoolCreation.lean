import Xinu.PoolLaws

/-!
# Making a pool

`mkbufpool` takes a block of the heap and a semaphore, which no other pool has. All buffers of
the new pool are free, and nobody waits for one. Where the block or the semaphore is not to be
had, the pools stay as they are.
-/

namespace Xinu.BufferPools

open CIntegers WordMemory Semaphores Runs

theorem roundBuf_bounds {bufsiz : Nat} (small : bufsiz ≤ 8192) :
    bufsiz ≤ roundBuf bufsiz ∧ roundBuf bufsiz < bufsiz + 4 ∧ 4 ∣ roundBuf bufsiz := by
  have mask : 0xFFFFFFFC = (2 ^ (32 - 2) - 1) <<< 2 := by decide
  unfold roundBuf
  rw [mask, HeapMemory.mask_low (by decide) (by omega)]
  omega

section Making

variable {s : System} {low high : Nat}

/-- The blocks in use after `getmem`. -/
theorem getmem_live {heap after : HeapMemory.Kernel} {nbytes buf : Nat}
    (completed : HeapMemory.step heap (.getmem nbytes) = some (buf, after)) :
    after.live = if buf = HeapMemory.syserr then heap.live else ⟨.memory, buf, nbytes⟩ :: heap.live := by
  obtain ⟨⟨pointer, h⟩, _, same⟩ := Option.map_eq_some_iff.mp completed
  obtain ⟨rfl, rfl⟩ := Prod.mk.inj same
  unfold HeapMemory.Kernel.granted
  split <;> rfl

/-- A block in use lies in the heap. -/
theorem grant_inside {heap : HeapMemory.Kernel} (sound : heap.Sound low high) {base length : Nat}
    (member : ⟨.memory, base, length⟩ ∈ heap.live) : 0 < base ∧ base + length < 2 ^ 32 := by
  obtain ⟨blocks, whole⟩ := sound.heap
  have grant := sound.grants _ member
  have atLeast : length ≤ HeapMemory.roundmb length := (HeapMemory.roundmb_bounds grant.small).1
  have positive : 0 < HeapMemory.roundmb length := Nat.lt_of_lt_of_le grant.someBytes atLeast
  have inside := whole.tiles.inside (List.mem_append_right _ (List.mem_map_of_mem member)) positive
  have above : low ≤ base := inside.1
  have below : base + HeapMemory.roundmb length ≤ high := inside.2
  have someAddress := whole.someAddress
  have inWord := whole.inWord
  lia

/-- A new block in use does not overlap the others. -/
theorem grants_apart {heap : HeapMemory.Kernel} (sound : heap.Sound low high)
    {base length other size : Nat} {live : List HeapMemory.Grant}
    (first : heap.live = ⟨.memory, base, length⟩ :: live) (member : ⟨.memory, other, size⟩ ∈ live) :
    base + length ≤ other ∨ other + size ≤ base := by
  obtain ⟨blocks, whole⟩ := sound.heap
  have grant := sound.grants ⟨.memory, base, length⟩ (first ▸ List.mem_cons_self)
  have otherGrant := sound.grants ⟨.memory, other, size⟩ (first ▸ List.mem_cons_of_mem _ member)
  have atLeast : length ≤ HeapMemory.roundmb length := (HeapMemory.roundmb_bounds grant.small).1
  have otherAtLeast : size ≤ HeapMemory.roundmb size :=
    (HeapMemory.roundmb_bounds otherGrant.small).1
  have pairs := (List.pairwise_append.mp whole.tiles.disjoint).2.1
  rw [first, List.map_cons, List.pairwise_cons] at pairs
  have disjoint := pairs.1 _ (List.mem_map_of_mem member)
  rcases Nat.le_total base other with before | behind
  · have reaches := Intervals.stop_le_start_of_disjoint disjoint
      (Nat.lt_of_lt_of_le otherGrant.someBytes otherAtLeast) before
    have stop : base + HeapMemory.roundmb length ≤ other := reaches
    exact Or.inl (by lia)
  · have reaches := Intervals.stop_le_start_of_disjoint disjoint.symm
      (Nat.lt_of_lt_of_le grant.someBytes atLeast) behind
    have stop : other + HeapMemory.roundmb size ≤ base := reaches
    exact Or.inr (by lia)

/-- The system with one more pool. -/
def System.grown (s : System) (heap : HeapMemory.Kernel) (kernel : Kernel Point) (pool : Pool) : System :=
  { s with
    heap := heap
    kernel := kernel
    buftab := Function.update s.buftab s.nbpools ⟨pool.base, pool.sem, pool.size⟩
    nbpools := s.nbpools + 1
    memory := linkCells pool.stride (pool.number - 1) pool.base s.memory
    home := Function.update s.home s.nbpools pool
    made := s.made + 1 }

/-- A block of the heap and a semaphore for a new pool. -/
structure Grows (s : System) (heap : HeapMemory.Kernel) (kernel : Kernel Point) (pool : Pool) : Prop where
  room : s.nbpools < maxPools
  sound : ∃ low high, heap.Sound low high
  live : heap.live = ⟨.memory, pool.base, pool.number * pool.stride⟩ :: s.heap.live
  sems : Semaphores.Law kernel
  inRange : Processes.isbadsem pool.sem = false
  isFree : (s.kernel.semtab pool.sem).sstate = .free
  semtab : kernel.semtab = Function.update s.kernel.semtab pool.sem ⟨.used, pool.number, []⟩
  process : kernel.process = s.kernel.process
  serial : pool.serial = s.made
  wide : 8 ≤ pool.size
  someBuffer : 0 < pool.number

/-- A block of the heap that was taken for nothing. -/
structure Wastes (s : System) (heap : HeapMemory.Kernel) (kernel : Kernel Point)
    (buftab : Int → Bpentry) : Prop where
  sound : ∃ low high, heap.Sound low high
  live : s.heap.live ⊆ heap.live
  sems : Semaphores.Law kernel
  semtab : kernel.semtab = s.kernel.semtab
  process : kernel.process = s.kernel.process
  entries : ∀ poolid, s.Current poolid → buftab poolid = s.buftab poolid

/-- `mkbufpool` fails, or makes one more pool. -/
theorem Base.mkbufpool_cases (base : Base s) (bufsiz numbufs : Int32) :
    (∃ heap kernel buftab, mkbufpool s bufsiz numbufs =
        some (syserr, { s with heap := heap, kernel := kernel, buftab := buftab }) ∧
      Wastes s heap kernel buftab) ∨
    ∃ heap kernel pool, mkbufpool s bufsiz numbufs = some (s.nbpools, s.grown heap kernel pool) ∧
      pool.size = roundBuf bufsiz.toInt.toNat ∧ (pool.number : Int) = numbufs.toInt ∧
      Grows s heap kernel pool := by
  by_cases accepted : bufsiz.toInt < bpMinb ∨ bpMaxb < bufsiz.toInt ∨ numbufs.toInt < 1 ∨
      bpMaxn < numbufs.toInt ∨ maxPools ≤ s.nbpools
  · exact Or.inl ⟨s.heap, s.kernel, s.buftab, if_pos accepted, base.heap, List.Subset.refl _, base.sems,
      rfl, rfl, fun _ _ => rfl⟩
  unfold mkbufpool
  rw [if_neg accepted]
  dsimp only
  unfold bpMinb bpMaxb bpMaxn at accepted
  obtain ⟨low, high, heapSound⟩ := base.heap
  have large : bufsiz.toInt.toNat ≤ 8192 := by omega
  obtain ⟨atLeast, below, _⟩ := roundBuf_bounds large
  have wide : 8 ≤ roundBuf bufsiz.toInt.toNat := by lia
  have someBytes : 0 < numbufs.toInt.toNat * (roundBuf bufsiz.toInt.toNat + 4) :=
    Nat.mul_pos (by omega) (by lia)
  have small : numbufs.toInt.toNat * (roundBuf bufsiz.toInt.toNat + 4) ≤ 2048 * 8200 :=
    Nat.mul_le_mul (by omega) (by lia)
  obtain ⟨buf, heap, completed, sound⟩ := heapSound.getmem someBytes (by lia)
  have live := getmem_live completed
  rw [completed]
  simp only [Option.bind_eq_bind, Option.bind_some]
  by_cases failed : buf = HeapMemory.syserr
  · rw [if_pos failed] at live
    exact Or.inl ⟨heap, s.kernel, s.buftab, if_pos failed, ⟨low, high, sound⟩,
      live ▸ List.Subset.refl _, base.sems, rfl, rfl, fun _ _ => rfl⟩
  · rw [if_neg failed] at live
    rw [if_neg failed]
    have sems := base.sems.semcreate numbufs.toInt.toNat
    have enough : (0 : Int) ≤ numbufs.toInt.toNat := Int.natCast_nonneg _
    obtain ⟨_, process, ⟨noSem, semtab⟩ | ⟨sem, isSem, inRange, isFree, semtab⟩⟩ :=
      semcreate_cases base.sems enough
    · refine Or.inl ⟨heap, _, _, if_pos noSem, ⟨low, high, sound⟩, ?_, sems, semtab, process, ?_⟩
      · rw [live]
        exact List.subset_cons_self _ _
      · intro poolid current
        exact Function.update_of_ne (Int.ne_of_lt current.2) _ _
    · have notError : sem ≠ Semaphores.syserr := by
        rintro rfl
        cases inRange
      rw [isSem, if_neg notError]
      refine Or.inr ⟨heap, (semcreate s.kernel numbufs.toInt.toNat).2,
        ⟨s.made, buf, roundBuf bufsiz.toInt.toNat, numbufs.toInt.toNat, sem⟩, rfl, rfl,
        by dsimp only; lia, ?_⟩
      exact ⟨by omega, ⟨low, high, sound⟩, live, sems, inRange, isFree, semtab, process, rfl, wide,
        by dsimp only; lia⟩

section Growth

variable {heap : HeapMemory.Kernel} {kernel : Kernel Point} {pool : Pool} {buftab : Int → Bpentry}

/-- The pools after one more was made. -/
theorem grown_current {poolid : Int} (current : (s.grown heap kernel pool).Current poolid) :
    poolid = s.nbpools ∨ s.Current poolid ∧ poolid ≠ s.nbpools := by
  obtain ⟨from_, to_⟩ := current
  rcases eq_or_ne poolid s.nbpools with same | apart
  · exact Or.inl same
  · refine Or.inr ⟨⟨from_, ?_⟩, apart⟩
    have below : poolid < s.nbpools + 1 := to_
    omega

theorem grown_new : (s.grown heap kernel pool).home s.nbpools = pool := Function.update_self _ _ _

theorem grown_old {poolid : Int} (apart : poolid ≠ s.nbpools) :
    (s.grown heap kernel pool).home poolid = s.home poolid := Function.update_of_ne apart _ _

theorem Base.grown (base : Base s) (grows : Grows s heap kernel pool) :
    Base (s.grown heap kernel pool) := by
  refine ⟨grows.sound, grows.sems, ⟨?_, grows.room⟩, fun poolid current => ?_,
    fun pid point here home isHome => ?_⟩
  · exact Int.le_add_one base.bound.1
  · rcases grown_current current with rfl | ⟨oldCurrent, isOld⟩
    · rw [grown_new, grows.serial]
      exact Nat.lt_succ_self _
    · rw [grown_old isOld]
      exact Nat.lt_succ_of_lt (base.young poolid oldCurrent)
  · have before : At (s.kernel.process pid) point := by
      rw [← grows.process]
      exact here
    exact Nat.lt_succ_of_lt (base.past pid point before home isHome)

theorem Base.wasted (base : Base s) (wastes : Wastes s heap kernel buftab) :
    Base { s with heap := heap, kernel := kernel, buftab := buftab } := by
  refine ⟨wastes.sound, wastes.sems, base.bound, base.young, fun pid point here => ?_⟩
  refine base.past pid point ?_
  rw [← wastes.process]
  exact here

/-- The semaphores of the pools do not change with a new one. -/
theorem Law.newSem (law : Law s none) (grows : Grows s heap kernel pool) {poolid : Int}
    (current : s.Current poolid) : (s.home poolid).sem ≠ pool.sem ∧
      kernel.semtab (s.home poolid).sem = s.kernel.semtab (s.home poolid).sem := by
  have used := (law.pools poolid current).valid.2
  have apart : (s.home poolid).sem ≠ pool.sem := by
    intro same
    rw [same, grows.isFree] at used
    cases used
  exact ⟨apart, by rw [grows.semtab, Function.update_of_ne apart]⟩

/-- All buffers of the new pool are free. -/
theorem Law.newPool (law : Law s none) (grows : Grows s heap kernel pool) :
    PoolLaw (s.grown heap kernel pool) s.nbpools 0 := by
  obtain ⟨low, high, heapSound⟩ := grows.sound
  obtain ⟨real, inWord⟩ := grant_inside heapSound (grows.live ▸ List.mem_cons_self)
  have whole : pool.number - 1 + 1 = pool.number := Nat.sub_add_cancel grows.someBuffer
  have entry : (s.grown heap kernel pool).buftab s.nbpools = ⟨pool.base, pool.sem, pool.size⟩ :=
    Function.update_self _ _ _
  have unused : (s.grown heap kernel pool).heldOf s.nbpools = [] := by
    refine List.filter_eq_nil_iff.mpr fun hold member => ?_
    have below := (law.homes hold member).2
    rw [decide_eq_true_eq]
    lia
  have count : (s.grown heap kernel pool).kernel.semtab pool.sem = ⟨.used, pool.number, []⟩ := by
    unfold System.grown
    rw [grows.semtab, Function.update_self]
  refine ⟨?_, ?_, ?_, ?_, ⟨pool.blocks, [], ?_, ?_, List.nodup_nil, fun pid => ?_, ?_⟩, ?_⟩
  · rw [grown_new]
    exact ⟨grows.wide, grows.someBuffer, real, inWord⟩
  · rw [entry, grown_new]
  · rw [entry, grown_new]
  · rw [grown_new]
    exact ⟨grows.inRange, congrArg Sentry.sstate count⟩
  · rw [entry]
    have chain : Chain (linkCells pool.stride (pool.number - 1) pool.base s.memory) pool.base
        (cells pool.base pool.stride (pool.number - 1 + 1)) :=
      linkCells_chain _ (Nat.le_add_left 4 _) (Nat.ne_of_gt real) (by rw [whole]; exact inWord.le)
    rwa [whole] at chain
  · rw [unused, grown_new, List.map_nil, List.append_nil]
  · refine iff_of_false List.not_mem_nil ?_
    rintro ⟨request, here⟩
    have before : s.kernel.process pid =
        .ready (.taking s.nbpools ((s.grown heap kernel pool).home s.nbpools) request) := by
      rw [← grows.process]
      exact here
    rw [grown_new] at before
    have older := law.past pid _ (Or.inl before) pool rfl
    have serial := grows.serial
    lia
  · rw [grown_new, count]
    unfold Pool.blocks
    rw [length_cells]
    simp
  · rw [unused]
    simp

/-- A pool is made of a new block of the heap and a new semaphore. -/
theorem Law.grown (law : Law s none) (grows : Grows s heap kernel pool) :
    Law (s.grown heap kernel pool) none := by
  obtain ⟨low, high, heapSound⟩ := grows.sound
  have whole : pool.number - 1 + 1 = pool.number := Nat.sub_add_cancel grows.someBuffer
  have ranges : ∀ poolid, s.Current poolid →
      pool.stop ≤ (s.home poolid).base ∨ (s.home poolid).stop ≤ pool.base := fun poolid current =>
    grants_apart heapSound grows.live (law.granted poolid current)
  refine ⟨law.toBase.grown grows, fun poolid current => ?_, fun poolid current => ?_,
    fun poolid other current otherCurrent apart => ?_, fun poolid other current otherCurrent apart => ?_,
    fun hold member => ?_, fun pid poolid point current waits => ?_⟩
  · rw [excess_none]
    rcases grown_current current with rfl | ⟨oldCurrent, apart⟩
    · exact law.newPool grows
    · have frame := law.pools poolid oldCurrent
      rw [excess_none] at frame
      refine frame.frame (grown_old apart) (Function.update_of_ne apart _ _)
        (law.newSem grows oldCurrent).2 (fun pid request => ?_) rfl fun block member => ?_
      · have same : (s.grown heap kernel pool).kernel.process = s.kernel.process := grows.process
        rw [same]
      · have bounds := cells_bounds member
        have separated := ranges poolid oldCurrent
        refine load_congr fun k below => linkCells_outside _ (Nat.le_add_left 4 _) ?_
        rw [whole]
        unfold Pool.stride at bounds
        unfold Pool.stop Pool.stride at separated
        lia
  · rcases grown_current current with rfl | ⟨oldCurrent, apart⟩
    · rw [grown_new]
      exact grows.live ▸ List.mem_cons_self
    · rw [grown_old apart]
      exact grows.live ▸ List.mem_cons_of_mem _ (law.granted poolid oldCurrent)
  · rcases grown_current current with rfl | ⟨oldCurrent, isOld⟩ <;>
      rcases grown_current otherCurrent with rfl | ⟨oldOther, otherOld⟩
    · exact absurd rfl apart
    · rw [grown_new, grown_old otherOld]
      exact ranges other oldOther
    · rw [grown_new, grown_old isOld]
      exact (ranges poolid oldCurrent).symm
    · rw [grown_old isOld, grown_old otherOld]
      exact law.apart poolid other oldCurrent oldOther apart
  · rcases grown_current current with rfl | ⟨oldCurrent, isOld⟩ <;>
      rcases grown_current otherCurrent with rfl | ⟨oldOther, otherOld⟩
    · exact absurd rfl apart
    · rw [grown_new, grown_old otherOld]
      exact (law.newSem grows oldOther).1.symm
    · rw [grown_new, grown_old isOld]
      exact (law.newSem grows oldCurrent).1
    · rw [grown_old isOld, grown_old otherOld]
      exact law.distinct poolid other oldCurrent oldOther apart
  · obtain ⟨from_, to_⟩ := law.homes hold member
    exact ⟨from_, Int.lt_add_one_of_le (Int.le_of_lt to_)⟩
  · have waitsBefore : s.kernel.process pid =
        .waiting ((s.grown heap kernel pool).home poolid).sem point := by
      rw [← grows.process]
      exact waits
    rcases grown_current current with rfl | ⟨oldCurrent, isOld⟩
    · rw [grown_new] at waitsBefore
      have queued := (law.sems.queued pool.sem pid).mpr ⟨point, waitsBefore⟩
      rw [law.sems.unused pool.sem grows.isFree] at queued
      cases queued
    · rw [grown_old isOld] at waitsBefore ⊢
      exact law.waiting pid poolid point oldCurrent waitsBefore

/-- A pool that could not be made leaves a block of the heap behind, and nothing else. -/
theorem Law.wasted (law : Law s none) (wastes : Wastes s heap kernel buftab) :
    Law { s with heap := heap, kernel := kernel, buftab := buftab } none := by
  refine ⟨law.toBase.wasted wastes, fun poolid current => ?_,
    fun poolid current => wastes.live (law.granted poolid current), law.apart, law.distinct, law.homes,
    fun pid poolid point current waits => ?_⟩
  · exact (law.pools poolid current).frame rfl (wastes.entries poolid current) (congrFun wastes.semtab _)
      (fun pid request => by rw [wastes.process]) rfl (fun _ _ => rfl)
  · refine law.waiting pid poolid point current ?_
    rw [← wastes.process]
    exact waits

end Growth

/-- Pools are added, and nothing else changes that clients see. -/
structure Extends (s after : System) : Prop where
  process : after.kernel.process = s.kernel.process
  held : after.held = s.held
  stranded : after.stranded = s.stranded
  bufsize : after.bufsize = s.bufsize
  bufnumb : after.bufnumb = s.bufnumb
  allocBy : after.allocBy = s.allocBy
  allocBf : after.allocBf = s.allocBf
  fragmBy : after.fragmBy = s.fragmBy
  nbpools : s.nbpools ≤ after.nbpools
  home : ∀ poolid, s.Current poolid → after.home poolid = s.home poolid

section Extension

variable {middle after : System} {heap : HeapMemory.Kernel} {kernel : Kernel Point} {pool : Pool}
  {buftab : Int → Bpentry}

theorem Extends.refl (s : System) : Extends s s :=
  ⟨rfl, rfl, rfl, rfl, rfl, rfl, rfl, rfl, le_refl _, fun _ _ => rfl⟩

theorem Extends.trans (first : Extends s middle) (second : Extends middle after) : Extends s after := by
  refine ⟨second.process.trans first.process, second.held.trans first.held,
    second.stranded.trans first.stranded, second.bufsize.trans first.bufsize,
    second.bufnumb.trans first.bufnumb, second.allocBy.trans first.allocBy,
    second.allocBf.trans first.allocBf, second.fragmBy.trans first.fragmBy,
    first.nbpools.trans second.nbpools, fun poolid current => ?_⟩
  have still : middle.Current poolid := ⟨current.1, lt_of_lt_of_le current.2 first.nbpools⟩
  exact (second.home poolid still).trans (first.home poolid current)

theorem Wastes.extends_ (wastes : Wastes s heap kernel buftab) :
    Extends s { s with heap := heap, kernel := kernel, buftab := buftab } :=
  ⟨wastes.process, rfl, rfl, rfl, rfl, rfl, rfl, rfl, le_refl _, fun _ _ => rfl⟩

theorem Grows.extends_ (grows : Grows s heap kernel pool) : Extends s (s.grown heap kernel pool) := by
  refine ⟨grows.process, rfl, rfl, rfl, rfl, rfl, rfl, rfl, Int.le_of_lt (Int.lt_succ _),
    fun poolid current => grown_old (Int.ne_of_lt current.2)⟩

/-- A property that holds with every new pool, and with every one that could not be made. -/
structure Lasting (invariant : System → Prop) : Prop where
  base : ∀ s, invariant s → Base s
  grown : ∀ s heap kernel pool, invariant s → Grows s heap kernel pool →
    invariant (s.grown heap kernel pool)
  wasted : ∀ s heap kernel buftab, invariant s → Wastes s heap kernel buftab →
    invariant { s with heap := heap, kernel := kernel, buftab := buftab }

theorem lasting_base : Lasting Base :=
  ⟨fun _ base => base, fun _ _ _ _ base grows => base.grown grows,
    fun _ _ _ _ base wastes => base.wasted wastes⟩

theorem lasting_law : Lasting fun s => Law s none :=
  ⟨fun _ law => law.toBase, fun _ _ _ _ law grows => law.grown grows,
    fun _ _ _ _ law wastes => law.wasted wastes⟩

/-- The pool with an id has the size and the number of buffers that were asked for. -/
def Pool.Fits (pool : Pool) (bufsiz numbufs : Int32) : Prop :=
  pool.size = roundBuf bufsiz.toInt.toNat ∧ (pool.number : Int) = numbufs.toInt

/-- `mkbufpool` in a state with such a property. -/
theorem Lasting.mkbufpool {invariant : System → Prop} (lasting : Lasting invariant)
    (holds : invariant s) (bufsiz numbufs : Int32) :
    ∃ reply after, mkbufpool s bufsiz numbufs = some (reply, after) ∧ invariant after ∧
      Extends s after ∧ (reply = syserr ∧ after.nbpools = s.nbpools ∨
        reply = s.nbpools ∧ after.nbpools = s.nbpools + 1 ∧
          (after.home s.nbpools).Fits bufsiz numbufs) := by
  obtain ⟨heap, kernel, buftab, result, wastes⟩ | ⟨heap, kernel, pool, result, size, number, grows⟩ :=
    (lasting.base s holds).mkbufpool_cases bufsiz numbufs
  · exact ⟨_, _, result, lasting.wasted s heap kernel buftab holds wastes, wastes.extends_,
      Or.inl ⟨rfl, rfl⟩⟩
  · refine ⟨_, _, result, lasting.grown s heap kernel pool holds grows, grows.extends_,
      Or.inr ⟨rfl, rfl, ?_⟩⟩
    rw [grown_new]
    exact ⟨size, number⟩

/-- The loop of `xmalloc_init` makes pools until one fails. -/
theorem Lasting.makePools {invariant : System → Prop} (lasting : Lasting invariant) (turns : Nat)
    (poolid : Int) (holds : invariant s) :
    ∃ after, makePools turns poolid s = some after ∧ invariant after ∧ Extends s after ∧
      after.nbpools ≤ s.nbpools + turns ∧ ∀ index : Nat, s.nbpools + index < after.nbpools →
        (after.home (s.nbpools + index)).Fits (s.bufsize (poolid + index) + 4)
          (s.bufnumb (poolid + index)) := by
  induction turns generalizing poolid s with
  | zero => exact ⟨s, rfl, holds, Extends.refl s, by simp, fun index below => absurd below (by omega)⟩
  | succ turns inductionHypothesis =>
    have bound := (lasting.base s holds).bound.1
    obtain ⟨reply, middle, result, still, extended, ⟨rfl, same⟩ | ⟨rfl, more, fits⟩⟩ :=
      lasting.mkbufpool holds (s.bufsize poolid + 4) (s.bufnumb poolid)
    · refine ⟨middle, ?_, still, extended, by omega, fun index below => absurd below (by omega)⟩
      unfold BufferPools.makePools
      rw [result]
      rfl
    · obtain ⟨after, made, lastly, later, below, all⟩ := inductionHypothesis (poolid + 1) still
      refine ⟨after, ?_, lastly, extended.trans later, by omega, fun index inside => ?_⟩
      · unfold BufferPools.makePools
        rw [result]
        have notError : s.nbpools ≠ syserr := by
          unfold syserr
          lia
        simp only [Option.bind_eq_bind, Option.bind_some]
        rw [if_neg notError]
        exact made
      · rw [more, extended.bufsize, extended.bufnumb] at all
        cases index with
        | zero =>
          have first : middle.Current s.nbpools := ⟨bound, by omega⟩
          rw [Int.natCast_zero, Int.add_zero, Int.add_zero, later.home _ first]
          exact fits
        | succ index =>
          have rest := all index (by lia)
          have place : s.nbpools + 1 + (index : Int) = s.nbpools + ((index + 1 : Nat) : Int) := by lia
          have source : poolid + 1 + (index : Int) = poolid + ((index + 1 : Nat) : Int) := by lia
          rwa [place, source] at rest

end Extension

end Making

end Xinu.BufferPools
