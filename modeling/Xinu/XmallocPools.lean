import Xinu.PoolCoherence

/-!
# The segregated allocator

After an `xmalloc_init` that could make all ten pools, the clients call `xmalloc` and `xfree`
and write into the bytes that they asked for. The size that was asked for is behind these
bytes, in the last word of the buffer, where `xfree` reads it back, so that the statistics
follow the buffers in use. No process waits for a buffer: `xmalloc` looks at the list before
it calls `getbuf`.
-/

namespace Xinu.BufferPools

open CIntegers WordMemory Semaphores Runs

/-- The pools have the sizes and the numbers of buffers of `xmalloc_init`. -/
structure Laid (s : System) (poolid : Int) : Prop where
  bufsize : s.bufsize poolid = initSize poolid
  bufnumb : s.bufnumb poolid = initNumb poolid
  size : ((s.home poolid).size : Int) = (initSize poolid).toInt + 4
  number : ((s.home poolid).number : Int) = (initNumb poolid).toInt

/-- The bytes that were asked for. -/
def Hold.asked (hold : Hold) : Int := (hold.request.getD 0).toInt

/-- A buffer in use was asked for with a size that it can hold in front of its last word, and has
this size in that word. -/
structure Hold.Marked (s : System) (hold : Hold) (size : Int32) : Prop where
  request : hold.request = some size
  positive : 0 < size.toInt
  fits : size.toInt ≤ (s.bufsize hold.poolid).toInt
  mark : load s.memory (hold.pointer + (s.home hold.poolid).size - 4) = size.toUInt32

/-- The allocator between the calls, with some number of the ten pools. -/
structure Stock (count : Int) (s : System) : Prop where
  law : Law s none
  whole : s.nbpools = count
  within : count ≤ poolnum
  quiet : ∀ pid poolid request, s.Current poolid →
    ¬ At (s.kernel.process pid) (.taking poolid (s.home poolid) request)
  laid : ∀ poolid, s.Current poolid → Laid s poolid
  marked : ∀ hold ∈ s.held, ∃ size, hold.Marked s size
  buffers : ∀ poolid, s.Current poolid → (s.allocBf poolid).toInt = (s.heldOf poolid).length
  bytes : ∀ poolid, s.Current poolid →
    (s.allocBy poolid).toInt = ((s.heldOf poolid).map Hold.asked).sum
  agrees : ∀ poolid, s.Current poolid → s.heldOf poolid ≠ [] → s.Agrees poolid

section Sizes

variable {s : System} {poolid other count : Int}

theorem Stock.inside (stock : Stock count s) (current : s.Current poolid) : poolid < poolnum :=
  (stock.whole ▸ current.2).trans_le stock.within

/-- The sizes of the ten pools. -/
theorem initSize_bounds (from_ : 0 ≤ poolid) (to_ : poolid < poolnum) :
    12 ≤ (initSize poolid).toInt ∧ (initSize poolid).toInt ≤ 8188 ∧
    1 ≤ (initNumb poolid).toInt ∧ (initSize poolid).toInt * (initNumb poolid).toInt < 2 ^ 30 ∧
    (roundBuf (initSize poolid + 4).toInt.toNat : Int) = (initSize poolid).toInt + 4 := by
  obtain ⟨index, rfl⟩ := Int.eq_ofNat_of_zero_le from_
  have below : index < 10 := Int.ofNat_lt.mp to_
  interval_cases index <;> decide

theorem initSize_mono (from_ : 0 ≤ poolid) (ordered : poolid < other) (to_ : other < poolnum) :
    (initSize poolid).toInt < (initSize other).toInt := by
  have table : ∀ high < 10, ∀ low < high, (initSize (low : Nat)).toInt < (initSize (high : Nat)).toInt := by
    decide
  obtain ⟨low, rfl⟩ := Int.eq_ofNat_of_zero_le from_
  obtain ⟨high, rfl⟩ := Int.eq_ofNat_of_zero_le (from_.trans ordered.le)
  exact table high (Int.ofNat_lt.mp to_) low (Int.ofNat_lt.mp ordered)

/-- The smallest of the pools whose buffers can hold some bytes. -/
structure System.Chosen (s : System) (size : Int32) (poolid : Int) : Prop where
  current : s.Current poolid
  fits : size.toInt ≤ (s.bufsize poolid).toInt
  least : ∀ other, 0 ≤ other → other < poolid → (s.bufsize other).toInt < size.toInt

/-- The search ends with two neighbours, of which the first is too small. -/
theorem closestLoop_neighbours (size : Int32) (turns : Nat) (start end_ : Int)
    (ordered : start < end_) (enough : end_ - start ≤ turns)
    (small : (s.bufsize start).toInt < size.toInt) (large : size.toInt ≤ (s.bufsize end_).toInt) :
    ∃ found, start ≤ found ∧ found < end_ ∧ closestLoop s size turns start end_ = (found, found + 1) ∧
      (s.bufsize found).toInt < size.toInt ∧ size.toInt ≤ (s.bufsize (found + 1)).toInt := by
  induction turns generalizing start end_ with
  | zero => omega
  | succ turns inductionHypothesis =>
    unfold closestLoop
    split
    case isTrue between =>
      dsimp only
      have middle : start < start + (end_ - start) / 2 ∧ start + (end_ - start) / 2 < end_ := by omega
      split
      case isTrue tooSmall =>
        obtain ⟨found, from_, to_, result⟩ :=
          inductionHypothesis _ _ middle.2 (by omega) tooSmall large
        exact ⟨found, by lia, to_, result⟩
      case isFalse enoughRoom =>
        obtain ⟨found, from_, to_, result⟩ :=
          inductionHypothesis _ _ middle.1 (by omega) small (not_lt.mp enoughRoom)
        exact ⟨found, from_, by lia, result⟩
    case isFalse neighbours =>
      obtain rfl : end_ = start + 1 := by omega
      exact ⟨start, le_refl _, ordered, rfl, small, large⟩

/-- `findClosestIndex` of a size that some pool can hold. -/
theorem Stock.closest (stock : Stock count s) {size : Int32} (some_ : 0 < count) (positive : 0 < size.toInt)
    (below : size.toInt ≤ (s.bufsize (s.nbpools - 1)).toInt) :
    s.Chosen size (findClosestIndex s size) := by
  have pools := stock.whole
  have within := stock.within
  have least : ∀ poolid, 0 < poolid → poolid < s.nbpools →
      (s.bufsize (poolid - 1)).toInt < size.toInt →
      ∀ other, 0 ≤ other → other < poolid → (s.bufsize other).toInt < size.toInt := by
    intro poolid from_ to_ tooSmall other otherFrom otherTo
    have here := stock.laid (poolid - 1) ⟨by omega, by omega⟩
    have there := stock.laid other ⟨otherFrom, by lia⟩
    rw [here.bufsize] at tooSmall
    rw [there.bufsize]
    rcases eq_or_ne other (poolid - 1) with rfl | apart
    · exact tooSmall
    · exact (initSize_mono otherFrom (by lia) (by lia)).trans tooSmall
  unfold findClosestIndex
  rw [if_neg (by omega)]
  split
  case isTrue first =>
    exact ⟨⟨le_refl _, by omega⟩, first, fun other from_ to_ => absurd to_ (by lia)⟩
  case isFalse beyond =>
    have more : 1 < s.nbpools := by
      by_contra single
      have only : s.nbpools - 1 = 0 := by lia
      rw [only] at below
      exact beyond below
    obtain ⟨found, from_, to_, result, small, large⟩ := closestLoop_neighbours size s.nbpools.toNat 0
      (s.nbpools - 1) (by omega) (by lia) (not_le.mp beyond) below
    rw [result]
    dsimp only
    rw [if_neg (not_le.mpr small), if_pos large]
    refine ⟨⟨by lia, by omega⟩, large, least (found + 1) (by omega) (by omega) ?_⟩
    rwa [add_sub_cancel_right]

end Sizes

section Buffers

variable {s : System} {slack : Option Int} {poolid count : Int} {hold : Hold} {pid : Nat}

/-- Two buffers with the words in front of them do not overlap. -/
def Hold.Apart (hold other : Hold) : Prop :=
  hold.pointer + hold.home.size ≤ other.block ∨ other.pointer + other.home.size ≤ hold.block

/-- Buffers whose blocks are distinct in every pool are distinct in pairs. -/
theorem pairwise_blocks {held : List Hold}
    (distinct : ∀ poolid : Int, ((held.filter fun hold => hold.poolid = poolid).map Hold.block).Nodup) :
    held.Pairwise fun hold other => hold.poolid = other.poolid → hold.block ≠ other.block := by
  induction held with
  | nil => exact List.Pairwise.nil
  | cons first rest inductionHypothesis =>
    refine List.pairwise_cons.mpr ⟨fun other member same equal => ?_, inductionHypothesis fun poolid => ?_⟩
    · have nodup := distinct first.poolid
      rw [List.filter_cons_of_pos (by simp), List.map_cons, List.nodup_cons] at nodup
      refine nodup.1 (List.mem_map.mpr ⟨other, ?_, equal.symm⟩)
      exact List.mem_filter.mpr ⟨member, by simpa using same.symm⟩
    · have sub : (rest.filter fun hold => hold.poolid = poolid).Sublist
          ((first :: rest).filter fun hold => hold.poolid = poolid) :=
        (List.sublist_cons_self first rest).filter _
      exact (distinct poolid).sublist (sub.map _)

/-- The buffers in use are apart. -/
theorem Law.held_apart (law : Law s slack) : s.held.Pairwise Hold.Apart := by
  have distinct : ∀ poolid : Int,
      ((s.held.filter fun hold => hold.poolid = poolid).map Hold.block).Nodup := by
    intro poolid
    by_cases current : s.Current poolid
    · have pool := law.pools poolid current
      obtain ⟨free, _, _, perm, _⟩ := pool.lists
      exact (List.nodup_append.mp (perm.nodup_iff.mpr pool.nodup)).2.1
    · have unused : (s.held.filter fun hold => hold.poolid = poolid) = [] := by
        refine List.filter_eq_nil_iff.mpr fun hold member => ?_
        simp only [decide_eq_true_eq]
        rintro rfl
        exact current (law.homes hold member)
      rw [unused]
      exact List.nodup_nil
  refine (pairwise_blocks distinct).imp_of_mem fun {hold other} member otherMember away => ?_
  have current := law.homes hold member
  have otherCurrent := law.homes other otherMember
  have pool := law.pools _ current
  have otherPool := law.pools _ otherCurrent
  have inBlocks := pool.inBlocks (mem_heldOf.mpr ⟨member, rfl⟩)
  have otherInBlocks := otherPool.inBlocks (mem_heldOf.mpr ⟨otherMember, rfl⟩)
  have isHome := (pool.headers hold (mem_heldOf.mpr ⟨member, rfl⟩)).1
  have otherHome := (otherPool.headers other (mem_heldOf.mpr ⟨otherMember, rfl⟩)).1
  have positive := (pool.block_pos inBlocks).1
  have otherPositive := (otherPool.block_pos otherInBlocks).1
  have separated := law.blocks_apart current otherCurrent inBlocks otherInBlocks away
  unfold Hold.Apart
  rw [isHome, otherHome]
  unfold Hold.block Pool.stride at *
  lia

/-- Two buffers in use lie in pools that there are, one behind the other. -/
theorem Law.separated (law : Law s slack) {other : Hold} (member : hold ∈ s.held)
    (otherMember : other ∈ s.held) (apart : hold ≠ other) :
    hold.pointer + (s.home hold.poolid).size + 4 ≤ other.pointer ∨
      other.pointer + (s.home other.poolid).size + 4 ≤ hold.pointer := by
  have symmetric : Std.Symm Hold.Apart := ⟨fun _ _ => Or.symm⟩
  have separated := law.held_apart.forall member otherMember apart
  have pool := law.pools _ (law.homes hold member)
  have otherPool := law.pools _ (law.homes other otherMember)
  have isHome := (pool.headers hold (mem_heldOf.mpr ⟨member, rfl⟩)).1
  have otherHome := (otherPool.headers other (mem_heldOf.mpr ⟨otherMember, rfl⟩)).1
  have positive := (pool.block_pos (pool.inBlocks (mem_heldOf.mpr ⟨member, rfl⟩))).1
  have otherPositive := (otherPool.block_pos (otherPool.inBlocks (mem_heldOf.mpr ⟨otherMember, rfl⟩))).1
  unfold Hold.Apart at separated
  unfold Hold.block at *
  rw [isHome, otherHome] at separated
  omega

/-- The free buffers of a pool of the allocator are as many as its semaphore counts. -/
theorem Stock.lists (stock : Stock count s) (current : s.Current poolid) : ∃ free : List Nat,
    Chain s.memory (s.buftab poolid).bpnext free ∧
    (free ++ (s.heldOf poolid).map Hold.block).Perm (s.home poolid).blocks ∧
    (free.length : Int) = (s.kernel.semtab (s.home poolid).sem).scount := by
  have pool := stock.law.pools poolid current
  obtain ⟨free, released, chain, perm, _, takes, count⟩ := pool.lists
  have nobody : released = [] := by
    refine List.eq_nil_iff_forall_not_mem.mpr fun pid member => ?_
    obtain ⟨request, ready⟩ := (takes pid).mp member
    exact stock.quiet pid poolid request current (Or.inl ready)
  have noQueue : (s.kernel.semtab (s.home poolid).sem).squeue = [] := by
    refine List.eq_nil_iff_forall_not_mem.mpr fun pid member => ?_
    obtain ⟨point, waits⟩ := (stock.law.sems.queued _ pid).mp member
    obtain ⟨request, rfl⟩ := stock.law.waiting pid poolid point current waits
    exact stock.quiet pid poolid request current (Or.inr ⟨_, waits⟩)
  have length := stock.law.sems.count _ pool.valid.2
  rw [noQueue] at length
  rw [nobody, excess_none] at count
  simp only [List.length_nil] at length count
  exact ⟨free, chain, perm, by lia⟩

/-- The buffers in use are no more than the pool has. -/
theorem Stock.held_le (stock : Stock count s) (current : s.Current poolid) :
    ((s.heldOf poolid).length : Int) ≤ (initNumb poolid).toInt := by
  obtain ⟨free, _, perm, _⟩ := stock.lists current
  have length := perm.length_eq
  have number := (stock.laid poolid current).number
  rw [List.length_append, List.length_map, Pool.blocks, length_cells] at length
  lia

/-- The requests of some buffers of one pool. -/
theorem asked_bounds {held : List Hold} {limit : Int}
    (marked : ∀ hold ∈ held, 0 < hold.asked ∧ hold.asked ≤ limit) :
    0 ≤ (held.map Hold.asked).sum ∧ (held.map Hold.asked).sum ≤ limit * held.length := by
  induction held with
  | nil => simp
  | cons first rest inductionHypothesis =>
    obtain ⟨low, high⟩ := marked first List.mem_cons_self
    obtain ⟨restLow, restHigh⟩ := inductionHypothesis fun hold member =>
      marked hold (List.mem_cons_of_mem _ member)
    simp only [List.map_cons, List.sum_cons, List.length_cons, Int.natCast_add, Int.natCast_one, mul_add,
      mul_one]
    omega

theorem Hold.Marked.asked {size : Int32} (marked : hold.Marked s size) : hold.asked = size.toInt := by
  unfold Hold.asked
  rw [marked.request]
  rfl

/-- The requests of a pool of the allocator. -/
theorem Stock.asked (stock : Stock count s) (current : s.Current poolid) :
    0 ≤ ((s.heldOf poolid).map Hold.asked).sum ∧ ((s.heldOf poolid).map Hold.asked).sum ≤
      (initSize poolid).toInt * (s.heldOf poolid).length := by
  refine asked_bounds fun hold member => ?_
  obtain ⟨inUse, rfl⟩ := mem_heldOf.mp member
  obtain ⟨size, marked⟩ := stock.marked hold inUse
  have fits := marked.fits
  rw [(stock.laid _ current).bufsize] at fits
  rw [marked.asked]
  exact ⟨marked.positive, fits⟩

end Buffers

section Steps

variable {s after : System} {poolid count : Int} {hold : Hold} {pid : Nat} {size : Int32}

/-- The allocator after a change that brings no process into `getbuf`. -/
theorem Stock.restock (stock : Stock count s) (law : Law after none) (nbpools : after.nbpools = s.nbpools)
    (home : after.home = s.home) (bufsize : after.bufsize = s.bufsize)
    (bufnumb : after.bufnumb = s.bufnumb)
    (process : ∀ this point, At (after.kernel.process this) point → At (s.kernel.process this) point)
    (marked : ∀ hold ∈ after.held, ∃ size, hold.Marked after size)
    (counts : ∀ poolid, s.Current poolid →
      (after.allocBf poolid).toInt = (after.heldOf poolid).length ∧
      (after.allocBy poolid).toInt = ((after.heldOf poolid).map Hold.asked).sum ∧
      (after.heldOf poolid ≠ [] → after.Agrees poolid)) : Stock count after := by
  have current : ∀ poolid, after.Current poolid ↔ s.Current poolid := by
    simp [System.Current, nbpools]
  refine ⟨law, nbpools.trans stock.whole, stock.within, fun this poolid request isCurrent here => ?_,
    fun poolid isCurrent => ?_, marked, fun poolid isCurrent => ?_, fun poolid isCurrent => ?_,
    fun poolid isCurrent => ?_⟩
  · rw [home] at here
    exact stock.quiet this poolid request ((current poolid).mp isCurrent) (process this _ here)
  · have laid := stock.laid poolid ((current poolid).mp isCurrent)
    exact ⟨bufsize ▸ laid.bufsize, bufnumb ▸ laid.bufnumb, home ▸ laid.size, home ▸ laid.number⟩
  · exact (counts poolid ((current poolid).mp isCurrent)).1
  · exact (counts poolid ((current poolid).mp isCurrent)).2.1
  · exact (counts poolid ((current poolid).mp isCurrent)).2.2

/-- The last word of a buffer in use is not touched by changes in front of or behind it. -/
theorem Hold.Marked.congr (marked : hold.Marked s size) (home : after.home = s.home)
    (bufsize : after.bufsize = s.bufsize)
    (same : load after.memory (hold.pointer + (s.home hold.poolid).size - 4) =
      load s.memory (hold.pointer + (s.home hold.poolid).size - 4)) : hold.Marked after size :=
  ⟨marked.request, marked.positive, bufsize ▸ marked.fits, home ▸ same.trans marked.mark⟩

theorem at_of_update {process : Nat → Process Point} {this : Nat} {point : Point}
    (here : At (Function.update process pid .idle this) point) : At (process this) point := by
  rcases eq_or_ne this pid with rfl | apart
  · rw [Function.update_self] at here
    simp [At] at here
  · rwa [Function.update_of_ne apart] at here

/-- The statistics of a pool with one buffer more. -/
theorem Stock.raised (stock : Stock count s) (current : s.Current poolid) (positive : 0 < size.toInt)
    (fits : size.toInt ≤ (s.bufsize poolid).toInt) :
    (s.allocBf poolid + 1).toInt = (s.heldOf poolid).length + 1 ∧
    (s.allocBy poolid + size).toInt = size.toInt + ((s.heldOf poolid).map Hold.asked).sum := by
  obtain ⟨low, high, some_, product, _⟩ := initSize_bounds current.1 (stock.inside current)
  have buffers := stock.buffers poolid current
  have bytes := stock.bytes poolid current
  have length := stock.held_le current
  obtain ⟨sumLow, sumHigh⟩ := stock.asked current
  have sumBound : (initSize poolid).toInt * ((s.heldOf poolid).length : Int) ≤
      (initSize poolid).toInt * (initNumb poolid).toInt := Int.mul_le_mul_of_nonneg_left length (by lia)
  have numbBound : (initNumb poolid).toInt ≤ (initSize poolid).toInt * (initNumb poolid).toInt :=
    le_mul_of_one_le_left (by lia) (by lia)
  have one : (1 : Int32).toInt = 1 := rfl
  rw [(stock.laid poolid current).bufsize] at fits
  rw [toInt_add_of_range _ _ (by lia) (by lia), toInt_add_of_range _ _ (by lia) (by lia)]
  lia

/-- The buffer that `xmalloc` takes. -/
def System.offered (s : System) (pid : Nat) (poolid : Int) (size : Int32) : Hold :=
  ⟨pid, (s.buftab poolid).bpnext + 4, poolid, s.home poolid, some size⟩

/-- The system after an `xmalloc` that did not wait. -/
def System.granted (s : System) (kernel : Kernel Point) (pid : Nat) (poolid : Int) (size : Int32) : System :=
  (xmallocRest ({ s with kernel := kernel }.taken pid poolid (some size)) pid poolid
    ((s.buftab poolid).bpnext + 4) size).2

theorem heldOf_granted (kernel : Kernel Point) (other : Int) :
    (s.granted kernel pid poolid size).heldOf other =
      if poolid = other then s.offered pid poolid size :: s.heldOf other else s.heldOf other := by
  have held : (s.granted kernel pid poolid size).held = s.offered pid poolid size :: s.held := rfl
  unfold System.heldOf
  rw [held, List.filter_cons]
  simp only [decide_eq_true_eq]
  rfl

/-- The buffer has the requested size in its last word, and the others keep theirs. -/
theorem Stock.marked_granted (stock : Stock count s) {kernel : Kernel Point}
    (law : Law (s.granted kernel pid poolid size) none) (current : s.Current poolid)
    (positive : 0 < size.toInt) (fits : size.toInt ≤ (s.bufsize poolid).toInt) :
    ∀ hold ∈ (s.granted kernel pid poolid size).held,
      ∃ size_, hold.Marked (s.granted kernel pid poolid size) size_ := by
  have pool := stock.law.pools poolid current
  have wide := pool.shape.wide
  have bpsize : (({ s with kernel := kernel }.taken pid poolid (some size)).buftab poolid).bpsize =
      (s.home poolid).size := by
    rw [← pool.size]
    simp [System.taken, System.setNext, System.setWord]
  have memory : (s.granted kernel pid poolid size).memory =
      store (store s.memory (s.buftab poolid).bpnext (Int32.ofInt poolid).toUInt32)
        ((s.buftab poolid).bpnext + 4 + (s.home poolid).size - 4) size.toUInt32 := by
    rw [← bpsize]
    rfl
  have apart := (List.pairwise_cons.mp law.held_apart).1
  intro hold member
  rcases List.mem_cons.mp member with rfl | old
  · refine ⟨size, rfl, positive, fits, ?_⟩
    rw [memory]
    exact load_store_same
  · obtain ⟨size_, marked⟩ := stock.marked hold old
    refine ⟨size_, marked.congr rfl rfl ?_⟩
    have separated : (s.offered pid poolid size).Apart hold := apart hold old
    have oldPool := stock.law.pools _ (stock.law.homes hold old)
    have isHome := (oldPool.headers hold (mem_heldOf.mpr ⟨old, rfl⟩)).1
    have oldWide := oldPool.shape.wide
    unfold Hold.Apart System.offered Hold.block at separated
    rw [isHome] at separated
    dsimp only at separated
    rw [memory, load_store_apart (by lia), load_store_apart (by lia)]

/-- The allocator after such an `xmalloc`. -/
theorem Stock.granted (stock : Stock count s) {kernel : Kernel Point}
    (law : Law (s.granted kernel pid poolid size) none) (process : kernel.process = s.kernel.process)
    (current : s.Current poolid) (positive : 0 < size.toInt)
    (fits : size.toInt ≤ (s.bufsize poolid).toInt) : Stock count (s.granted kernel pid poolid size) := by
  refine stock.restock law rfl rfl rfl rfl (fun this point here => ?_)
    (stock.marked_granted law current positive fits) (fun other otherCurrent => ?_)
  · rw [← process]
    exact at_of_update here
  · rw [heldOf_granted]
    rcases eq_or_ne poolid other with rfl | apart
    · obtain ⟨buffers, bytes⟩ := stock.raised current positive fits
      have allocBf : (s.granted kernel pid poolid size).allocBf poolid = s.allocBf poolid + 1 :=
        Function.update_self _ _ _
      have allocBy : (s.granted kernel pid poolid size).allocBy poolid = s.allocBy poolid + size :=
        Function.update_self _ _ _
      rw [if_pos rfl, allocBf, allocBy]
      refine ⟨buffers, bytes, fun _ => ?_⟩
      unfold System.Agrees
      rw [allocBf, allocBy]
      exact Function.update_self _ _ _
    · have away : other ≠ poolid := apart.symm
      have allocBf : (s.granted kernel pid poolid size).allocBf other = s.allocBf other :=
        Function.update_of_ne away _ _
      have allocBy : (s.granted kernel pid poolid size).allocBy other = s.allocBy other :=
        Function.update_of_ne away _ _
      have fragmBy : (s.granted kernel pid poolid size).fragmBy other = s.fragmBy other :=
        Function.update_of_ne away _ _
      rw [if_neg apart, allocBf, allocBy]
      refine ⟨stock.buffers other otherCurrent, stock.bytes other otherCurrent, fun used => ?_⟩
      have agrees := stock.agrees other otherCurrent used
      unfold System.Agrees at agrees ⊢
      rw [allocBf, allocBy, fragmBy]
      exact agrees

/-- `xmalloc` takes the first free buffer of the chosen pool. -/
theorem Stock.getbufWait (stock : Stock count s) (idle : s.kernel.process pid = .idle)
    (current : s.Current poolid) (fits : size.toInt ≤ (s.bufsize poolid).toInt)
    (positive : 0 < size.toInt) (someFree : (s.buftab poolid).bpnext ≠ 0) :
    ∃ after, getbufWait s pid poolid (some size) =
        some (some (((s.buftab poolid).bpnext + 4 : Nat) : Int), after) ∧ Stock count after ∧
      after.held = s.offered pid poolid size :: s.held := by
  have pool := stock.law.pools poolid current
  have positiveCount : 0 < (s.kernel.semtab (s.home poolid).sem).scount := by
    obtain ⟨free, chain, _, count⟩ := stock.lists current
    cases free with
    | nil => exact absurd chain someFree
    | cons block rest =>
      rw [List.length_cons] at count
      omega
  obtain ⟨kernel, ⟨_, blocked, _⟩ | ⟨process, result, _, law⟩⟩ :=
    stock.law.wait current idle (some size)
  · obtain ⟨_, passed⟩ | ⟨none_, _⟩ :=
      @wait_cases _ s.kernel pid (.taking poolid (s.home poolid) (some size)) _ pool.valid
    · cases passed.symm.trans blocked
    · omega
  obtain ⟨takes, lawTaken⟩ := @Law.take { s with kernel := kernel } poolid pid (some size) law current
  have stillIdle : kernel.process pid = .idle := by rw [process, idle]
  obtain ⟨lawAfter, _⟩ := lawTaken.xmallocRest List.mem_cons_self stillIdle size
  refine ⟨s.granted kernel pid poolid size, ?_, ?_, rfl⟩
  · unfold BufferPools.getbufWait
    dsimp only
    rw [pool.sem, result]
    dsimp only
    unfold BufferPools.getbufRest
    rw [takes]
    rfl
  · exact stock.granted lawAfter process current positive fits

theorem Stock.place (stock : Stock count s) (idle : s.kernel.process pid = .idle) : Stock count (s.place pid .idle) :=
  stock.restock (stock.law.placeIdle idle) rfl rfl rfl rfl (fun _ _ here => at_of_update here)
    (fun hold member => (stock.marked hold member).imp fun _ marked => marked.congr rfl rfl rfl)
    fun poolid current =>
      ⟨stock.buffers poolid current, stock.bytes poolid current, stock.agrees poolid current⟩

/-- `xmalloc` of a size that no pool can hold, or whose pool is empty, or else. -/
theorem Stock.xmalloc (stock : Stock count s) (idle : s.kernel.process pid = .idle) (size : Int32) :
    (xmalloc s pid size = some (some null, s.place pid .idle) ∧ (size.toInt < 1 ∨
      (s.bufsize (s.nbpools - 1)).toInt < size.toInt ∨ count < 1 ∨
        ∃ poolid, s.Chosen size poolid ∧ (s.buftab poolid).bpnext = 0)) ∨
    ∃ poolid after, s.Chosen size poolid ∧ 0 < size.toInt ∧ (s.buftab poolid).bpnext ≠ 0 ∧
      xmalloc s pid size = some (some (((s.buftab poolid).bpnext + 4 : Nat) : Int), after) ∧ Stock count after ∧
      after.held = s.offered pid poolid size :: s.held := by
  unfold BufferPools.xmalloc
  split
  case isTrue outside => exact Or.inl ⟨rfl, by omega⟩
  case isFalse inside =>
    have pools := stock.whole
    dsimp only
    by_cases none_ : count < 1
    · left
      refine ⟨?_, Or.inr (Or.inr (Or.inl none_))⟩
      split
      · rfl
      · split
        · rfl
        · rw [if_pos (by lia)]
    have chosen := @Stock.closest s count stock size (by omega) (by omega) (by omega)
    have current := chosen.current
    rw [if_neg (by unfold syserr; have := current.1; omega)]
    split
    case isTrue empty => exact Or.inl ⟨rfl, Or.inr (Or.inr (Or.inr ⟨_, chosen, empty⟩))⟩
    case isFalse someFree =>
      rw [if_neg (by have := current.1; have := current.2; lia)]
      obtain ⟨after, result, stockAfter, held⟩ :=
        stock.getbufWait idle current chosen.fits (by omega) someFree
      exact Or.inr ⟨_, after, chosen, by omega, someFree, result, stockAfter, held⟩

theorem Chosen.unique {other : Int} (chosen : s.Chosen size poolid) (also : s.Chosen size other) :
    poolid = other := by
  rcases lt_trichotomy poolid other with below | same | above
  · exact absurd (also.least poolid chosen.current.1 below) (not_lt.mpr chosen.fits)
  · exact same
  · exact absurd (chosen.least other also.current.1 above) (not_lt.mpr also.fits)

/-- The statistics of a pool with one buffer less. -/
theorem Stock.lowered (stock : Stock count s) (member : hold ∈ s.held) (marked : hold.Marked s size) :
    (s.allocBf hold.poolid - 1).toInt =
      ((s.heldOf hold.poolid).filter fun other => other.pointer ≠ hold.pointer).length ∧
    (s.allocBy hold.poolid - size).toInt =
      (((s.heldOf hold.poolid).filter fun other => other.pointer ≠ hold.pointer).map Hold.asked).sum := by
  have current := stock.law.homes hold member
  have pool := stock.law.pools hold.poolid current
  obtain ⟨low, high, some_, product, _⟩ := initSize_bounds current.1 (stock.inside current)
  obtain ⟨free, _, _, perm, _⟩ := pool.lists
  have distinct := (List.nodup_append.mp (perm.nodup_iff.mpr pool.nodup)).2.1
  have removed := perm_filter_pointer distinct (mem_heldOf.mpr ⟨member, rfl⟩)
  have length := removed.length_eq
  have sum := (removed.map Hold.asked).sum_eq
  rw [List.length_cons] at length
  rw [List.map_cons, List.sum_cons, marked.asked] at sum
  have buffers := stock.buffers _ current
  have bytes := stock.bytes _ current
  have most := stock.held_le current
  obtain ⟨sumLow, sumHigh⟩ := stock.asked current
  have sumBound : (initSize hold.poolid).toInt * ((s.heldOf hold.poolid).length : Int) ≤
      (initSize hold.poolid).toInt * (initNumb hold.poolid).toInt :=
    Int.mul_le_mul_of_nonneg_left most (by lia)
  have numbBound : (initNumb hold.poolid).toInt ≤
      (initSize hold.poolid).toInt * (initNumb hold.poolid).toInt :=
    le_mul_of_one_le_left (by lia) (by lia)
  have positive := marked.positive
  have fits := marked.fits
  rw [(stock.laid _ current).bufsize] at fits
  have one : (1 : Int32).toInt = 1 := rfl
  rw [toInt_sub_of_range _ _ (by lia) (by lia), toInt_sub_of_range _ _ (by lia) (by lia)]
  lia

/-- The system after an `xfree` that made no process ready. -/
def System.released (s : System) (kernel : Kernel Point) (pid : Nat) (hold : Hold) (size : Int32) : System :=
  (xfreeRest { s.putBack hold.poolid hold.pointer with kernel := kernel } pid hold.poolid size).2

theorem heldOf_released (kernel : Kernel Point) (other : Int) :
    (s.released kernel pid hold size).heldOf other =
      (s.heldOf other).filter fun held => held.pointer ≠ hold.pointer :=
  heldOf_putBack hold.poolid other hold.pointer

/-- Another buffer in use has another address. -/
theorem Stock.pointer_inj (stock : Stock count s) (member : hold ∈ s.held) {other : Hold}
    (otherMember : other ∈ s.held) (same : other.pointer = hold.pointer) : other = hold := by
  by_contra apart
  have separated := stock.law.separated otherMember member apart
  lia

/-- The allocator after such an `xfree`. -/
theorem Stock.released (stock : Stock count s) {kernel : Kernel Point}
    (law : Law (s.released kernel pid hold size) none) (process : kernel.process = s.kernel.process)
    (member : hold ∈ s.held) (marked : hold.Marked s size) : Stock count (s.released kernel pid hold size) := by
  refine stock.restock law rfl rfl rfl rfl (fun this point here => ?_) (fun other inUse => ?_)
    (fun other otherCurrent => ?_)
  · rw [← process]
    exact at_of_update here
  · obtain ⟨old, away⟩ := List.mem_filter.mp inUse
    obtain ⟨size_, otherMarked⟩ := stock.marked other old
    refine ⟨size_, otherMarked.congr rfl rfl ?_⟩
    have distinct : other ≠ hold := by
      rintro rfl
      simp at away
    have separated := stock.law.separated old member distinct
    have wide := (stock.law.pools _ (stock.law.homes hold member)).shape.wide
    have otherWide := (stock.law.pools _ (stock.law.homes other old)).shape.wide
    exact load_store_apart (by lia)
  · rw [heldOf_released]
    rcases eq_or_ne other hold.poolid with rfl | away
    · obtain ⟨buffers, bytes⟩ := stock.lowered member marked
      have allocBf : (s.released kernel pid hold size).allocBf hold.poolid = s.allocBf hold.poolid - 1 :=
        Function.update_self _ _ _
      have allocBy : (s.released kernel pid hold size).allocBy hold.poolid = s.allocBy hold.poolid - size :=
        Function.update_self _ _ _
      rw [allocBf, allocBy]
      refine ⟨buffers, bytes, fun _ => ?_⟩
      unfold System.Agrees
      rw [allocBf, allocBy]
      exact Function.update_self _ _ _
    · have kept : (s.heldOf other).filter (fun held => held.pointer ≠ hold.pointer) = s.heldOf other := by
        refine List.filter_eq_self.mpr fun held inUse => ?_
        obtain ⟨heldMember, rfl⟩ := mem_heldOf.mp inUse
        rw [decide_eq_true_eq]
        intro same
        exact away (congrArg Hold.poolid (stock.pointer_inj member heldMember same))
      have allocBf : (s.released kernel pid hold size).allocBf other = s.allocBf other :=
        Function.update_of_ne away _ _
      have allocBy : (s.released kernel pid hold size).allocBy other = s.allocBy other :=
        Function.update_of_ne away _ _
      have fragmBy : (s.released kernel pid hold size).fragmBy other = s.fragmBy other :=
        Function.update_of_ne away _ _
      rw [kept, allocBf, allocBy]
      refine ⟨stock.buffers other otherCurrent, stock.bytes other otherCurrent, fun used => ?_⟩
      have agrees := stock.agrees other otherCurrent used
      unfold System.Agrees at agrees ⊢
      rw [allocBf, allocBy, fragmBy]
      exact agrees

/-- `xfree` of a buffer in use. -/
theorem Stock.xfree (stock : Stock count s) (idle : s.kernel.process pid = .idle) (member : hold ∈ s.held) :
    ∃ after, xfree s pid hold.pointer = (some null, after) ∧ Stock count after ∧
      after.held = s.held.filter fun other => other.pointer ≠ hold.pointer := by
  obtain ⟨size, marked⟩ := stock.marked hold member
  have current := stock.law.homes hold member
  have pool := stock.law.pools hold.poolid current
  have positive := (pool.block_pos (pool.inBlocks (mem_heldOf.mpr ⟨member, rfl⟩))).1
  have read : (load s.memory (hold.pointer + (s.buftab hold.poolid).bpsize - 4)).toInt32 = size := by
    rw [pool.size, marked.mark]
    rfl
  have sem : ((s.putBack hold.poolid hold.pointer).buftab hold.poolid).bpsem = (s.home hold.poolid).sem := by
    rw [← pool.sem]
    simp [System.putBack, System.setNext, System.setWord]
  obtain ⟨free, _, _, count⟩ := stock.lists current
  have law := (@Law.freebufSignal s pid hold (.xfreeEnd hold.poolid size) stock.law member idle rfl).1
  obtain ⟨_, signalled⟩ | ⟨low, _⟩ := signal_cases stock.law.sems pool.valid
  · have result : freebufSignal s pid hold.poolid hold.pointer (.xfreeEnd hold.poolid size) =
        (some null, s.released (s.kernel.setSem (s.home hold.poolid).sem
          { s.kernel.semtab (s.home hold.poolid).sem with
            scount := (s.kernel.semtab (s.home hold.poolid).sem).scount + 1 }) pid hold size) := by
      unfold BufferPools.freebufSignal
      dsimp only
      have kernel : (s.putBack hold.poolid hold.pointer).kernel = s.kernel := rfl
      rw [sem, kernel, signalled]
      rfl
    rw [result] at law
    refine ⟨_, ?_, stock.released law rfl member marked, rfl⟩
    unfold BufferPools.xfree
    rw [if_neg (by unfold Hold.block at positive; omega)]
    dsimp only
    rw [stock.law.header_eq member, if_neg (by have := current.1; have := current.2; lia), read, result]
  · omega

/-- A client writes into the bytes that it asked for. -/
theorem Stock.write (stock : Stock count s) (member : hold ∈ s.held) (marked : hold.Marked s size)
    {address : Nat} (low : hold.pointer ≤ address) (high : (address : Int) < hold.pointer + size.toInt)
    (byte : UInt8) : Stock count { s with memory := Function.update s.memory address byte } := by
  have current := stock.law.homes hold member
  have laid := stock.laid _ current
  have fits := marked.fits
  have room := laid.size
  rw [laid.bufsize] at fits
  have same : ∀ place, place < hold.pointer ∨ hold.pointer + (s.home hold.poolid).size ≤ place →
      Function.update s.memory address byte place = s.memory place := by
    intro place outside
    exact Function.update_of_ne (by lia) _ _
  refine stock.restock (stock.law.scribble member same) rfl rfl rfl rfl (fun _ _ here => here)
    (fun other inUse => ?_) (fun poolid isCurrent => ⟨stock.buffers poolid isCurrent,
      stock.bytes poolid isCurrent, stock.agrees poolid isCurrent⟩)
  obtain ⟨size_, otherMarked⟩ := stock.marked other inUse
  refine ⟨size_, otherMarked.congr rfl rfl (load_congr fun k below => Function.update_of_ne ?_ _ _)⟩
  rcases eq_or_ne other hold with rfl | apart
  · omega
  · have separated := stock.law.separated inUse member apart
    have otherWide := (stock.law.pools _ (stock.law.homes other inUse)).shape.wide
    lia

end Steps

/-- The calls and writes of clients: buffers in use are given back, and bytes that were asked for
are written. -/
def Client (s : System) : Move → Prop
  | .call _ (.xmalloc _) => True
  | .call _ (.xfree bufaddr) => ∃ hold ∈ s.held, hold.pointer = bufaddr
  | .write address _ => ∃ hold ∈ s.held, hold.pointer ≤ address ∧ (address : Int) < hold.pointer + hold.asked
  | _ => False

section Runs

variable {s after : System} {count : Int} {pid : Nat} {reply : Option Int} {move : Move}

/-- The new pools are unknown to the processes that were inside of `getbuf`. -/
theorem lasting_serial (bound : Nat) : Lasting fun s => Base s ∧ bound ≤ s.made ∧
    ∀ poolid, s.Current poolid → bound ≤ (s.home poolid).serial := by
  refine ⟨fun _ holds => holds.1, fun s heap kernel pool ⟨base, made, serials⟩ grows => ?_,
    fun s heap kernel buftab ⟨base, made, serials⟩ wastes => ⟨base.wasted wastes, made, serials⟩⟩
  refine ⟨base.grown grows, Nat.le_succ_of_le made, fun poolid current => ?_⟩
  rcases grown_current current with rfl | ⟨old, isOld⟩
  · rw [grown_new, grows.serial]
    exact made
  · rw [grown_old isOld]
    exact serials poolid old

/-- `xmalloc_init` that makes some of its pools. -/
theorem Base.stock (base : Base s) (made : BufferPools.xmallocInit s = some after) :
    Stock after.nbpools after := by
  obtain ⟨made_, same, law, extended, most, fits⟩ := base.xmallocInit
  obtain rfl : after = made_ := Option.some.inj (made.symm.trans same)
  obtain ⟨again_, again, ⟨_, _, serials⟩, _⟩ := (lasting_serial s.made).makePools poolnum.toNat 0
    ⟨base.forgotten.toBase, le_refl s.made, fun poolid current => by
      have none_ : poolid < 0 := current.2
      have := current.1
      omega⟩
  obtain rfl : after = again_ := Option.some.inj (made.symm.trans again)
  have unused : after.held = [] := extended.held
  have noneHeld : ∀ poolid, after.heldOf poolid = [] := by
    intro poolid
    unfold System.heldOf
    rw [unused]
    rfl
  have inside : ∀ poolid, after.Current poolid → 0 ≤ poolid ∧ poolid < poolnum := by
    rintro poolid ⟨from_, to_⟩
    exact ⟨from_, to_.trans_le most⟩
  refine ⟨law, rfl, most, fun this poolid request current here => ?_, fun poolid current => ?_,
    fun hold member => ?_, fun poolid current => ?_, fun poolid current => ?_, fun poolid current used => ?_⟩
  · rw [extended.process] at here
    have older := base.past this _ here (after.home poolid) rfl
    have newer := serials poolid current
    lia
  · obtain ⟨from_, to_⟩ := inside poolid current
    obtain ⟨index, rfl⟩ := Int.eq_ofNat_of_zero_le from_
    obtain ⟨size, number⟩ := fits index current.2
    obtain ⟨_, _, _, _, rounded⟩ := initSize_bounds from_ to_
    refine ⟨?_, ?_, ?_, number⟩
    · rw [extended.bufsize]
      exact if_pos ⟨from_, to_⟩
    · rw [extended.bufnumb]
      exact if_pos ⟨from_, to_⟩
    · rw [size]
      exact rounded
  · rw [unused] at member
    cases member
  · rw [extended.allocBf, noneHeld poolid]
    exact congrArg Int32.toInt (if_pos (inside poolid current))
  · rw [extended.allocBy, noneHeld poolid]
    exact congrArg Int32.toInt (if_pos (inside poolid current))
  · exact absurd (noneHeld poolid) used

/-- Every call of a client is over in one step, and keeps the allocator. -/
theorem Stock.step (stock : Stock count s) (enabled : Enabled s move) (client : Client s move) :
    ∃ reply after, BufferPools.step s move = some (reply, after) ∧ Stock count after := by
  unfold Client at client
  split at client
  case h_1 pid size =>
    have idle : s.kernel.process pid = .idle := enabled
    obtain ⟨result, _⟩ | ⟨poolid, after, _, _, _, result, stockAfter, _⟩ := stock.xmalloc idle size
    · exact ⟨_, _, (if_pos idle).trans result, stock.place idle⟩
    · exact ⟨_, after, (if_pos idle).trans result, stockAfter⟩
  case h_2 pid bufaddr =>
    have idle : s.kernel.process pid = .idle := enabled
    obtain ⟨hold, member, rfl⟩ := client
    obtain ⟨after, result, stockAfter, _⟩ := stock.xfree idle member
    exact ⟨_, after, (if_pos idle).trans (congrArg some result), stockAfter⟩
  case h_3 address byte =>
    obtain ⟨hold, member, low, high⟩ := client
    obtain ⟨size, marked⟩ := stock.marked hold member
    rw [marked.asked] at high
    exact ⟨_, _, rfl, stock.write member marked low high byte⟩
  case h_4 => cases client

theorem stock_preserved (before : System) (move : Move) (reply : Option Int) (after : System)
    (stock : Stock count before) (client : Client before move)
    (completed : step before move = some (reply, after)) : Stock count after := by
  obtain ⟨_, _, result, stockAfter⟩ := stock.step (enabled_of_step completed) client
  obtain ⟨_, rfl⟩ := Prod.mk.inj (Option.some.inj (result.symm.trans completed))
  exact stockAfter

/-- The statistics of a pool that was used once agree from then on. -/
theorem agrees_kept (poolid : Int) (before : System) (move : Move) (reply : Option Int) (after : System)
    (holds : Stock count before ∧ before.Agrees poolid) (client : Client before move)
    (completed : step before move = some (reply, after)) : Stock count after ∧ after.Agrees poolid := by
  refine ⟨stock_preserved before move reply after holds.1 client completed, ?_⟩
  refine ((holds.1.law.toBase.step completed).2 ?_).agrees holds.2
  rintro pid rfl
  exact client

/-- The bytes that are lost in a pool, without overflow. -/
theorem Stock.fragmented (stock : Stock count s) {poolid : Int} (current : s.Current poolid)
    (agrees : s.Agrees poolid) :
    (s.fragmBy poolid).toInt =
      (s.bufsize poolid).toInt * (s.allocBf poolid).toInt - (s.allocBy poolid).toInt ∧
    0 ≤ (s.fragmBy poolid).toInt := by
  obtain ⟨low, high, some_, product, _⟩ := initSize_bounds current.1 (stock.inside current)
  have buffers := stock.buffers poolid current
  have bytes := stock.bytes poolid current
  obtain ⟨sumLow, sumHigh⟩ := stock.asked current
  have sumBound : (initSize poolid).toInt * ((s.heldOf poolid).length : Int) ≤
      (initSize poolid).toInt * (initNumb poolid).toInt :=
    Int.mul_le_mul_of_nonneg_left (stock.held_le current) (by lia)
  have multiplied : (s.bufsize poolid * s.allocBf poolid).toInt =
      (initSize poolid).toInt * (s.heldOf poolid).length := by
    rw [(stock.laid poolid current).bufsize, Int32.toInt_mul, buffers]
    exact Int.bmod_eq_of_le (by lia) (by lia)
  unfold System.Agrees at agrees
  rw [agrees, toInt_sub_of_range _ _ (by lia) (by lia), multiplied,
    (stock.laid poolid current).bufsize, buffers, bytes]
  lia

end Runs

/-- The books of a pool: the statistics count the buffers in use and the bytes asked for, and the
others are free, as many as the semaphore says. -/
structure Booked (s : System) (poolid : Int) : Prop where
  buffers : (s.allocBf poolid).toInt = (s.heldOf poolid).length
  bytes : (s.allocBy poolid).toInt = ((s.heldOf poolid).map Hold.asked).sum
  free : ∃ free : List Nat, Chain s.memory (s.buftab poolid).bpnext free ∧ free.Nodup ∧
    (free.length : Int) = (s.bufnumb poolid).toInt - (s.allocBf poolid).toInt ∧
    (free.length : Int) = (s.kernel.semtab (s.buftab poolid).bpsem).scount

/-- What `xmalloc` answers: `NULL` exactly for a size that no pool can hold and for an empty pool,
else a new buffer of the smallest pool that can hold the size. It never waits. -/
structure Answered (before after : System) (size : Int32) (reply : Option Int) : Prop where
  refused : reply = some null ↔ ¬ (1 ≤ size.toInt ∧ size.toInt ≤ 8188) ∨
    ∃ poolid, before.Chosen size poolid ∧ (before.buftab poolid).bpnext = 0
  granted : reply ≠ some null → ∃ hold, after.held = hold :: before.held ∧
    reply = some (hold.pointer : Int) ∧ hold.request = some size ∧ before.Chosen size hold.poolid

section Books

variable {s after : System} {poolid count : Int} {pid : Nat} {size : Int32} {reply : Option Int}

theorem Stock.booked (stock : Stock count s) (current : s.Current poolid) : Booked s poolid := by
  have pool := stock.law.pools poolid current
  have laid := stock.laid poolid current
  have number := laid.number
  have buffers := stock.buffers poolid current
  obtain ⟨free, chain, perm, count⟩ := stock.lists current
  have length := perm.length_eq
  rw [List.length_append, List.length_map, Pool.blocks, length_cells] at length
  refine ⟨buffers, stock.bytes poolid current, free, chain, ?_, ?_, ?_⟩
  · exact (List.nodup_append.mp (perm.nodup_iff.mpr pool.nodup)).1
  · rw [laid.bufnumb]
    lia
  · rw [pool.sem]
    exact count

/-- Every `xmalloc` is answered. -/
theorem Stock.answered (stock : Stock poolnum s) (completed : BufferPools.xmalloc s pid size = some (reply, after))
    (idle : s.kernel.process pid = .idle) : Answered s after size reply := by
  have ten : s.nbpools = 10 := stock.whole
  have largest : (s.bufsize (s.nbpools - 1)).toInt = 8188 := by
    rw [(stock.laid _ ⟨by omega, by omega⟩).bufsize, ten]
    rfl
  obtain ⟨result, reason⟩ | ⟨poolid, _, chosen, positive, someFree, result, _, held⟩ :=
    stock.xmalloc idle size
  · obtain ⟨rfl, rfl⟩ := Prod.mk.inj (Option.some.inj (result.symm.trans completed))
    refine ⟨iff_of_true rfl ?_, fun other => absurd rfl other⟩
    obtain small | large | none_ | empty := reason
    · exact Or.inl (by omega)
    · exact Or.inl (by omega)
    · exact absurd none_ (by decide)
    · exact Or.inr empty
  · obtain ⟨rfl, rfl⟩ := Prod.mk.inj (Option.some.inj (result.symm.trans completed))
    refine ⟨iff_of_false ?_ ?_, fun _ => ⟨_, held, rfl, rfl, chosen⟩⟩
    · intro isNull
      have zero : (((s.buftab poolid).bpnext + 4 : Nat) : Int) = 0 := Option.some.inj isNull
      omega
    · rintro (outside | ⟨other, also, empty⟩)
      · have fits := chosen.fits
        rw [(stock.laid poolid chosen.current).bufsize] at fits
        have most := (initSize_bounds chosen.current.1 (stock.inside chosen.current)).2.1
        lia
      · rw [Chosen.unique also chosen] at empty
        exact someFree empty

end Books

/-- After any run and an `xmalloc_init` that made all of its pools, for all calls of clients. -/
theorem allocator_stays_sound (heap : HeapMemory.Kernel) (memory : Memory) (used : Int → Processes.Sstate)
    (started : HeapStarted heap) (early events : List (Event System Move (Option Int)))
    (before first last : System) (begun : Run step (boot heap memory used) early before) (pid : Nat)
    (reply : Option Int) (initialised : step before (.call pid .xmallocInit) = some (reply, first))
    (whole : first.nbpools = poolnum) (run : Run step first events last) (met : Meets Client events) :
    (∀ move, Enabled last move → Client last move → ∃ reply after, step last move = some (reply, after)) ∧
    last.held.Pairwise (fun hold other => hold.pointer + hold.home.size ≤ other.pointer ∨
      other.pointer + other.home.size ≤ hold.pointer) ∧
    (∀ hold ∈ last.held, ∃ size, hold.request = some size ∧ 0 < size.toInt ∧ size.toInt ≤ hold.home.size) ∧
    (∀ poolid, last.Current poolid → Booked last poolid ∧
      ((∃ event ∈ events, event.after.heldOf poolid ≠ []) →
        (last.fragmBy poolid).toInt = (last.bufsize poolid).toInt * (last.allocBf poolid).toInt -
          (last.allocBy poolid).toInt ∧ 0 ≤ (last.fragmBy poolid).toInt)) ∧
    ∀ event ∈ events, ∀ pid size, event.call = .call pid (.xmalloc size) →
      Answered event.before event.after size event.reply := by
  have base : Base before := invariant_last Base (fun _ _ => True)
    (fun _ _ _ _ base _ completed => (base.step completed).1) _ _ _ begun (boot_calm started).law.toBase
    fun _ _ => trivial
  have initial : Stock poolnum first := by
    have idle : before.kernel.process pid = .idle := enabled_of_step initialised
    have called := (if_pos idle).symm.trans initialised
    obtain ⟨_, made, same⟩ := Option.map_eq_some_iff.mp called
    obtain ⟨_, rfl⟩ := Prod.mk.inj same
    exact whole ▸ base.stock made
  have stock := invariant_last (Stock poolnum) Client stock_preserved _ _ _ run initial met
  have steps := invariant_events (Stock poolnum) Client stock_preserved _ _ _ run initial met
  refine ⟨fun move enabled client => ?_, ?_, fun hold member => ?_,
    fun poolid current => ⟨stock.booked current, ?_⟩, fun event member pid size isCall => ?_⟩
  · obtain ⟨reply, after, completed, _⟩ := stock.step enabled client
    exact ⟨reply, after, completed⟩
  · refine stock.law.held_apart.imp fun {hold other} apart => ?_
    unfold Hold.Apart Hold.block at apart
    omega
  · obtain ⟨size, marked⟩ := stock.marked hold member
    have current := stock.law.homes hold member
    have isHome := ((stock.law.pools _ current).headers hold (mem_heldOf.mpr ⟨member, rfl⟩)).1
    have laid := stock.laid _ current
    have fits := marked.fits
    have room := laid.size
    rw [laid.bufsize] at fits
    refine ⟨size, marked.request, marked.positive, ?_⟩
    rw [isHome]
    omega
  · rintro ⟨event, member, inUse⟩
    obtain ⟨_, stockAfter, _⟩ := steps event member
    have wasCurrent : event.after.Current poolid := ⟨current.1, stockAfter.whole ▸ stock.whole ▸ current.2⟩
    obtain ⟨_, agrees⟩ := established_last _ Client (agrees_kept poolid) _ _ _ run met event member
      ⟨stockAfter, stockAfter.agrees poolid wasCurrent inUse⟩
    exact stock.fragmented current agrees
  · obtain ⟨stockBefore, _, completed⟩ := steps event member
    rw [isCall] at completed
    have idle : event.before.kernel.process pid = .idle := enabled_of_step completed
    exact stockBefore.answered ((if_pos idle).symm.trans completed) idle

/-- An executable form of the condition. -/
def System.client (s : System) : Move → Bool
  | .call _ (.xmalloc _) => true
  | .call _ (.xfree bufaddr) => s.held.any fun hold => hold.pointer = bufaddr
  | _ => false

theorem client_of_client {s : System} {move : Move} (client : s.client move = true) : Client s move := by
  unfold Client
  split
  case h_1 => trivial
  case h_2 => simpa [System.client] using client
  case h_3 | h_4 => simp [System.client] at client

/-- Two requests of 5 and of 3000 bytes after `xmalloc_init`, of which the first is given back. -/
theorem allocator_books_two_requests : ∃ first events last,
    step (boot (freshHeap 8 (2 ^ 24)) (fun _ => 0) (fun _ => .free)) (.call 1 .xmallocInit) =
      some (some null, first) ∧ Run step first events last ∧
    events.length = 3 ∧ last.held.length = 1 ∧ last.fragmBy 0 = 0 ∧
    Booked last 8 ∧ (last.fragmBy 8).toInt = (last.bufsize 8).toInt * (last.allocBf 8).toInt -
      (last.allocBy 8).toInt := by
  obtain ⟨events, last, run, checked⟩ := trace_exists step
    (boot (freshHeap 8 (2 ^ 24)) (fun _ => 0) (fun _ => .free))
    [.call 1 .xmallocInit, .call 1 (.xmalloc 5), .call 2 (.xmalloc 3000), .call 1 (.xfree 12)]
    (fun events last => decide (last.held.length = 1 ∧ last.fragmBy 0 = 0 ∧ last.nbpools = poolnum ∧
      events.length = 4 ∧ (∀ event ∈ events.take 1, event.call = .call 1 .xmallocInit ∧
        event.reply = some null ∧ event.after.nbpools = poolnum) ∧
      (∀ event ∈ events.drop 1, event.before.client event.call = true) ∧
      ∃ event ∈ events.drop 1, ∃ hold ∈ event.after.held, hold.poolid = 8)) (by decide +kernel)
  obtain ⟨one, none_, ten, four, isInit, clients, event, member, hold, inUse, poolid⟩ :=
    of_decide_eq_true checked
  cases run with
  | done => cases four
  | taken _ call reply first _ rest completed tail =>
    obtain ⟨isCall, isNull, whole⟩ := isInit _ List.mem_cons_self
    dsimp only at isCall isNull whole
    rw [isCall, isNull] at completed
    obtain ⟨_, _, _, pools, _⟩ := allocator_stays_sound _ _ _ (freshHeap_started (by decide) (by decide)
      (by decide) (by decide) (by decide)) [] rest _ first last (.done _) 1 (some null) completed whole tail
      fun event member => client_of_client (clients event member)
    obtain ⟨booked, fragmented⟩ := pools 8 ⟨by decide, ten ▸ by decide⟩
    refine ⟨first, rest, last, completed, tail, by simpa using four, one, none_, booked, ?_⟩
    refine (fragmented ⟨event, member, ?_⟩).1
    exact List.ne_nil_of_mem (mem_heldOf.mpr ⟨inUse, poolid⟩)

end Xinu.BufferPools
