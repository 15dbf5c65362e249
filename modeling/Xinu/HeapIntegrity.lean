import Xinu.HeapRelease

/-!
# The heap over whole runs

The kernel and its clients take and give back memory in any order, and write into the
blocks they hold. A block is given back with the pointer and the size with which it was
taken. The blocks in use are recorded beside the heap.

At every moment the free list is separated and tiles the heap together with the blocks in
use. A stack is therefore given back as exactly the range that was taken for it: the free
bytes are what the blocks in use leave of the heap.
-/

namespace Xinu.HeapMemory

open Intervals Runs

/-- What a block in use was taken with. -/
inductive Kind where
  | memory
  | stack
deriving DecidableEq

/-- A block in use: the pointer that was returned and the size that was asked for. -/
structure Grant where
  kind : Kind
  pointer : Nat
  requested : Nat
deriving DecidableEq

/-- Memory begins at its pointer. The pointer of a stack is its last word. -/
def Grant.range (grant : Grant) : Interval :=
  match grant.kind with
  | .memory => ⟨grant.pointer, roundmb grant.requested⟩
  | .stack => ⟨grant.pointer + 4 - roundmb grant.requested, roundmb grant.requested⟩

/-- The heap and the blocks in use. -/
structure Kernel where
  heap : Heap
  live : List Grant

/-- The calls, and what a client writes. -/
inductive Call where
  | getmem (nbytes : Nat)
  | getstk (nbytes : Nat)
  | freemem (blkaddr nbytes : Nat)
  | freestk (pointer length : Nat)
  | store (address : Nat) (contents : MemBlk)

/-- A new block in use. -/
def Kernel.granted (k : Kernel) (kind : Kind) (requested pointer : Nat) (h : Heap) : Kernel :=
  if pointer = syserr then ⟨h, k.live⟩ else ⟨h, ⟨kind, pointer, requested⟩ :: k.live⟩

/-- A block that was given back. -/
def Kernel.returned (k : Kernel) (grant : Grant) (reply : Nat) (h : Heap) : Kernel :=
  if reply = ok then ⟨h, k.live.erase grant⟩ else ⟨h, k.live⟩

/-- One call. -/
def step (k : Kernel) : Call → Option (Nat × Kernel)
  | .getmem nbytes => (getmem k.heap nbytes).map fun (pointer, h) =>
    (pointer, k.granted .memory nbytes pointer h)
  | .getstk nbytes => (getstk k.heap nbytes).map fun (pointer, h) =>
    (pointer, k.granted .stack nbytes pointer h)
  | .freemem blkaddr nbytes => (freemem k.heap blkaddr nbytes).map fun (reply, h) =>
    (reply, k.returned ⟨.memory, blkaddr, nbytes⟩ reply h)
  | .freestk pointer length => (freestk k.heap pointer length).map fun (reply, h) =>
    (reply, k.returned ⟨.stack, pointer, length⟩ reply h)
  | .store address contents => some (ok, ⟨k.heap.write contents (.block address), k.live⟩)

/-- Sizes that can be rounded are asked for, blocks in use are given back as they were
taken, and clients write into blocks in use. -/
def Allowed (k : Kernel) : Call → Prop
  | .getmem nbytes => 0 < nbytes ∧ nbytes ≤ 0xFFFFFFF8
  | .getstk nbytes => 0 < nbytes ∧ nbytes ≤ 0xFFFFFFF8
  | .freemem blkaddr nbytes => ⟨.memory, blkaddr, nbytes⟩ ∈ k.live
  | .freestk pointer length => ⟨.stack, pointer, length⟩ ∈ k.live
  | .store address _ => ∃ grant ∈ k.live, address ∈ grant.range.points

instance (interval : Interval) (address : Nat) : Decidable (address ∈ interval.points) :=
  inferInstanceAs (Decidable (interval.start ≤ address ∧ address < interval.stop))

instance (k : Kernel) (call : Call) : Decidable (Allowed k call) :=
  match call with
  | .getmem nbytes => inferInstanceAs (Decidable (0 < nbytes ∧ nbytes ≤ 0xFFFFFFF8))
  | .getstk nbytes => inferInstanceAs (Decidable (0 < nbytes ∧ nbytes ≤ 0xFFFFFFF8))
  | .freemem blkaddr nbytes => inferInstanceAs (Decidable (⟨.memory, blkaddr, nbytes⟩ ∈ k.live))
  | .freestk pointer length => inferInstanceAs (Decidable (⟨.stack, pointer, length⟩ ∈ k.live))
  | .store address _ =>
    inferInstanceAs (Decidable (∃ grant ∈ k.live, address ∈ grant.range.points))

/-- The bytes of the free blocks. -/
def Kernel.freeBytes (k : Kernel) : Set Nat :=
  {address | ∃ blocks, FreeList k.heap blocks ∧ address ∈ covered blocks}

/-- A block in use as it was taken. -/
structure Grant.Sound (grant : Grant) : Prop where
  someBytes : 0 < grant.requested
  small : grant.requested ≤ 0xFFFFFFF8
  aligned : 8 ∣ grant.range.start
  pointer : grant.kind = .stack → grant.pointer + 4 = grant.range.stop

/-- The invariant of all runs. -/
structure Kernel.Sound (low high : Nat) (k : Kernel) : Prop where
  heap : ∃ blocks, HeapMemory.Sound low high k.heap blocks (k.live.map Grant.range)
  grants : ∀ grant ∈ k.live, grant.Sound

section Steps

variable {low high : Nat} {k : Kernel}

theorem freeBytes_eq {h : Heap} {live : List Grant} {blocks : List Interval}
    (list : FreeList h blocks) : (Kernel.mk h live).freeBytes = covered blocks := by
  ext address
  constructor
  · rintro ⟨others, same, inside⟩
    rw [Chain.unique list same]
    exact inside
  · intro inside
    exact ⟨blocks, list, inside⟩

/-- The heap after `meminit`. -/
theorem sound_of_meminit (h : Heap) (first last : Nat) (someAddress : 0 < first)
    (ordered : first ≤ last) (inWord : last < 2 ^ 32) (firstAligned : 8 ∣ first)
    (lastAligned : 8 ∣ last) : Kernel.Sound first last ⟨meminit h first last, []⟩ := by
  have whole : (Interval.mk first (last - first)).stop = last := by
    unfold Interval.stop
    exact Nat.add_sub_cancel' ordered
  have points : (Interval.mk first (last - first)).points = Set.Ico first last := by
    rw [Interval.points, whole]
  have header : (meminit h first last).cells first = ⟨null, minus last first⟩ := by
    unfold meminit
    rw [setLength_setNext]
    exact Function.update_self ..
  refine ⟨⟨[⟨first, last - first⟩], someAddress, by lia, rfl, rfl, ?_, ?_, ?_, ?_⟩, by simp⟩
  · refine ⟨rfl, Nat.ne_of_gt someAddress, ?_, ?_⟩
    · exact (congrArg MemBlk.mlength header).trans (minus_of_le ordered inWord)
    · exact congrArg MemBlk.mnext header
  · exact List.pairwise_singleton _ _
  · intro block member
    rw [List.mem_singleton.mp member]
    exact ⟨Nat.le_refl _, Nat.le_of_eq whole, firstAligned, Nat.dvd_sub lastAligned firstAligned,
      Nat.sub_pos_of_lt⟩
  · refine ⟨List.pairwise_singleton _ _, ?_⟩
    rw [List.map_nil, List.append_nil, covered_cons, covered_nil, Set.union_empty, points]

/-- A block is taken: the free bytes become fewer by its range. -/
theorem Kernel.Sound.granted (sound : k.Sound low high) {h : Heap} {rest : List Interval}
    {grant : Grant} (grantSound : grant.Sound) (notError : grant.pointer ≠ syserr)
    (heap : HeapMemory.Sound low high h rest (grant.range :: k.live.map Grant.range)) :
    Kernel.Sound low high (k.granted grant.kind grant.requested grant.pointer h) ∧
      k.freeBytes = (k.granted grant.kind grant.requested grant.pointer h).freeBytes ∪
        grant.range.points ∧
      Disjoint (k.granted grant.kind grant.requested grant.pointer h).freeBytes
        grant.range.points := by
  obtain ⟨blocks, before⟩ := sound.heap
  have free : k.freeBytes = covered blocks := freeBytes_eq before.list
  unfold Kernel.granted
  rw [if_neg notError, freeBytes_eq heap.list, free]
  refine ⟨⟨⟨rest, heap⟩, ?_⟩, before.tiles.moved heap.tiles⟩
  intro other member
  rcases List.mem_cons.mp member with rfl | old
  · exact grantSound
  · exact sound.grants other old

/-- A block in use among the others. -/
theorem Kernel.Sound.focus (sound : k.Sound low high) {grant : Grant} (member : grant ∈ k.live) :
    ∃ blocks, HeapMemory.Sound low high k.heap blocks
      (grant.range :: (k.live.erase grant).map Grant.range) := by
  obtain ⟨blocks, heap⟩ := sound.heap
  have perm : (k.live.map Grant.range).Perm
      (grant.range :: (k.live.erase grant).map Grant.range) :=
    (List.perm_cons_erase member).map Grant.range
  exact ⟨blocks, heap.someAddress, heap.inWord, heap.minheap, heap.maxheap, heap.list,
    heap.separated, heap.regular, heap.tiles.perm (perm.append_left blocks)⟩

/-- A block is given back: the free bytes become more by its range. -/
theorem Kernel.Sound.returned (sound : k.Sound low high) {grant : Grant} {h : Heap}
    {blocks rest : List Interval} (before : HeapMemory.Sound low high k.heap blocks
      (grant.range :: (k.live.erase grant).map Grant.range))
    (after : HeapMemory.Sound low high h rest ((k.live.erase grant).map Grant.range)) :
    Kernel.Sound low high (k.returned grant ok h) ∧
      (k.returned grant ok h).freeBytes = k.freeBytes ∪ grant.range.points ∧
      Disjoint k.freeBytes grant.range.points := by
  have free : k.freeBytes = covered blocks := freeBytes_eq before.list
  unfold Kernel.returned
  rw [if_pos rfl, freeBytes_eq after.list, free]
  exact ⟨⟨⟨rest, after⟩, fun other inside => sound.grants other (List.mem_of_mem_erase inside)⟩,
    after.tiles.moved before.tiles⟩

theorem Kernel.Sound.getmem (sound : k.Sound low high) {nbytes : Nat} (someBytes : 0 < nbytes)
    (small : nbytes ≤ 0xFFFFFFF8) :
    ∃ reply k', step k (.getmem nbytes) = some (reply, k') ∧ k'.Sound low high := by
  obtain ⟨blocks, heap⟩ := sound.heap
  rcases heap.getmem someBytes small with failed | ⟨address, h, rest, taken, notError, aligned, after⟩
  · refine ⟨syserr, k, ?_, sound⟩
    rw [step, failed]
    rfl
  · have grantSound : Grant.Sound ⟨.memory, address, nbytes⟩ :=
      ⟨someBytes, small, aligned, fun isStack => by cases isStack⟩
    refine ⟨address, _, ?_, (sound.granted grantSound notError after).1⟩
    rw [step, taken]
    rfl

/-- `getstk` takes exactly the range of the stack. -/
theorem Kernel.Sound.getstk (sound : k.Sound low high) {nbytes : Nat} (someBytes : 0 < nbytes)
    (small : nbytes ≤ 0xFFFFFFF8) :
    ∃ reply k', step k (.getstk nbytes) = some (reply, k') ∧ k'.Sound low high ∧
      (reply ≠ syserr → k.freeBytes = k'.freeBytes ∪ (Grant.mk .stack reply nbytes).range.points ∧
        Disjoint k'.freeBytes (Grant.mk .stack reply nbytes).range.points) := by
  obtain ⟨blocks, heap⟩ := sound.heap
  rcases heap.getstk someBytes small with failed | ⟨start, h, rest, taken, notError, aligned, after⟩
  · refine ⟨syserr, k, ?_, sound, fun notError => absurd rfl notError⟩
    rw [step, failed]
    rfl
  · obtain ⟨atLeast, _, rounded, _⟩ := roundmb_bounds small
    have lastWord : start + roundmb nbytes - 4 + 4 = start + roundmb nbytes :=
      Nat.sub_add_cancel (by lia)
    have range : (Grant.mk .stack (start + roundmb nbytes - 4) nbytes).range =
        ⟨start, roundmb nbytes⟩ := by
      simp only [Grant.range, lastWord, Nat.add_sub_cancel]
    rw [← range] at after
    have grantSound : Grant.Sound ⟨.stack, start + roundmb nbytes - 4, nbytes⟩ := by
      refine ⟨someBytes, small, ?_, fun _ => ?_⟩
      · rw [range]
        exact aligned
      · rw [range]
        exact lastWord
    obtain ⟨sound', free⟩ := sound.granted grantSound notError after
    refine ⟨_, _, ?_, sound', fun _ => free⟩
    rw [step, taken]
    rfl

theorem Kernel.Sound.freemem (sound : k.Sound low high) {blkaddr nbytes : Nat}
    (member : ⟨.memory, blkaddr, nbytes⟩ ∈ k.live) :
    ∃ k', step k (.freemem blkaddr nbytes) = some (ok, k') ∧ k'.Sound low high := by
  obtain ⟨blocks, heap⟩ := sound.focus member
  have grant := sound.grants _ member
  obtain ⟨h, rest, freed, after⟩ := heap.freemem grant.someBytes grant.small grant.aligned rfl
  refine ⟨_, ?_, (sound.returned heap after).1⟩
  have here : HeapMemory.freemem k.heap blkaddr nbytes = some (ok, h) := freed
  rw [step, here]
  rfl

/-- `freestk` gives back exactly the range of the stack. -/
theorem Kernel.Sound.freestk (sound : k.Sound low high) {pointer length : Nat}
    (member : ⟨.stack, pointer, length⟩ ∈ k.live) :
    ∃ k', step k (.freestk pointer length) = some (ok, k') ∧ k'.Sound low high ∧
      k'.freeBytes = k.freeBytes ∪ (Grant.mk .stack pointer length).range.points ∧
      Disjoint k.freeBytes (Grant.mk .stack pointer length).range.points := by
  obtain ⟨blocks, heap⟩ := sound.focus member
  have grant := sound.grants _ member
  obtain ⟨atLeast, _, _, rounded⟩ := roundmb_bounds grant.small
  have size : (Grant.mk .stack pointer length).range.length = roundmb (roundmb length) :=
    (roundmb_idempotent grant.small).symm
  obtain ⟨h, rest, freed, after⟩ := heap.freemem (Nat.lt_of_lt_of_le grant.someBytes atLeast) rounded
    grant.aligned size
  refine ⟨_, ?_, sound.returned heap after⟩
  have address : word (minus pointer (roundmb length) + 4) =
      (Grant.mk .stack pointer length).range.start := by
    have positive : 0 < (Grant.mk .stack pointer length).range.length :=
      Nat.lt_of_lt_of_le grant.someBytes atLeast
    have inside := heap.tiles.inside (List.mem_append_right _ List.mem_cons_self) positive
    have lastWord : pointer + 4 = (Grant.mk .stack pointer length).range.start + roundmb length :=
      grant.pointer rfl
    have below : (Grant.mk .stack pointer length).range.start + roundmb length ≤ high := inside.2
    have above := inside.1
    have aligned := grant.aligned
    have someAddress := heap.someAddress
    have inWord := heap.inWord
    rw [minus_of_le (by lia) (by lia), word_of_lt (by lia)]
    lia
  have here : HeapMemory.freestk k.heap pointer length = some (ok, h) := by
    rw [HeapMemory.freestk, address]
    exact freed
  rw [step, here]
  rfl

/-- What a client writes into its block is no header of a free block. -/
theorem Kernel.Sound.store (sound : k.Sound low high) {address : Nat} (contents : MemBlk)
    {grant : Grant} (member : grant ∈ k.live) (inside : address ∈ grant.range.points) :
    Kernel.Sound low high ⟨k.heap.write contents (.block address), k.live⟩ := by
  obtain ⟨blocks, heap⟩ := sound.heap
  have inLive : address ∈ covered (k.live.map Grant.range) :=
    ⟨grant.range, List.mem_map_of_mem member, inside⟩
  have inHeap : address ∈ Set.Ico low high := by
    rw [← heap.tiles.exact, covered_append]
    exact Or.inr inLive
  have someHeap : low < high := Nat.lt_of_le_of_lt inHeap.1 inHeap.2
  have elsewhere : ∀ block ∈ blocks, block.start ≠ address := by
    rintro block inList rfl
    have positive := (heap.regular block inList).positive someHeap
    have inFree : block.start ∈ covered blocks :=
      ⟨block, inList, Nat.le_refl _, Nat.lt_add_of_pos_right positive⟩
    exact Set.disjoint_left.mp heap.tiles.disjoint_lists inFree inLive
  exact ⟨⟨blocks, heap.someAddress, heap.inWord, heap.minheap, heap.maxheap,
    heap.list.update address contents elsewhere, heap.separated, heap.regular, heap.tiles⟩,
    sound.grants⟩

/-- Every allowed call returns and keeps the invariant. -/
theorem Kernel.Sound.step (sound : k.Sound low high) (call : Call) (allowed : Allowed k call) :
    ∃ reply k', step k call = some (reply, k') ∧ k'.Sound low high := by
  cases call with
  | getmem nbytes => exact sound.getmem allowed.1 allowed.2
  | getstk nbytes =>
    obtain ⟨reply, k', completed, sound', _⟩ := sound.getstk allowed.1 allowed.2
    exact ⟨reply, k', completed, sound'⟩
  | freemem blkaddr nbytes =>
    obtain ⟨k', completed, sound'⟩ := sound.freemem allowed
    exact ⟨ok, k', completed, sound'⟩
  | freestk pointer length =>
    obtain ⟨k', completed, sound', _⟩ := sound.freestk allowed
    exact ⟨ok, k', completed, sound'⟩
  | store address contents =>
    obtain ⟨grant, member, inside⟩ := allowed
    exact ⟨ok, _, rfl, sound.store contents member inside⟩

end Steps

/-- The heap at one moment. The free list is ascending and separated, its blocks are
multiples of eight bytes, and they tile the heap together with the blocks in use. Every
allowed call returns. A stack is taken and given back as the same range. A range that
overlaps a free block is not given back. -/
structure HeapIntegrity (low high : Nat) (k : Kernel) : Prop where
  freeList : ∃ blocks, FreeList k.heap blocks ∧ (blocks.map Interval.start).Pairwise (· < ·) ∧
    Separated blocks ∧ (∀ block ∈ blocks, 8 ∣ block.length) ∧
    Tiles low high (blocks ++ k.live.map Grant.range)
  returns : ∀ call, Allowed k call → ∃ reply k', step k call = some (reply, k')
  stackTaken : ∀ nbytes pointer k', 0 < nbytes → nbytes ≤ 0xFFFFFFF8 →
    step k (.getstk nbytes) = some (pointer, k') → pointer ≠ syserr →
    k.freeBytes = k'.freeBytes ∪ (Grant.mk .stack pointer nbytes).range.points ∧
      Disjoint k'.freeBytes (Grant.mk .stack pointer nbytes).range.points
  stackFreed : ∀ pointer length, ⟨.stack, pointer, length⟩ ∈ k.live →
    ∃ k', step k (.freestk pointer length) = some (ok, k') ∧
      k'.freeBytes = k.freeBytes ∪ (Grant.mk .stack pointer length).range.points ∧
      Disjoint k.freeBytes (Grant.mk .stack pointer length).range.points
  overlapRefused : ∀ blkaddr nbytes, low ≤ blkaddr → blkaddr + nbytes ≤ high →
    ¬ Disjoint k.freeBytes (Interval.mk blkaddr (roundmb nbytes)).points →
    freemem k.heap blkaddr nbytes = some (syserr, k.heap)

theorem Kernel.Sound.integrity {low high : Nat} {k : Kernel} (sound : k.Sound low high) :
    HeapIntegrity low high k := by
  refine ⟨?_, ?_, ?_, ?_, ?_⟩
  · obtain ⟨blocks, heap⟩ := sound.heap
    exact ⟨blocks, heap.list, heap.separated.ascending, heap.separated,
      fun block member => (heap.regular block member).lengthAligned, heap.tiles⟩
  · intro call allowed
    obtain ⟨reply, k', completed, _⟩ := sound.step call allowed
    exact ⟨reply, k', completed⟩
  · intro nbytes pointer k' someBytes small completed notError
    obtain ⟨reply, after, same, _, free⟩ := sound.getstk someBytes small
    rw [completed] at same
    cases Option.some.inj same
    exact free notError
  · intro pointer length member
    obtain ⟨k', completed, _, free⟩ := sound.freestk member
    exact ⟨k', completed, free⟩
  · intro blkaddr nbytes _ inHeap overlap
    obtain ⟨blocks, heap⟩ := sound.heap
    have free : k.freeBytes = covered blocks := freeBytes_eq heap.list
    rw [free] at overlap
    obtain ⟨point, ⟨block, member, inBlock⟩, inRange⟩ := Set.not_disjoint_iff.mp overlap
    exact heap.freemem_refused inHeap member (Set.not_disjoint_iff.mpr ⟨point, inBlock, inRange⟩)

/-- The invariant holds in every run from a sound heap. -/
theorem Kernel.Sound.run {low high : Nat} {first k : Kernel} (sound : first.Sound low high)
    {events : List (Event Kernel Call Nat)} (run : Run HeapMemory.step first events k)
    (allowed : Meets Allowed events) : k.Sound low high := by
  refine invariant_last (Kernel.Sound low high) Allowed ?_ _ _ _ run sound allowed
  intro before call reply after soundBefore isAllowed completed
  obtain ⟨reply', k', same, sound'⟩ := soundBefore.step call isAllowed
  rw [completed] at same
  cases Option.some.inj same
  exact sound'

/-- The heap keeps its integrity in every run from `meminit`. -/
theorem heap_keeps_integrity (h : Heap) (first last : Nat) (someAddress : 0 < first)
    (ordered : first ≤ last) (inWord : last < 2 ^ 32) (firstAligned : 8 ∣ first)
    (lastAligned : 8 ∣ last) (k : Kernel) (events : List (Event Kernel Call Nat))
    (run : Run step ⟨meminit h first last, []⟩ events k) (allowed : Meets Allowed events) :
    HeapIntegrity first last k := by
  have initial := sound_of_meminit h first last someAddress ordered inWord firstAligned lastAligned
  exact (initial.run run allowed).integrity

/-- A heap of seven units: memory and a stack are taken, and the memory is given back. -/
theorem small_heap_keeps_integrity : ∃ events k, Run step
    ⟨meminit ⟨0, 0, 0, ⟨0, 0⟩, fun _ => ⟨0, 0⟩⟩ 8 64, []⟩ events k ∧
    events.map Event.reply = [8, 60, ok] ∧ HeapIntegrity 8 64 k := by
  obtain ⟨events, k, run, passed⟩ := trace_exists step
    ⟨meminit ⟨0, 0, 0, ⟨0, 0⟩, fun _ => ⟨0, 0⟩⟩ 8 64, []⟩ [.getmem 10, .getstk 5, .freemem 8 10]
    (fun events _ => events.map Event.reply = [8, 60, ok] ∧
      ∀ event ∈ events, Allowed event.before event.call) (by decide +kernel)
  obtain ⟨replies, allowed⟩ := of_decide_eq_true passed
  exact ⟨events, k, run, replies, heap_keeps_integrity _ 8 64 (by decide) (by decide) (by decide)
    (by decide) (by decide) k events run allowed⟩

end Xinu.HeapMemory
