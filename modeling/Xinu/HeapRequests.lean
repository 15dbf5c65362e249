import Xinu.HeapIntegrity
import Xinu.RunConditions

/-!
# Requests of all sizes

A request is honoured when it gets a block just when a free block is long enough, and the block is taken out of
the free bytes and lies beside the blocks in use; a request that gets none leaves the heap as it is. The size is
rounded before it is looked at: the sizes above `0xFFFFFFF8` become zero, and such a request gets the first free
block, or the end of the last one, without taking it.
-/

namespace Xinu.HeapMemory

open Intervals Runs

/-- The request of a call: what it asks for and how much. -/
def Call.request : Call → Option (Kind × Nat)
  | .getmem nbytes => some (.memory, nbytes)
  | .getstk nbytes => some (.stack, nbytes)
  | .freemem _ _ | .freestk _ _ | .store _ _ => none

/-- The call that makes a request. -/
def Kind.call : Kind → Nat → Call
  | .memory, nbytes => .getmem nbytes
  | .stack, nbytes => .getstk nbytes

/-- A free block. -/
def Kernel.Frees (k : Kernel) (block : Interval) : Prop := ∃ blocks, FreeList k.heap blocks ∧ block ∈ blocks

/-- Where the block lies whose pointer is returned. -/
def Kind.Points : Kind → Nat → Interval → Prop
  | .memory, pointer, block => block.start = pointer
  | .stack, pointer, block => block.stop = pointer + 4

/-- A block is handed out. -/
structure Handed (k after : Kernel) (kind : Kind) (nbytes pointer : Nat) (block : Interval) : Prop where
  points : kind.Points pointer block
  enough : nbytes ≤ block.length
  taken : k.freeBytes = after.freeBytes ∪ block.points
  removed : Disjoint after.freeBytes block.points
  apart : ∀ grant ∈ k.live, Disjoint block.points grant.range.points

/-- A request gets a block just when some free block is long enough; otherwise nothing changes. -/
structure Honoured (k after : Kernel) (kind : Kind) (nbytes pointer : Nat) : Prop where
  granted : pointer ≠ syserr ↔ 0 < nbytes ∧ ∃ block, k.Frees block ∧ nbytes ≤ block.length
  handed : pointer ≠ syserr → ∃ block, Handed k after kind nbytes pointer block
  refused : pointer = syserr → after = k

/-- The request of an event, if it makes one, is honoured. -/
def Honours (event : Event Kernel Call Nat) : Prop :=
  ∀ kind nbytes, event.call.request = some (kind, nbytes) →
    Honoured event.before event.after kind nbytes event.reply

/-- Sizes are words; blocks in use are given back as they were taken, and clients write into blocks in use. -/
def Proper (k : Kernel) (call : Call) : Prop :=
  match call.request with
  | some (_, nbytes) => nbytes < 2 ^ 32
  | none => Allowed k call

/-- The size can be rounded, or there are no free blocks. -/
def Fits (k : Kernel) (nbytes : Nat) : Prop := nbytes ≤ 0xFFFFFFF8 ∨ k.heap.memlist.mnext = null

def Roundable (k : Kernel) (call : Call) : Prop :=
  ∀ kind nbytes, call.request = some (kind, nbytes) → Fits k nbytes

section Requests

variable {low high nbytes : Nat} {k : Kernel} {kind : Kind}

theorem step_getmem {result : Nat × Heap} (taken : getmem k.heap nbytes = some result) :
    step k (.getmem nbytes) = some (result.1, k.granted .memory nbytes result.1 result.2) := by
  rw [step, taken]
  rfl

theorem step_getstk {result : Nat × Heap} (taken : getstk k.heap nbytes = some result) :
    step k (.getstk nbytes) = some (result.1, k.granted .stack nbytes result.1 result.2) := by
  rw [step, taken]
  rfl

/-- The free blocks of a sound heap. -/
theorem frees_iff {blocks : List Interval} (list : FreeList k.heap blocks) {block : Interval} : k.Frees block ↔ block ∈ blocks := by
  constructor
  · rintro ⟨others, same, member⟩
    rw [Chain.unique list same]
    exact member
  · exact fun member => ⟨blocks, list, member⟩

/-- A request that fails because no free block is long enough. -/
theorem honoured_of_refused {blocks : List Interval} (list : FreeList k.heap blocks)
    (short : 0 < nbytes → ∀ block ∈ blocks, block.length < nbytes) :
    Honoured k k kind nbytes syserr := by
  refine ⟨⟨fun notError => absurd rfl notError, ?_⟩, fun notError => absurd rfl notError, fun _ => rfl⟩
  rintro ⟨someBytes, block, frees, enough⟩
  have := short someBytes block ((frees_iff list).mp frees)
  omega

/-- A request that takes a part of a free block. -/
theorem honoured_of_granted {blocks rest : List Interval} {h : Heap} {grant : Grant} (sound : k.Sound low high)
    (list : FreeList k.heap blocks) (some_ : ∃ block ∈ blocks, grant.requested ≤ block.length)
    (grantSound : grant.Sound) (notError : grant.pointer ≠ syserr)
    (points : grant.kind.Points grant.pointer grant.range)
    (heap : HeapMemory.Sound low high h rest (grant.range :: k.live.map Grant.range)) :
    let after := k.granted grant.kind grant.requested grant.pointer h
    after.Sound low high ∧ Honoured k after grant.kind grant.requested grant.pointer := by
  obtain ⟨sound', taken, removed⟩ := sound.granted grantSound notError heap
  refine ⟨sound', ⟨fun _ => ?_, fun _ => notError⟩, fun _ => ⟨grant.range, points, ?_, taken, removed, ?_⟩,
    fun isError => absurd isError notError⟩
  · obtain ⟨block, member, enough⟩ := some_
    exact ⟨grantSound.someBytes, block, (frees_iff list).mpr member, enough⟩
  · have enough := (roundmb_bounds grantSound.small).1
    unfold Grant.range
    cases grant.kind with
    | memory => exact enough
    | stack => exact enough
  · intro other member
    have disjoint := (List.pairwise_append.mp heap.tiles.disjoint).2.1
    exact (List.pairwise_cons.mp disjoint).1 _ (List.mem_map_of_mem member)

/-- Requests that can be rounded are honoured. -/
theorem getmem_honoured (sound : k.Sound low high) (small : nbytes ≤ 0xFFFFFFF8) :
    ∃ pointer after, step k (.getmem nbytes) = some (pointer, after) ∧ after.Sound low high ∧
      Honoured k after .memory nbytes pointer := by
  obtain ⟨blocks, heap⟩ := sound.heap
  by_cases fits : 0 < nbytes ∧ ∃ block ∈ blocks, nbytes ≤ block.length
  · obtain ⟨someBytes, some_⟩ := fits
    obtain ⟨address, h, rest, taken, notError, aligned, after⟩ := heap.getmem_takes someBytes small some_
    have grantSound : Grant.Sound ⟨.memory, address, nbytes⟩ :=
      ⟨someBytes, small, aligned, fun isStack => by cases isStack⟩
    obtain ⟨sound', honoured⟩ := honoured_of_granted sound heap.list some_ grantSound notError rfl after
    exact ⟨address, _, step_getmem taken, sound', honoured⟩
  · have short : 0 < nbytes → ∀ block ∈ blocks, block.length < nbytes := by
      intro someBytes block member
      by_contra enough
      exact fits ⟨someBytes, block, member, Nat.le_of_not_lt enough⟩
    refine ⟨syserr, k, ?_, sound, honoured_of_refused heap.list short⟩
    have failed : getmem k.heap nbytes = some (syserr, k.heap) := by
      by_cases someBytes : 0 < nbytes
      · exact heap.getmem_fails small (short someBytes)
      · unfold HeapMemory.getmem
        rw [if_pos (by lia)]
    exact step_getmem failed

theorem getstk_honoured (sound : k.Sound low high) (small : nbytes ≤ 0xFFFFFFF8) :
    ∃ pointer after, step k (.getstk nbytes) = some (pointer, after) ∧ after.Sound low high ∧
      Honoured k after .stack nbytes pointer := by
  obtain ⟨blocks, heap⟩ := sound.heap
  by_cases fits : 0 < nbytes ∧ ∃ block ∈ blocks, nbytes ≤ block.length
  · obtain ⟨someBytes, some_⟩ := fits
    obtain ⟨start, h, rest, taken, notError, aligned, after⟩ := heap.getstk_takes someBytes small some_
    have atLeast := (roundmb_bounds small).1
    have wide : 8 ∣ roundmb nbytes := (roundmb_bounds small).2.2.1
    have lastWord : start + roundmb nbytes - 4 + 4 = start + roundmb nbytes :=
      Nat.sub_add_cancel (by lia)
    have range : (Grant.mk .stack (start + roundmb nbytes - 4) nbytes).range = ⟨start, roundmb nbytes⟩ := by
      simp only [Grant.range, lastWord, Nat.add_sub_cancel]
    have points : (Grant.mk .stack (start + roundmb nbytes - 4) nbytes).range.stop =
        start + roundmb nbytes - 4 + 4 := by
      rw [range, lastWord]
      rfl
    rw [← range] at after
    have grantSound : Grant.Sound ⟨.stack, start + roundmb nbytes - 4, nbytes⟩ :=
      ⟨someBytes, small, range ▸ aligned, fun _ => points.symm⟩
    obtain ⟨sound', honoured⟩ := honoured_of_granted sound heap.list some_ grantSound notError points after
    exact ⟨_, _, step_getstk taken, sound', honoured⟩
  · have short : 0 < nbytes → ∀ block ∈ blocks, block.length < nbytes := by
      intro someBytes block member
      by_contra enough
      exact fits ⟨someBytes, block, member, Nat.le_of_not_lt enough⟩
    refine ⟨syserr, k, ?_, sound, honoured_of_refused heap.list short⟩
    have failed : getstk k.heap nbytes = some (syserr, k.heap) := by
      by_cases someBytes : 0 < nbytes
      · exact heap.getstk_fails small (short someBytes)
      · unfold HeapMemory.getstk
        rw [if_pos (by omega)]
    exact step_getstk failed

/-- A size that is rounded to zero. -/
theorem roundmb_of_large (large : 0xFFFFFFF8 < nbytes) (word_ : nbytes < 2 ^ 32) : roundmb nbytes = 0 := by
  have mask : 0xFFFFFFF8 = (2 ^ (32 - 3) - 1) <<< 3 := by decide
  have wrapped : word (7 + nbytes) = nbytes - 0xFFFFFFF9 := by
    unfold word
    lia
  rw [roundmb, wrapped, mask, mask_low (by decide) (by omega)]
  lia

/-- No block is as long as such a size. -/
theorem short (sound : k.Sound low high) (large : 0xFFFFFFF8 < nbytes) {block : Interval}
    (frees : k.Frees block) : block.length < nbytes := by
  obtain ⟨blocks, heap⟩ := sound.heap
  have below := (heap.regular block ((frees_iff heap.list).mp frees)).below
  have := heap.inWord
  lia

/-- Without free blocks `getstk` finds none. -/
theorem getstk_of_empty (sound : k.Sound low high) (empty : k.heap.memlist.mnext = null) (nbytes : Nat) :
    getstk k.heap nbytes = some (syserr, k.heap) := by
  obtain ⟨blocks, heap⟩ := sound.heap
  have nothing : blocks = [] := by
    have list : Chain k.heap.cells k.heap.memlist.mnext blocks null := heap.list
    rw [empty] at list
    exact list.unique rfl
  subst nothing
  have scanned := scan_fails (roundmb nbytes) turns null (.block null) .memlist heap.list heap.length_lt (by simp)
  unfold HeapMemory.getstk
  by_cases zero : nbytes = 0
  · rw [if_pos zero]
  · simp [zero, scanned]

/-- Without free blocks every request fails. -/
theorem refused_of_empty (sound : k.Sound low high) (empty : k.heap.memlist.mnext = null) :
    step k (kind.call nbytes) = some (syserr, k) ∧ Honoured k k kind nbytes syserr := by
  obtain ⟨blocks, heap⟩ := sound.heap
  have nothing : blocks = [] := by
    have list : Chain k.heap.cells k.heap.memlist.mnext blocks null := heap.list
    rw [empty] at list
    exact list.unique rfl
  subst nothing
  refine ⟨?_, honoured_of_refused heap.list (by simp)⟩
  cases kind with
  | memory =>
    have failed : getmem k.heap nbytes = some (syserr, k.heap) := by
      unfold HeapMemory.getmem
      by_cases zero : nbytes = 0
      · rw [if_pos zero]
      · rw [if_neg zero]
        exact search_fails _ turns heap.list heap.length_lt (by simp) _
    show step k (.getmem nbytes) = some (syserr, k)
    exact step_getmem failed
  | stack =>
    show step k (.getstk nbytes) = some (syserr, k)
    exact step_getstk (getstk_of_empty sound empty nbytes)

/-- A request that is rounded to zero gets a pointer. -/
theorem granted_of_large (sound : k.Sound low high) (large : 0xFFFFFFF8 < nbytes)
    (word_ : nbytes < 2 ^ 32) (some_ : k.heap.memlist.mnext ≠ null) :
    ∃ pointer after, step k (kind.call nbytes) = some (pointer, after) ∧ pointer ≠ syserr := by
  obtain ⟨blocks, heap⟩ := sound.heap
  have positive : nbytes ≠ 0 := by lia
  have inList : ∃ block ∈ blocks, 0 ≤ block.length := by
    cases blocks with
    | nil => exact absurd heap.list some_
    | cons block rest => exact ⟨block, List.mem_cons_self, Nat.zero_le _⟩
  have reaches : k.heap.Reaches [] k.heap.memlist.mnext := rfl
  have inWord := heap.inWord
  have someAddress := heap.someAddress
  cases kind with
  | memory =>
    obtain ⟨front, block, back, rfl, _, found⟩ := search_finds 0 turns reaches heap.list heap.length_lt inList
    have regular := ((forall_mem_middle front back block).mp heap.regular).1
    have below := regular.below
    have result : getmem k.heap nbytes = some (k.heap.takeBottom 0 (lastPointer ([] ++ front)) block.start) := by
      unfold HeapMemory.getmem
      rw [if_neg positive, roundmb_of_large large word_]
      exact found
    have pointer : (k.heap.takeBottom 0 (lastPointer ([] ++ front)) block.start).1 = block.start := by
      unfold Heap.takeBottom
      split
      · rfl
      · rfl
    refine ⟨_, _, step_getmem result, ?_⟩
    rw [pointer]
    unfold syserr
    lia
  | stack =>
    obtain ⟨front, block, back, rfl, _, found⟩ :=
      scan_finds 0 turns null (.block null) reaches heap.list heap.length_lt inList
    rw [lastPointer_nil] at found
    have regular := ((forall_mem_middle front back block).mp heap.regular).1
    have below := regular.below
    have above := regular.above
    have aligned := regular.startAligned
    obtain ⟨h', rest, taken, _⟩ := heap.takeTop (Nat.dvd_zero 8) (Nat.zero_le block.length)
    rw [List.nil_append] at found
    have result : getstk k.heap nbytes = some (minus (word (block.start + (block.length - 0) + 0)) 4, h'.lessen 0) := by
      unfold HeapMemory.getstk
      rw [if_neg positive, roundmb_of_large large word_]
      simp only [found, Option.bind_eq_bind, Option.bind_some, if_neg heap.list.header.1, taken]
    refine ⟨_, _, step_getstk result, ?_⟩
    unfold minus word syserr
    lia

/-- A request is honoured just when its size can be rounded or there are no free blocks. -/
theorem honoured_iff (sound : k.Sound low high) (word_ : nbytes < 2 ^ 32) :
    (∃ pointer after, step k (kind.call nbytes) = some (pointer, after) ∧ Honoured k after kind nbytes pointer) ↔
      Fits k nbytes := by
  constructor
  · rintro ⟨pointer, after, completed, honoured⟩
    by_contra misfit
    obtain ⟨large, some_⟩ := not_or.mp misfit
    obtain ⟨other, next, same, notError⟩ := granted_of_large sound (Nat.lt_of_not_le large) word_ some_
    cases completed.symm.trans same
    obtain ⟨_, block, frees, enough⟩ := honoured.granted.mp notError
    have := short sound (Nat.lt_of_not_le large) frees
    lia
  · rintro (small | empty)
    · cases kind with
      | memory =>
        obtain ⟨pointer, after, completed, _, honoured⟩ := getmem_honoured sound small
        exact ⟨pointer, after, completed, honoured⟩
      | stack =>
        obtain ⟨pointer, after, completed, _, honoured⟩ := getstk_honoured sound small
        exact ⟨pointer, after, completed, honoured⟩
    · exact ⟨syserr, k, refused_of_empty sound empty⟩

/-- The calls that meet the condition keep the heap sound. -/
theorem requested (sound : k.Sound low high) {call : Call} (proper : Proper k call)
    (roundable : Roundable k call) {reply : Nat} {after : Kernel} (completed : step k call = some (reply, after)) :
    after.Sound low high := by
  by_cases isRequest : ∃ (kind : Kind) (nbytes : Nat), call = kind.call nbytes
  · obtain ⟨kind, nbytes, rfl⟩ := isRequest
    have request : (kind.call nbytes).request = some (kind, nbytes) := by
      cases kind with
      | memory => rfl
      | stack => rfl
    rcases roundable kind nbytes request with small | empty
    · cases kind with
      | memory =>
        obtain ⟨pointer, next, same, sound', _⟩ := getmem_honoured sound small
        cases completed.symm.trans same
        exact sound'
      | stack =>
        obtain ⟨pointer, next, same, sound', _⟩ := getstk_honoured sound small
        cases completed.symm.trans same
        exact sound'
    · cases completed.symm.trans (@refused_of_empty _ _ _ _ kind sound empty).1
      exact sound
  · have allowed : Allowed k call := by
      cases call with
      | getmem nbytes => exact absurd ⟨.memory, nbytes, rfl⟩ isRequest
      | getstk nbytes => exact absurd ⟨.stack, nbytes, rfl⟩ isRequest
      | freemem blkaddr nbytes => exact proper
      | freestk pointer length => exact proper
      | store address contents => exact proper
    obtain ⟨other, next, same, sound'⟩ := sound.step call allowed
    cases completed.symm.trans same
    exact sound'

/-- An event is honoured just when it meets the condition. -/
theorem honours_iff (sound : k.Sound low high) {call : Call} (proper : Proper k call) {reply : Nat}
    {after : Kernel} (completed : step k call = some (reply, after)) :
    Honours ⟨k, call, reply, after⟩ ↔ Roundable k call := by
  refine forall_congr' fun kind => forall_congr' fun nbytes => imp_congr_right fun request => ?_
  have isCall : call = kind.call nbytes := by
    cases call with
    | getmem size =>
      cases request
      rfl
    | getstk size =>
      cases request
      rfl
    | freemem blkaddr size => cases request
    | freestk pointer length => cases request
    | store address contents => cases request
  subst isCall
  have word_ : nbytes < 2 ^ 32 := by
    unfold Proper at proper
    rw [request] at proper
    exact proper
  rw [← honoured_iff sound word_]
  constructor
  · exact fun honoured => ⟨reply, after, completed, honoured⟩
  · rintro ⟨pointer, next, same, honoured⟩
    cases completed.symm.trans same
    exact honoured

end Requests

/-- In every run from `meminit`, all requests are honoured just when each of them has a size that can be rounded
or finds no free blocks. In the states of such a run this is exactly when a further request of any size returns
and is honoured. -/
theorem requests_are_honoured (h : Heap) (first last : Nat) (someAddress : 0 < first) (ordered : first ≤ last)
    (inWord : last < 2 ^ 32) (firstAligned : 8 ∣ first) (lastAligned : 8 ∣ last) (k : Kernel)
    (events : List (Event Kernel Call Nat)) (run : Run step ⟨meminit h first last, []⟩ events k)
    (proper : Meets Proper events) :
    ((∀ event ∈ events, Honours event) ↔ Meets Roundable events) ∧
    (Meets Roundable events → ∀ kind nbytes, nbytes < 2 ^ 32 →
      ((∃ pointer after, step k (Kind.call kind nbytes) = some (pointer, after) ∧
        Honoured k after kind nbytes pointer) ↔ Fits k nbytes)) := by
  have initial := sound_of_meminit h first last someAddress ordered inWord firstAligned lastAligned
  have kept : ∀ before call reply after, Kernel.Sound first last before → Proper before call → Roundable before call →
      step before call = some (reply, after) → Kernel.Sound first last after :=
    fun before call reply after sound isProper roundable completed => requested sound isProper roundable completed
  refine ⟨?_, fun roundable kind nbytes word_ => ?_⟩
  · refine good_events_iff_meets (Kernel.Sound first last) Honours Proper Roundable kept ?_ _ _ _ run proper initial
    exact fun before call reply after sound isProper completed => honours_iff sound isProper completed
  · have sound : Kernel.Sound first last k := by
      refine invariant_last (Kernel.Sound first last) (fun k call => Proper k call ∧ Roundable k call) ?_ _ _ _ run
        initial fun event member => ⟨proper event member, roundable event member⟩
      exact fun before call reply after sound met completed => kept before call reply after sound met.1 met.2 completed
    exact honoured_iff sound word_

/-- Memory and a stack are taken and given back. -/
theorem small_requests_are_honoured : ∃ events k, Run step ⟨meminit ⟨0, 0, 0, ⟨0, 0⟩, fun _ => ⟨0, 0⟩⟩ 8 64, []⟩ events k ∧
    events.map Event.reply = [8, 60, syserr, ok] ∧ ∀ event ∈ events, Honours event := by
  obtain ⟨events, k, run, passed⟩ := trace_exists step ⟨meminit ⟨0, 0, 0, ⟨0, 0⟩, fun _ => ⟨0, 0⟩⟩ 8 64, []⟩
    [.getmem 10, .getstk 5, .getmem 41, .freemem 8 10]
    (fun events _ => decide (events.map Event.reply = [8, 60, syserr, ok]) && events.all fun event =>
      match event.call.request with
      | some (_, nbytes) => decide (nbytes ≤ 0xFFFFFFF8)
      | none => decide (Allowed event.before event.call)) (by decide +kernel)
  obtain ⟨isReplies, all⟩ := (Bool.and_eq_true _ _).mp passed
  have replies := of_decide_eq_true isReplies
  have met := List.all_eq_true.mp all
  refine ⟨events, k, run, replies, (requests_are_honoured _ 8 64 (by decide) (by decide) (by decide) (by decide)
    (by decide) k events run fun event member => ?_).1.mpr fun event member kind nbytes request => ?_⟩
  · have here := met event member
    unfold Proper
    cases request : event.call.request with
    | none =>
      rw [request] at here
      exact of_decide_eq_true here
    | some asked =>
      rw [request] at here
      exact Nat.lt_of_le_of_lt (of_decide_eq_true here) (by decide)
  · have here := met event member
    rw [request] at here
    exact Or.inl (of_decide_eq_true here)

/-- A request for nearly all of the address space gets the first free block, which stays free. -/
theorem large_request_gets_small_block : ∃ events k, Run step
    ⟨meminit ⟨0, 0, 0, ⟨0, 0⟩, fun _ => ⟨0, 0⟩⟩ 8 64, []⟩ events k ∧ Meets Proper events ∧
    events.map Event.reply = [8] ∧ k.heap.memlist.mnext = 8 ∧ ¬ ∀ event ∈ events, Honours event := by
  have sound := sound_of_meminit ⟨0, 0, 0, ⟨0, 0⟩, fun _ => ⟨0, 0⟩⟩ 8 64 (by decide) (by decide) (by decide)
    (by decide) (by decide)
  cases completed : step ⟨meminit ⟨0, 0, 0, ⟨0, 0⟩, fun _ => ⟨0, 0⟩⟩ 8 64, []⟩ (.getmem 0xFFFFFFFF) with
  | none =>
    have returns : (step ⟨meminit ⟨0, 0, 0, ⟨0, 0⟩, fun _ => ⟨0, 0⟩⟩ 8 64, []⟩ (.getmem 0xFFFFFFFF)).isSome = true := by
      decide +kernel
    rw [completed] at returns
    cases returns
  | some result =>
    have known : (step ⟨meminit ⟨0, 0, 0, ⟨0, 0⟩, fun _ => ⟨0, 0⟩⟩ 8 64, []⟩ (.getmem 0xFFFFFFFF)).any
        (fun result => decide (result.1 = 8 ∧ result.2.heap.memlist.mnext = 8)) = true := by decide +kernel
    rw [completed] at known
    obtain ⟨reply, next⟩ := of_decide_eq_true known
    have proper : Proper ⟨meminit ⟨0, 0, 0, ⟨0, 0⟩, fun _ => ⟨0, 0⟩⟩ 8 64, []⟩ (.getmem 0xFFFFFFFF) :=
      show 0xFFFFFFFF < 2 ^ 32 by decide
    refine ⟨[⟨_, .getmem 0xFFFFFFFF, result.1, result.2⟩], result.2, .taken _ _ _ _ _ _ completed (.done _), ?_,
      by rw [List.map_singleton, reply], next, fun honoured => ?_⟩
    · exact (meets_cons _ _ _).mpr ⟨proper, by simp [Meets]⟩
    · have fits := (honours_iff sound proper completed).mp (honoured _ List.mem_cons_self) .memory 0xFFFFFFFF rfl
      exact absurd fits (not_or.mpr ⟨by decide, by decide⟩)

end Xinu.HeapMemory
