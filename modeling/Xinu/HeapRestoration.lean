import Xinu.HeapIntegrity

/-!
# The heap comes back

A block that is given back is joined with the free blocks that it touches. Once all blocks have been given back,
in whatever order, no trace of them is left: the heap is one free block, as it was after `meminit`.
-/

namespace Xinu.HeapMemory

open Intervals Runs

/-- Intervals that are apart and cover a range are the range. -/
theorem whole_of_separated {low high : Nat} {list : List Interval} (someHeap : low < high)
    (separated : Separated list) (tiles : Tiles low high list) (positive : ∀ block ∈ list, 0 < block.length) :
    list = [⟨low, high - low⟩] := by
  have covers : ∀ point, low ≤ point → point < high → ∃ block ∈ list, block.start ≤ point ∧ point < block.stop := by
    intro point above below
    have inside : point ∈ covered list := tiles.exact ▸ ⟨above, below⟩
    exact inside
  have within : ∀ block ∈ list, low ≤ block.start ∧ block.stop ≤ high := fun block member =>
    tiles.inside member (positive block member)
  cases list with
  | nil =>
    obtain ⟨block, member, _⟩ := covers low le_rfl someHeap
    cases member
  | cons first rest =>
    have behind := (List.pairwise_cons.mp separated).1
    have inFirst := within first List.mem_cons_self
    have later : ∀ block ∈ first :: rest, first.start ≤ block.start := by
      intro block member
      rcases List.mem_cons.mp member with rfl | inRest
      · rfl
      · have := behind block inRest
        have : first.start ≤ first.stop := Nat.le_add_right _ _
        lia
    obtain ⟨block, member, below, _⟩ := covers low le_rfl someHeap
    have startsLow : first.start = low := by
      have := later block member
      lia
    -- The point behind the first interval would be covered by none.
    have stopsHigh : first.stop = high := by
      by_contra short
      obtain ⟨other, isOther, before, after⟩ := covers first.stop
        (by have : first.start ≤ first.stop := Nat.le_add_right _ _
            lia) (by lia)
      rcases List.mem_cons.mp isOther with rfl | inRest
      · lia
      · have := behind other inRest
        lia
    have alone : rest = [] := by
      by_contra some_
      obtain ⟨other, isOther⟩ := List.exists_mem_of_ne_nil rest some_
      have := behind other isOther
      have := within other (List.mem_cons_of_mem _ isOther)
      have : other.start ≤ other.stop := Nat.le_add_right _ _
      lia
    have length : high - first.start = first.length := by
      unfold Interval.stop at stopsHigh
      lia
    rw [alone, ← startsLow, length]

/-- A sound heap of which nothing is in use. -/
theorem Kernel.Sound.whole {low high : Nat} {k : Kernel} (sound : k.Sound low high) (someHeap : low < high)
    (noneInUse : k.live = []) : k.heap.memlist.mnext = low ∧ k.heap.cells low = ⟨null, high - low⟩ := by
  obtain ⟨blocks, heap⟩ := sound.heap
  have tiles := heap.tiles
  rw [noneInUse, List.map_nil, List.append_nil] at tiles
  have single := whole_of_separated someHeap heap.separated tiles fun block member =>
    (heap.regular block member).positive someHeap
  subst single
  obtain ⟨isFirst, _, length, next⟩ := heap.list
  have isNext : (k.heap.cells k.heap.memlist.mnext).mnext = null := next
  rw [isFirst] at length isNext
  exact ⟨isFirst, congrArg₂ MemBlk.mk isNext length⟩

/-- In every run, when no block is in use, `memlist` leads to the start of the heap, and the header there is as
`meminit` made it. -/
theorem heap_comes_back (h : Heap) (first last : Nat) (someAddress : 0 < first) (someHeap : first < last)
    (inWord : last < 2 ^ 32) (firstAligned : 8 ∣ first) (lastAligned : 8 ∣ last) (k : Kernel)
    (events : List (Event Kernel Call Nat)) (run : Run step ⟨meminit h first last, []⟩ events k)
    (allowed : Meets Allowed events) (noneInUse : k.live = []) :
    k.heap.memlist.mnext = (meminit h first last).memlist.mnext ∧
      k.heap.cells first = (meminit h first last).cells first := by
  have initial := sound_of_meminit h first last someAddress someHeap.le inWord firstAligned lastAligned
  obtain ⟨leads, header⟩ := (initial.run run allowed).whole someHeap noneInUse
  obtain ⟨ledFirst, headerFirst⟩ := initial.whole someHeap rfl
  exact ⟨leads.trans ledFirst.symm, header.trans headerFirst.symm⟩

/-- Memory is taken twice and given back in the order in which it was taken. -/
theorem small_heap_comes_back : ∃ events k, Run step ⟨meminit ⟨0, 0, 0, ⟨0, 0⟩, fun _ => ⟨0, 0⟩⟩ 8 64, []⟩ events k ∧
    events.map Event.reply = [8, 24, ok, ok] ∧ k.heap.cells 8 = ⟨null, 56⟩ := by
  obtain ⟨events, k, run, passed⟩ := trace_exists step
    ⟨meminit ⟨0, 0, 0, ⟨0, 0⟩, fun _ => ⟨0, 0⟩⟩ 8 64, []⟩ [.getmem 10, .getmem 5, .freemem 8 10, .freemem 24 5]
    (fun events k => decide (events.map Event.reply = [8, 24, ok, ok] ∧ k.live = [] ∧
      ∀ event ∈ events, Allowed event.before event.call)) (by decide +kernel)
  obtain ⟨replies, noneInUse, allowed⟩ := of_decide_eq_true passed
  have back := heap_comes_back _ 8 64 (by decide) (by decide) (by decide) (by decide) (by decide) k events run allowed
    noneInUse
  exact ⟨events, k, run, replies, back.2⟩

end Xinu.HeapMemory
