import Xinu.HeapAllocation

/-!
# Memory given back to the heap

`freemem` stops at the first free block that does not begin below the address. It compares
the new block with the two neighbours found there; in a separated list these are the only
ones that it can overlap. The new block then grows the one before or is linked in, and is
joined with the one behind if they touch.

Between these two steps the new block is in the list and can still touch the one behind.
-/

namespace Xinu.HeapMemory

open Intervals

section Freeing

variable {low high : Nat} {h h' : Heap} {front back live : List Interval} {curr : Nat}

/-- `freemem` passes the blocks that begin below an address. -/
theorem walk_cases (address : Nat) (count : Nat) (reaches : h.Reaches front curr)
    (chain : Chain h.cells curr back null) (enough : back.length < count) :
    ∃ left right, back = left ++ right ∧ (∀ block ∈ left, block.start < address) ∧
      (∀ block rest, right = block :: rest → address ≤ block.start) ∧
      h.walk address count (lastPointer front) curr =
        some (lastPointer (front ++ left), firstAddress right) := by
  induction back generalizing front curr count with
  | nil =>
    obtain ⟨count, rfl⟩ := Nat.exists_eq_succ_of_ne_zero (Nat.ne_zero_of_lt enough)
    have atEnd : curr = null := chain
    refine ⟨[], [], rfl, by simp, by simp, ?_⟩
    rw [Heap.walk, if_neg (fun further => further.1 atEnd), List.append_nil, atEnd]
    rfl
  | cons block rest inductionHypothesis =>
    obtain ⟨count, rfl⟩ := Nat.exists_eq_succ_of_ne_zero (Nat.ne_zero_of_lt enough)
    have isFirst : curr = block.start := chain.1
    have someBlock : curr ≠ null := chain.2.1
    rw [Heap.walk]
    split
    case isTrue below =>
      obtain ⟨further, tail⟩ := passed reaches chain
      obtain ⟨left, right, split, before, behind, stopped⟩ :=
        inductionHypothesis count further tail (Nat.lt_of_succ_lt_succ enough)
      rw [lastPointer_append, List.append_assoc, List.singleton_append] at stopped
      refine ⟨block :: left, right, by rw [split, List.cons_append], ?_, behind, ?_⟩
      · intro other member
        rcases List.mem_cons.mp member with rfl | inLeft
        · exact isFirst ▸ below.2
        · exact before other inLeft
      · rw [isFirst]
        exact stopped
    case isFalse notBelow =>
      refine ⟨[], block :: rest, rfl, by simp, ?_, ?_⟩
      · rintro other others same
        obtain ⟨rfl, _⟩ := List.cons.inj same
        rw [← isFirst]
        exact Nat.le_of_not_lt fun below => notBelow ⟨someBlock, below⟩
      · rw [List.append_nil, isFirst]
        rfl

/-- The end of the block before. -/
theorem Sound.top_append {block : Interval}
    (sound : Sound low high h (front ++ block :: back) live) :
    h.top (lastPointer (front ++ [block])) = block.stop := by
  obtain ⟨_, sameLength⟩ := sound.list.header
  have below := ((forall_mem_middle front back block).mp sound.regular).1.below
  have inWord := sound.inWord
  rw [lastPointer_append, Heap.top, sameLength]
  exact word_of_lt (by lia)

/-- The two comparisons of `freemem` find every overlap. -/
theorem Sound.check (sound : Sound low high h (front ++ back) live) (new : Interval)
    (inWord : new.stop < 2 ^ 32) :
    ((lastPointer front ≠ .memlist ∧ new.start < h.top (lastPointer front)) ∨
      (firstAddress back ≠ null ∧ firstAddress back < word (new.start + new.length))) ↔
    (∃ left ∈ front, new.start < left.stop) ∨ ∃ right ∈ back, right.start < new.stop := by
  have stop : word (new.start + new.length) = new.stop := word_of_lt inWord
  rw [stop]
  refine or_congr ?_ ?_
  · rcases List.eq_nil_or_concat front with rfl | ⟨before, block, rfl⟩
    · simp
    · rw [List.concat_eq_append] at sound ⊢
      rw [List.append_assoc, List.singleton_append] at sound
      rw [sound.top_append]
      constructor
      · rintro ⟨_, overlaps⟩
        exact ⟨block, List.mem_append_right _ (List.mem_singleton.mpr rfl), overlaps⟩
      · rintro ⟨left, inFront, overlaps⟩
        refine ⟨by simp, ?_⟩
        rcases List.mem_append.mp inFront with inBefore | isBlock
        · have earlier := sound.separated.neighbours.1 left inBefore
          have := start_le_stop block
          lia
        · rw [← List.mem_singleton.mp isBlock]
          exact overlaps
  · cases back with
    | nil => simp [firstAddress]
    | cons block rest =>
      constructor
      · rintro ⟨_, overlaps⟩
        exact ⟨block, List.mem_cons_self, overlaps⟩
      · rintro ⟨right, inBack, overlaps⟩
        refine ⟨sound.list.header.1, ?_⟩
        rcases List.mem_cons.mp inBack with rfl | inRest
        · exact overlaps
        · have later := sound.separated.neighbours.2 right inRest
          have := start_le_stop block
          have isFirst : firstAddress (block :: rest) = block.start := rfl
          lia

/-- The loop of `freemem` cuts the list at an address. -/
theorem Sound.walk {blocks : List Interval} (sound : Sound low high h blocks live)
    (address : Nat) :
    ∃ front back, blocks = front ++ back ∧ (∀ left ∈ front, left.start < address) ∧
      (∀ right ∈ back, address ≤ right.start) ∧
      h.walk address turns .memlist h.memlist.mnext =
        some (lastPointer front, firstAddress back) := by
  have reaches : h.Reaches [] h.memlist.mnext := rfl
  obtain ⟨front, back, split, before, behind, stopped⟩ :=
    walk_cases address turns reaches sound.list sound.length_lt
  rw [lastPointer_nil, List.nil_append] at stopped
  refine ⟨front, back, split, before, ?_, stopped⟩
  intro right inBack
  cases back with
  | nil => cases inBack
  | cons block rest =>
    have first := behind block rest rfl
    rcases List.mem_cons.mp inBack with rfl | inRest
    · exact first
    · have separated := sound.separated
      rw [split] at separated
      have later := separated.neighbours.2 right inRest
      have := start_le_stop block
      lia

/-- A range that overlaps a free block is refused. -/
theorem Sound.freemem_refused {blocks : List Interval} (sound : Sound low high h blocks live)
    {blkaddr nbytes : Nat} (inHeap : blkaddr + nbytes ≤ high) {block : Interval}
    (member : block ∈ blocks)
    (overlap : ¬ Disjoint block.points (Interval.mk blkaddr (roundmb nbytes)).points) :
    freemem h blkaddr nbytes = some (syserr, h) := by
  obtain ⟨front, back, rfl, _, _, stopped⟩ := sound.walk blkaddr
  have bound := sound.inWord
  have rounded := roundmb_bounds (show nbytes ≤ 0xFFFFFFF8 by lia)
  unfold freemem
  split
  · rfl
  · have inWord : (Interval.mk blkaddr (roundmb nbytes)).stop < 2 ^ 32 := by
      unfold Interval.stop
      simp only
      lia
    have overlaps : (∃ left ∈ front, blkaddr < left.stop) ∨
        ∃ right ∈ back, right.start < (Interval.mk blkaddr (roundmb nbytes)).stop := by
      obtain ⟨point, ⟨afterStart, beforeStop⟩, ⟨afterNew, beforeNew⟩⟩ :=
        Set.not_disjoint_iff.mp overlap
      rcases List.mem_append.mp member with inFront | inBack
      · exact Or.inl ⟨block, inFront, Nat.lt_of_le_of_lt afterNew beforeStop⟩
      · exact Or.inr ⟨block, inBack, Nat.lt_of_le_of_lt afterStart beforeNew⟩
    simp only [stopped, Option.bind_eq_bind, Option.bind_some]
    rw [if_pos ((sound.check ⟨blkaddr, roundmb nbytes⟩ inWord).mpr overlaps)]

/-- A new block is in the list. It can touch the one behind. -/
structure Joined (low high : Nat) (h : Heap) (front : List Interval) (new : Interval)
    (back live : List Interval) : Prop where
  someAddress : 0 < low
  inWord : high ≤ 0xFFFFFFF8
  minheap : h.minheap = low
  maxheap : h.maxheap = high
  list : FreeList h (front ++ new :: back)
  separated : Separated (front ++ back)
  before : ∀ left ∈ front, left.stop < new.start
  behind : ∀ right ∈ back, new.stop ≤ right.start
  someBytes : 0 < new.length
  regular : ∀ block ∈ front ++ new :: back, Regular low high block
  tiles : Tiles low high ((front ++ new :: back) ++ live)

theorem Joined.distinct {new : Interval} (joined : Joined low high h front new back live) :
    Distinct (front ++ new :: back) := by
  refine (distinct_middle front back new).mpr ⟨distinct_of_separated joined.separated, ?_⟩
  intro other member
  rcases List.mem_append.mp member with inFront | inBack
  · have := joined.before other inFront
    have := start_le_stop other
    lia
  · have later := joined.behind other inBack
    have := joined.someBytes
    unfold Interval.stop at later
    omega

/-- Two neighbours that touch, as one block. -/
theorem Regular.joined {left right : Interval} (first : Regular low high left)
    (second : Regular low high right) (touching : left.stop = right.start) :
    Regular low high ⟨left.start, left.length + right.length⟩ := by
  have below := second.below
  have stop : left.start + left.length = right.start := touching
  refine ⟨first.above, ?_, first.startAligned, Nat.dvd_add first.lengthAligned second.lengthAligned,
    fun someHeap => Nat.add_pos_left (first.positive someHeap) _⟩
  simp only
  lia

/-- Among disjoint blocks, two neighbours that touch become one. -/
theorem tiles_neighbours (left right : Interval) (touching : left.stop = right.start)
    (tiles : Tiles low high ((front ++ left :: right :: back) ++ live)) :
    Tiles low high ((front ++ ⟨left.start, left.length + right.length⟩ :: back) ++ live) := by
  refine (tiles_first front back live _).mpr ((tiles_joined left right _ touching).mp ?_)
  have moved := (tiles_first front (right :: back) live left).mp tiles
  exact moved.perm (List.Perm.cons left (List.perm_middle.append_right live))

/-- The new block touches the one behind, and both become one. -/
theorem Joined.touching {new next : Interval}
    (joined : Joined low high h front new (next :: back) live) (touching : new.stop = next.start) :
    Sound low high ((h.setLength (.block new.start) (new.length + next.length)).setNext
        (.block new.start) ((h.setLength (.block new.start)
          (new.length + next.length)).cells next.start).mnext)
      (front ++ ⟨new.start, new.length + next.length⟩ :: back) live := by
  obtain ⟨newRegular, others⟩ := (forall_mem_middle front (next :: back) new).mp joined.regular
  obtain ⟨nextRegular, others⟩ := (forall_mem_middle front back next).mp others
  refine ⟨joined.someAddress, joined.inWord, by simp [joined.minheap], by simp [joined.maxheap],
    ?_, ?_, ?_, tiles_neighbours new next touching joined.tiles⟩
  · have resized := joined.list.resize joined.distinct (new.length + next.length)
    have distinct : Distinct (front ++ ⟨new.start, new.length + next.length⟩ :: next :: back) := by
      have before := joined.distinct
      rw [Distinct, List.map_append, List.map_cons] at before ⊢
      exact before
    have shape : front ++ ⟨new.start, new.length + next.length⟩ :: next :: back =
        (front ++ [⟨new.start, new.length + next.length⟩]) ++ next :: back := by simp
    rw [shape] at resized distinct
    have unlinked := resized.unlink distinct
    rw [lastPointer_append, List.append_assoc, List.singleton_append] at unlinked
    exact unlinked
  · refine joined.separated.remove.insert joined.before ?_
    intro right inBack
    have later := joined.separated.neighbours.2 right inBack
    unfold Interval.stop at later touching ⊢
    simp only
    lia
  · exact (forall_mem_middle front back _).mpr ⟨newRegular.joined nextRegular touching, others⟩

/-- After the last step of `freemem` the heap is sound again. -/
theorem Joined.merge {new : Interval} (joined : Joined low high h front new back live) :
    ∃ rest, Sound low high (h.merge (.block new.start) (firstAddress back)) rest live := by
  have newRegular := ((forall_mem_middle front back new).mp joined.regular).1
  obtain ⟨_, sameLength⟩ := joined.list.header
  have below := newRegular.below
  have inWord := joined.inWord
  unfold Heap.merge
  simp only [Heap.address, Heap.read, sameLength]
  rw [word_of_lt (by omega)]
  cases back with
  | nil =>
    have notNull : ¬ new.start + new.length = firstAddress [] := by
      have someBytes := joined.someBytes
      have atEnd : firstAddress [] = 0 := rfl
      lia
    rw [if_neg notNull]
    exact ⟨_, joined.someAddress, joined.inWord, joined.minheap, joined.maxheap, joined.list,
      joined.separated.insert joined.before (by simp), joined.regular, joined.tiles⟩
  | cons next back =>
    split
    case isTrue touching =>
      have shape : front ++ new :: next :: back = (front ++ [new]) ++ next :: back := by simp
      have nextList := joined.list
      rw [shape] at nextList
      obtain ⟨_, nextLength⟩ := nextList.header
      have isFirst : firstAddress (next :: back) = next.start := rfl
      have nextBelow := (joined.regular next (List.mem_append_right _
        (List.mem_cons_of_mem _ List.mem_cons_self))).below
      have sum : word (new.length + next.length) = new.length + next.length :=
        word_of_lt (by lia)
      rw [isFirst, nextLength, sum]
      exact ⟨_, joined.touching touching⟩
    case isFalse apart =>
      have notTouching : new.stop ≠ next.start := apart
      have reaches := joined.behind next List.mem_cons_self
      refine ⟨_, joined.someAddress, joined.inWord, joined.minheap, joined.maxheap, joined.list,
        joined.separated.insert joined.before ?_, joined.regular, joined.tiles⟩
      intro right inBack
      rcases List.mem_cons.mp inBack with rfl | inRest
      · lia
      · have := joined.separated.neighbours.2 right inRest
        have := start_le_stop next
        lia

/-- A block in use, as a free one. -/
theorem regular_of_live {blocks : List Interval} {new : Interval}
    (sound : Sound low high h blocks (new :: live)) (someBytes : 0 < new.length)
    (startAligned : 8 ∣ new.start) (lengthAligned : 8 ∣ new.length) : Regular low high new := by
  obtain ⟨above, below⟩ := sound.tiles.inside (List.mem_append_right _ List.mem_cons_self) someBytes
  exact ⟨above, below, startAligned, lengthAligned, fun _ => someBytes⟩

/-- The new block grows the one before. -/
theorem Sound.grow {last new : Interval}
    (sound : Sound low high h (front ++ last :: back) (new :: live)) (regular : Regular low high new)
    (someBytes : 0 < new.length) (touching : last.stop = new.start)
    (behind : ∀ right ∈ back, new.stop ≤ right.start) :
    Joined low high (h.setLength (.block last.start) (last.length + new.length)) front
      ⟨last.start, last.length + new.length⟩ back live := by
  obtain ⟨lastRegular, others⟩ := (forall_mem_middle front back last).mp sound.regular
  have distinct := distinct_of_separated sound.separated
  have stop : (Interval.mk last.start (last.length + new.length)).stop = new.stop := by
    unfold Interval.stop at touching ⊢
    simp only
    lia
  refine ⟨sound.someAddress, sound.inWord, by simp [sound.minheap], by simp [sound.maxheap],
    sound.list.resize distinct _, sound.separated.remove, sound.separated.neighbours.1, stop ▸ behind,
    Nat.add_pos_right _ someBytes, (forall_mem_middle front back _).mpr
      ⟨lastRegular.joined regular touching, others⟩, tiles_neighbours last new touching ?_⟩
  have shape : front ++ last :: new :: back = (front ++ [last]) ++ new :: back := by simp
  have flat : front ++ last :: back = (front ++ [last]) ++ back := by simp
  rw [shape]
  refine (tiles_first (front ++ [last]) back live new).mpr ?_
  rw [← flat]
  exact (tiles_second _ live new).mp sound.tiles

/-- It is linked in where it does not touch the one before. -/
theorem Sound.insert {new : Interval} (sound : Sound low high h (front ++ back) (new :: live))
    (regular : Regular low high new) (someBytes : 0 < new.length)
    (before : ∀ left ∈ front, left.stop < new.start)
    (behind : ∀ right ∈ back, new.stop ≤ right.start) :
    Joined low high (((h.setNext (.block new.start) (firstAddress back)).setLength
      (.block new.start) new.length).setNext (lastPointer front) new.start) front new back live := by
  have someBlock : new.start ≠ null := by
    have := sound.someAddress
    have := regular.above
    unfold null
    lia
  have fresh : ∀ other ∈ front ++ back, other.start ≠ new.start := by
    intro other member
    rcases List.mem_append.mp member with inFront | inBack
    · have := before other inFront
      have := start_le_stop other
      omega
    · have later := behind other inBack
      unfold Interval.stop at later
      omega
  exact ⟨sound.someAddress, sound.inWord, by simp [sound.minheap], by simp [sound.maxheap],
    sound.list.link (distinct_of_separated sound.separated) someBlock fresh, sound.separated, before,
    behind, someBytes, (forall_mem_middle front back new).mpr ⟨regular, sound.regular⟩,
    (tiles_first front back live new).mpr ((tiles_second _ live new).mp sound.tiles)⟩

/-- The new block is in the list after the first step. -/
theorem Sound.link {new : Interval} (sound : Sound low high h (front ++ back) (new :: live))
    (regular : Regular low high new) (someBytes : 0 < new.length)
    (before : ∀ left ∈ front, left.stop ≤ new.start)
    (behind : ∀ right ∈ back, new.stop ≤ right.start) :
    ∃ front' new' h', h.link (lastPointer front) (firstAddress back) (h.top (lastPointer front))
        new.start new.length = (.block new'.start, h') ∧
      Joined low high h' front' new' back live := by
  have above := regular.above
  have below := regular.below
  have someAddress := sound.someAddress
  have inWord := sound.inWord
  unfold Heap.link
  rcases List.eq_nil_or_concat front with rfl | ⟨front, last, rfl⟩
  · have notNull : ¬ h.top (lastPointer []) = new.start := by
      have atNull : h.top (lastPointer []) = 0 := rfl
      lia
    rw [if_neg notNull]
    exact ⟨[], new, _, rfl, sound.insert regular someBytes (by simp) behind⟩
  · rw [List.concat_eq_append] at sound before ⊢
    have shape : (front ++ [last]) ++ back = front ++ last :: back := by simp
    have soundHere := sound
    rw [shape] at soundHere
    have lastBefore := before last (List.mem_append_right _ (List.mem_singleton.mpr rfl))
    rw [soundHere.top_append]
    split
    case isTrue touching =>
      have sum : word ((h.read (lastPointer (front ++ [last]))).mlength + new.length) =
          last.length + new.length := by
        rw [lastPointer_append, Heap.read, soundHere.list.header.2]
        unfold Interval.stop at touching
        exact word_of_lt (by lia)
      rw [sum, lastPointer_append]
      exact ⟨front, ⟨last.start, last.length + new.length⟩, _, rfl,
        soundHere.grow regular someBytes touching behind⟩
    case isFalse apart =>
      refine ⟨_, new, _, rfl, sound.insert regular someBytes ?_ behind⟩
      intro left inFront
      rcases List.mem_append.mp inFront with inBefore | isLast
      · have := soundHere.separated.neighbours.1 left inBefore
        have := start_le_stop last
        lia
      · rw [List.mem_singleton.mp isLast]
        lia

/-- A block in use is given back. -/
theorem Sound.freemem {blocks : List Interval} {new : Interval} {nbytes : Nat}
    (sound : Sound low high h blocks (new :: live)) (someBytes : 0 < nbytes)
    (small : nbytes ≤ 0xFFFFFFF8) (startAligned : 8 ∣ new.start)
    (size : new.length = roundmb nbytes) :
    ∃ h' rest, freemem h new.start nbytes = some (ok, h') ∧ Sound low high h' rest live := by
  obtain ⟨atLeast, _, lengthAligned, _⟩ := roundmb_bounds small
  have positive : 0 < new.length := by lia
  have regular := regular_of_live sound positive startAligned (size ▸ lengthAligned)
  have above := regular.above
  have below := regular.below
  have inWord := sound.inWord
  have inHeap : ¬ (nbytes = 0 ∨ new.start < h.minheap ∨ h.maxheap < new.start) := by
    rw [sound.minheap, sound.maxheap]
    lia
  obtain ⟨front, back, rfl, lower, upper, stopped⟩ := sound.walk new.start
  have apart : ∀ block ∈ front ++ back, Disjoint new.points block.points := fun block member =>
    (List.pairwise_cons.mp ((tiles_second _ live new).mp sound.tiles).disjoint).1 block
      (List.mem_append_left _ member)
  have before : ∀ left ∈ front, left.stop ≤ new.start := fun left inFront =>
    stop_le_start_of_disjoint (apart left (List.mem_append_left _ inFront)).symm positive
      (Nat.le_of_lt (lower left inFront))
  have behind : ∀ right ∈ back, new.stop ≤ right.start := fun right inBack =>
    stop_le_start_of_disjoint (apart right (List.mem_append_right _ inBack))
      ((sound.regular right (List.mem_append_right _ inBack)).positive (by lia))
      (upper right inBack)
  have noOverlap : ¬ ((∃ left ∈ front, new.start < left.stop) ∨
      ∃ right ∈ back, right.start < new.stop) := by
    rintro (⟨left, inFront, overlaps⟩ | ⟨right, inBack, overlaps⟩)
    · exact Nat.not_lt.mpr (before left inFront) overlaps
    · exact Nat.not_lt.mpr (behind right inBack) overlaps
  have stopInWord : new.stop < 2 ^ 32 := by
    unfold Interval.stop
    lia
  have passes := fun found => noOverlap ((sound.check new stopInWord).mp found)
  obtain ⟨front', new', h', linked, joined⟩ :=
    (sound.raise new.length).link regular positive before behind
  obtain ⟨rest, sound'⟩ := joined.merge
  refine ⟨_, rest, ?_, sound'⟩
  have sameTop : (h.raise new.length).top (lastPointer front) = h.top (lastPointer front) := by
    cases lastPointer front with
    | memlist => rfl
    | block address => rw [Heap.top, Heap.top, raise_cells]
  rw [sameTop, size] at linked
  rw [size] at passes
  unfold HeapMemory.freemem
  rw [if_neg inHeap]
  simp only [stopped, Option.bind_eq_bind, Option.bind_some]
  rw [if_neg passes, linked]

end Freeing

end Xinu.HeapMemory
