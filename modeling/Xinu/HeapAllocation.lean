import Xinu.FreeList

/-!
# Memory taken from the heap

Each loop cuts the free list in two. `getmem` stops at the first block that is long enough
and `getstk` remembers the last one. What they do behind their loops is then a change of
one block among the others: it is taken out, or a smaller one takes its place.

The heap is sound when the free blocks are separated multiples of eight bytes and tile it
together with the blocks in use. Both calls keep it so, with one more block in use.
-/

namespace Xinu.HeapMemory

open Intervals

theorem word_of_lt {value : Nat} (small : value < 2 ^ 32) : word value = value :=
  Nat.mod_eq_of_lt small

theorem minus_of_le {left right : Nat} (ordered : right ≤ left) (small : left < 2 ^ 32) :
    minus left right = left - right := by
  unfold minus
  lia

/-- A mask clears the last bits of a word. -/
theorem mask_low {bits value : Nat} (few : bits ≤ 32) (small : value < 2 ^ 32) :
    value &&& ((2 ^ (32 - bits) - 1) <<< bits) = value / 2 ^ bits * 2 ^ bits := by
  have cleared : value / 2 ^ bits * 2 ^ bits = (value >>> bits) <<< bits := by
    rw [Nat.shiftRight_eq_div_pow, Nat.shiftLeft_eq]
  rw [cleared]
  refine Nat.eq_of_testBit_eq fun bit => ?_
  rw [Nat.testBit_and, Nat.testBit_shiftLeft, Nat.testBit_shiftLeft, Nat.testBit_shiftRight,
    Nat.testBit_two_pow_sub_one]
  rcases Nat.lt_or_ge bit bits with low | high
  · simp [Nat.not_le.mpr low]
  · have same : bits + (bit - bits) = bit := by lia
    rw [same]
    rcases Nat.lt_or_ge bit 32 with inside | outside
    · have inMask : bit - bits < 32 - bits := by lia
      simp [high, inMask]
    · have beyond : value.testBit bit = false :=
        Nat.testBit_lt_two_pow (Nat.lt_of_lt_of_le small (Nat.pow_le_pow_right (by decide) outside))
      simp [beyond]

/-- The next multiple of eight. -/
theorem roundmb_eq {nbytes : Nat} (small : nbytes ≤ 0xFFFFFFF8) :
    roundmb nbytes = (nbytes + 7) / 8 * 8 := by
  have inWord : 7 + nbytes < 2 ^ 32 := by omega
  have mask : 0xFFFFFFF8 = (2 ^ (32 - 3) - 1) <<< 3 := by decide
  rw [roundmb, word_of_lt inWord, mask, mask_low (by decide) inWord, Nat.add_comm]
  rfl

theorem roundmb_bounds {nbytes : Nat} (small : nbytes ≤ 0xFFFFFFF8) :
    nbytes ≤ roundmb nbytes ∧ roundmb nbytes < nbytes + 8 ∧ 8 ∣ roundmb nbytes ∧
      roundmb nbytes ≤ 0xFFFFFFF8 := by
  rw [roundmb_eq small]
  omega

theorem roundmb_idempotent {nbytes : Nat} (small : nbytes ≤ 0xFFFFFFF8) :
    roundmb (roundmb nbytes) = roundmb nbytes := by
  have bounds := roundmb_bounds small
  rw [roundmb_eq bounds.2.2.2]
  lia

section Loops

variable {h : Heap} {front back : List Interval} {curr : Nat}

/-- One turn of a loop passes a block. -/
theorem passed {block : Interval} (reaches : h.Reaches front curr)
    (chain : Chain h.cells curr (block :: back) null) :
    h.Reaches (front ++ [block]) (h.cells block.start).mnext ∧
      Chain h.cells (h.cells block.start).mnext back null := by
  obtain ⟨isFirst, someBlock, sameLength, tail⟩ := chain
  rw [isFirst] at tail
  refine ⟨(chain_append front [block]).mpr ⟨curr, reaches, isFirst, someBlock, sameLength, ?_⟩, tail⟩
  rw [isFirst]
  rfl

/-- `getmem` comes to the end when no block is long enough. -/
theorem search_fails (nbytes : Nat) (count : Nat) (chain : Chain h.cells curr back null)
    (enough : back.length < count) (short : ∀ block ∈ back, block.length < nbytes) (prev : Pointer) :
    h.search nbytes count prev curr = some (syserr, h) := by
  induction back generalizing prev curr count with
  | nil =>
    obtain ⟨count, rfl⟩ := Nat.exists_eq_succ_of_ne_zero (Nat.ne_zero_of_lt enough)
    have atEnd : curr = null := chain
    rw [Heap.search, if_pos atEnd]
  | cons block rest inductionHypothesis =>
    obtain ⟨count, rfl⟩ := Nat.exists_eq_succ_of_ne_zero (Nat.ne_zero_of_lt enough)
    obtain ⟨_, someBlock, sameLength, tail⟩ := chain
    have here := short block List.mem_cons_self
    rw [Heap.search, if_neg someBlock, sameLength, if_neg (by lia)]
    exact inductionHypothesis count tail (Nat.lt_of_succ_lt_succ enough)
      (fun other inRest => short other (List.mem_cons_of_mem _ inRest)) _

/-- `getmem` stops at a block that is long enough. -/
theorem search_finds (nbytes : Nat) (count : Nat) (reaches : h.Reaches front curr)
    (chain : Chain h.cells curr back null) (enough : back.length < count)
    (fits : ∃ block ∈ back, nbytes ≤ block.length) :
    ∃ left block right, back = left ++ block :: right ∧ nbytes ≤ block.length ∧
      h.search nbytes count (lastPointer front) curr =
        some (h.takeBottom nbytes (lastPointer (front ++ left)) block.start) := by
  induction back generalizing front curr count with
  | nil => simp at fits
  | cons block rest inductionHypothesis =>
    obtain ⟨count, rfl⟩ := Nat.exists_eq_succ_of_ne_zero (Nat.ne_zero_of_lt enough)
    have isFirst : curr = block.start := chain.1
    have someBlock : curr ≠ null := chain.2.1
    have sameLength : (h.cells curr).mlength = block.length := chain.2.2.1
    rw [Heap.search, if_neg someBlock, sameLength]
    by_cases here : nbytes ≤ block.length
    · refine ⟨[], block, rest, rfl, here, ?_⟩
      rw [if_pos (by lia), List.append_nil, isFirst]
    · obtain ⟨further, tail⟩ := passed reaches chain
      have later : ∃ other ∈ rest, nbytes ≤ other.length := by simpa [here] using fits
      obtain ⟨left, found, right, split, isEnough, taken⟩ :=
        inductionHypothesis count further tail (Nat.lt_of_succ_lt_succ enough) later
      rw [lastPointer_append] at taken
      refine ⟨block :: left, found, right, ?_, isEnough, ?_⟩
      · rw [split, List.cons_append]
      · rw [if_neg (by lia), isFirst, taken, List.append_assoc, List.singleton_append]

/-- `getstk` remembers nothing when no block is long enough. -/
theorem scan_fails (nbytes : Nat) (count : Nat) (fits : Nat) (fitsprev prev : Pointer)
    (chain : Chain h.cells curr back null) (enough : back.length < count)
    (short : ∀ block ∈ back, block.length < nbytes) :
    h.scan nbytes count prev curr fits fitsprev = some (fits, fitsprev) := by
  induction back generalizing prev curr count with
  | nil =>
    obtain ⟨count, rfl⟩ := Nat.exists_eq_succ_of_ne_zero (Nat.ne_zero_of_lt enough)
    have atEnd : curr = null := chain
    rw [Heap.scan, if_pos atEnd]
  | cons block rest inductionHypothesis =>
    obtain ⟨count, rfl⟩ := Nat.exists_eq_succ_of_ne_zero (Nat.ne_zero_of_lt enough)
    obtain ⟨_, someBlock, sameLength, tail⟩ := chain
    have here := short block List.mem_cons_self
    rw [Heap.scan, if_neg someBlock, sameLength, if_neg (by lia)]
    exact inductionHypothesis count _ tail (Nat.lt_of_succ_lt_succ enough)
      fun other inRest => short other (List.mem_cons_of_mem _ inRest)

/-- `getstk` remembers the last block that is long enough. -/
theorem scan_finds (nbytes : Nat) (count : Nat) (fits : Nat) (fitsprev : Pointer)
    (reaches : h.Reaches front curr) (chain : Chain h.cells curr back null)
    (enough : back.length < count) (some_ : ∃ block ∈ back, nbytes ≤ block.length) :
    ∃ left block right, back = left ++ block :: right ∧ nbytes ≤ block.length ∧
      h.scan nbytes count (lastPointer front) curr fits fitsprev =
        some (block.start, lastPointer (front ++ left)) := by
  induction back generalizing front curr count fits fitsprev with
  | nil => simp at some_
  | cons block rest inductionHypothesis =>
    obtain ⟨count, rfl⟩ := Nat.exists_eq_succ_of_ne_zero (Nat.ne_zero_of_lt enough)
    have isFirst : curr = block.start := chain.1
    have someBlock : curr ≠ null := chain.2.1
    have sameLength : (h.cells curr).mlength = block.length := chain.2.2.1
    obtain ⟨further, tail⟩ := passed reaches chain
    have fewer := Nat.lt_of_succ_lt_succ enough
    rw [Heap.scan, if_neg someBlock, sameLength, isFirst]
    by_cases later : ∃ other ∈ rest, nbytes ≤ other.length
    · have found := fun fits fitsprev => inductionHypothesis count fits fitsprev further tail fewer later
      simp only [lastPointer_append, List.append_assoc, List.singleton_append] at found
      split
      case isTrue =>
        obtain ⟨left, last, right, split, isEnough, result⟩ := found block.start (lastPointer front)
        exact ⟨block :: left, last, right, by rw [split, List.cons_append], isEnough, result⟩
      case isFalse =>
        obtain ⟨left, last, right, split, isEnough, result⟩ := found fits fitsprev
        exact ⟨block :: left, last, right, by rw [split, List.cons_append], isEnough, result⟩
    · have here : nbytes ≤ block.length := by simpa [later] using some_
      have none_ : ∀ other ∈ rest, other.length < nbytes := by simpa using later
      refine ⟨[], block, rest, rfl, here, ?_⟩
      rw [if_pos here, List.append_nil]
      exact scan_fails nbytes count _ _ _ tail fewer none_

end Loops

/-- A free block: a multiple of eight bytes somewhere in the heap. Only in a heap without
any memory it is empty. -/
structure Regular (low high : Nat) (block : Interval) : Prop where
  above : low ≤ block.start
  below : block.start + block.length ≤ high
  startAligned : 8 ∣ block.start
  lengthAligned : 8 ∣ block.length
  positive : low < high → 0 < block.length

/-- The free blocks and some others, which are in use, make up the heap. -/
structure Sound (low high : Nat) (h : Heap) (blocks live : List Interval) : Prop where
  someAddress : 0 < low
  inWord : high ≤ 0xFFFFFFF8
  minheap : h.minheap = low
  maxheap : h.maxheap = high
  list : FreeList h blocks
  separated : Separated blocks
  regular : ∀ block ∈ blocks, Regular low high block
  tiles : Tiles low high (blocks ++ live)

section Taking

variable {low high nbytes : Nat} {h h' : Heap} {front back live : List Interval} {block : Interval}

/-- No loop makes too many turns. -/
theorem Sound.length_lt {blocks : List Interval} (sound : Sound low high h blocks live) :
    blocks.length < turns := by
  refine Nat.lt_succ_of_le (sound.separated.length_le (2 ^ 32) fun block member => ?_)
  have below := (sound.regular block member).below
  have := sound.inWord
  lia

/-- The header of a block. -/
theorem FreeList.header (list : FreeList h (front ++ block :: back)) :
    block.start ≠ null ∧ (h.cells block.start).mlength = block.length := by
  obtain ⟨next, _, isFirst, someBlock, sameLength, _⟩ :=
    (freeList_append h front (block :: back)).mp list
  exact ⟨isFirst ▸ someBlock, isFirst ▸ sameLength⟩

/-- A whole block is taken. -/
theorem Sound.takeWhole (sound : Sound low high h (front ++ block :: back) live)
    (minheap : h'.minheap = h.minheap) (maxheap : h'.maxheap = h.maxheap)
    (list : FreeList h' (front ++ back)) : Sound low high h' (front ++ back) (block :: live) where
  someAddress := sound.someAddress
  inWord := sound.inWord
  minheap := minheap.trans sound.minheap
  maxheap := maxheap.trans sound.maxheap
  list := list
  separated := sound.separated.remove
  regular := ((forall_mem_middle front back block).mp sound.regular).2
  tiles := (tiles_second _ live block).mpr ((tiles_first front back live block).mp sound.tiles)

/-- A part of a block is taken and the rest stays in its place. -/
theorem Sound.takePart (sound : Sound low high h (front ++ block :: back) live)
    (minheap : h'.minheap = h.minheap) (maxheap : h'.maxheap = h.maxheap) (rest part : Interval)
    (list : FreeList h' (front ++ rest :: back)) (regular : Regular low high rest)
    (sum : block.length = rest.length + part.length)
    (sides : (part.start = block.start ∧ part.stop = rest.start) ∨
      (rest.start = block.start ∧ rest.stop = part.start)) :
    Sound low high h' (front ++ rest :: back) (part :: live) := by
  have within : block.start ≤ rest.start ∧ rest.stop ≤ block.stop := by
    unfold Interval.stop at sides ⊢
    lia
  refine ⟨sound.someAddress, sound.inWord, minheap.trans sound.minheap, maxheap.trans sound.maxheap,
    list, sound.separated.shrink within.1 within.2, (forall_mem_middle front back rest).mpr
      ⟨regular, ((forall_mem_middle front back block).mp sound.regular).2⟩, ?_⟩
  have whole := (tiles_first front back live block).mp sound.tiles
  have pieces : Tiles low high (part :: rest :: ((front ++ back) ++ live)) := by
    rcases sides with ⟨isStart, touching⟩ | ⟨isStart, touching⟩
    · refine (tiles_joined part rest _ touching).mpr ?_
      rw [isStart, Nat.add_comm, ← sum]
      exact whole
    · refine Tiles.perm ?_ (List.Perm.swap part rest _)
      refine (tiles_joined rest part _ touching).mpr ?_
      rw [isStart, ← sum]
      exact whole
  refine (tiles_second _ live part).mpr (pieces.perm (List.Perm.cons part ?_))
  exact (List.perm_middle.append_right live).symm

/-- The bottom of a block is taken. -/
theorem Sound.takeBottom (sound : Sound low high h (front ++ block :: back) live)
    (someBytes : 0 < nbytes) (aligned : 8 ∣ nbytes) (fits : nbytes ≤ block.length) :
    ∃ h' rest, h.takeBottom nbytes (lastPointer front) block.start = (block.start, h') ∧
      Sound low high h' rest (⟨block.start, nbytes⟩ :: live) := by
  have distinct := distinct_of_separated sound.separated
  have regular := ((forall_mem_middle front back block).mp sound.regular).1
  obtain ⟨_, sameLength⟩ := sound.list.header
  unfold Heap.takeBottom
  split
  case isTrue whole =>
    have same : block = ⟨block.start, nbytes⟩ := by rw [← whole, sameLength]
    refine ⟨_, _, rfl, same ▸ sound.takeWhole ?_ ?_ ((sound.list.unlink distinct).lessen nbytes)⟩
    · simp
    · simp
  case isFalse larger =>
    have short : nbytes < block.length := by lia
    have below := regular.below
    have inWord := sound.inWord
    have leftover : word (block.start + nbytes) = block.start + nbytes := word_of_lt (by lia)
    have apart : ∀ other ∈ front ++ block :: back, other.start ≠ block.start + nbytes := by
      obtain ⟨before, behind⟩ := sound.separated.neighbours
      intro other member
      rcases List.mem_append.mp member with inFront | inRest
      · have := before other inFront
        have := start_le_stop other
        lia
      · rcases List.mem_cons.mp inRest with rfl | inBack
        · lia
        · have later := behind other inBack
          unfold Interval.stop at later
          lia
    have kept : (h.setNext (lastPointer front) (block.start + nbytes)).cells block.start =
        h.cells block.start := redirect_elsewhere front _ _ distinct.before
    have keptLength : (((h.setNext (lastPointer front) (block.start + nbytes)).setNext
        (.block (block.start + nbytes)) (h.cells block.start).mnext).cells block.start).mlength =
        block.length := by
      rw [setNext_block_cells, Function.update_of_ne (by lia), kept, sameLength]
    simp only [leftover, kept, keptLength, setLength_setNext]
    have replaced := sound.list.replace distinct (block.start + nbytes) (block.length - nbytes)
      (Nat.ne_of_gt (Nat.add_pos_right _ someBytes)) apart
      ⟨(h.cells block.start).mnext, minus block.length nbytes⟩ rfl (minus_of_le fits (by lia))
    refine ⟨_, _, rfl, sound.takePart ?_ ?_ ⟨block.start + nbytes, block.length - nbytes⟩
      ⟨block.start, nbytes⟩ (replaced.lessen nbytes) ⟨?_, ?_, ?_, ?_, fun _ => ?_⟩ ?_
      (Or.inl ⟨rfl, rfl⟩)⟩
    · simp
    · simp
    · exact Nat.le_trans regular.above (Nat.le_add_right _ _)
    · simp only
      lia
    · exact Nat.dvd_add regular.startAligned aligned
    · exact Nat.dvd_sub regular.lengthAligned aligned
    · exact Nat.sub_pos_of_lt short
    · exact (Nat.sub_add_cancel fits).symm

/-- The top of a block is taken. -/
theorem Sound.takeTop (sound : Sound low high h (front ++ block :: back) live)
    (aligned : 8 ∣ nbytes) (fits : nbytes ≤ block.length) :
    ∃ h' rest, h.takeTop nbytes block.start (lastPointer front) =
        (block.start + (block.length - nbytes), h') ∧
      Sound low high h' rest (⟨block.start + (block.length - nbytes), nbytes⟩ :: live) := by
  have distinct := distinct_of_separated sound.separated
  have regular := ((forall_mem_middle front back block).mp sound.regular).1
  obtain ⟨_, sameLength⟩ := sound.list.header
  have below := regular.below
  have inWord := sound.inWord
  unfold Heap.takeTop
  rw [sameLength]
  split
  case isTrue whole =>
    subst whole
    rw [Nat.sub_self, Nat.add_zero]
    exact ⟨_, _, rfl, sound.takeWhole (by simp) (by simp) (sound.list.unlink distinct)⟩
  case isFalse larger =>
    have short : nbytes < block.length := by lia
    have difference : minus block.length nbytes = block.length - nbytes := minus_of_le fits (by lia)
    have keptLength : ((h.setLength (.block block.start) (block.length - nbytes)).cells
        block.start).mlength = block.length - nbytes := by
      rw [setLength_block_cells, Function.update_self]
    simp only [difference, keptLength]
    rw [word_of_lt (by lia)]
    refine ⟨_, _, rfl, sound.takePart (by simp) (by simp) ⟨block.start, block.length - nbytes⟩
      ⟨block.start + (block.length - nbytes), nbytes⟩ (sound.list.resize distinct _)
      ⟨regular.above, ?_, regular.startAligned, ?_, fun _ => ?_⟩ ?_ (Or.inr ⟨rfl, rfl⟩)⟩
    · simp only
      lia
    · exact Nat.dvd_sub regular.lengthAligned aligned
    · exact Nat.sub_pos_of_lt short
    · exact (Nat.sub_add_cancel fits).symm

/-- `memlist.mlength` does not matter. -/
theorem Sound.lessen {blocks : List Interval} (sound : Sound low high h blocks live)
    (nbytes : Nat) : Sound low high (h.lessen nbytes) blocks live :=
  ⟨sound.someAddress, sound.inWord, by simp [sound.minheap], by simp [sound.maxheap],
    sound.list.lessen nbytes, sound.separated, sound.regular, sound.tiles⟩

theorem Sound.raise {blocks : List Interval} (sound : Sound low high h blocks live)
    (nbytes : Nat) : Sound low high (h.raise nbytes) blocks live :=
  ⟨sound.someAddress, sound.inWord, by simp [sound.minheap], by simp [sound.maxheap],
    sound.list.raise nbytes, sound.separated, sound.regular, sound.tiles⟩

/-- A size that does not fit before it is rounded does not fit afterwards, and a size that fits still fits. -/
theorem Sound.rounded {blocks : List Interval} (sound : Sound low high h blocks live)
    (small : nbytes ≤ 0xFFFFFFF8) (member : block ∈ blocks) :
    roundmb nbytes ≤ block.length ↔ nbytes ≤ block.length := by
  have aligned := (sound.regular block member).lengthAligned
  rw [roundmb_eq small]
  omega

/-- `getmem` fails when no free block is long enough. -/
theorem Sound.getmem_fails {blocks : List Interval} (sound : Sound low high h blocks live)
    (small : nbytes ≤ 0xFFFFFFF8) (short : ∀ block ∈ blocks, block.length < nbytes) :
    getmem h nbytes = some (syserr, h) := by
  unfold HeapMemory.getmem
  by_cases nothing : nbytes = 0
  · rw [if_pos nothing]
  · rw [if_neg nothing]
    refine search_fails _ turns sound.list sound.length_lt (fun block member => ?_) _
    have same := sound.rounded small member
    have := short block member
    lia

/-- `getmem` takes a part of a free block that is long enough. -/
theorem Sound.getmem_takes {blocks : List Interval} (sound : Sound low high h blocks live)
    (someBytes : 0 < nbytes) (small : nbytes ≤ 0xFFFFFFF8)
    (some_ : ∃ block ∈ blocks, nbytes ≤ block.length) :
    ∃ address h' rest, getmem h nbytes = some (address, h') ∧ address ≠ syserr ∧ 8 ∣ address ∧
      Sound low high h' rest (⟨address, roundmb nbytes⟩ :: live) := by
  obtain ⟨atLeast, _, aligned, _⟩ := roundmb_bounds small
  have reaches : h.Reaches [] h.memlist.mnext := rfl
  have roundedFits : ∃ block ∈ blocks, roundmb nbytes ≤ block.length := by
    obtain ⟨block, member, fits⟩ := some_
    exact ⟨block, member, (sound.rounded small member).mpr fits⟩
  have searched := search_finds (roundmb nbytes) turns reaches sound.list sound.length_lt roundedFits
  rw [lastPointer_nil] at searched
  obtain ⟨front, block, back, rfl, fits, taken⟩ := searched
  obtain ⟨h', rest, result, sound'⟩ :=
    sound.takeBottom (Nat.lt_of_lt_of_le someBytes atLeast) aligned fits
  have regular := ((forall_mem_middle front back block).mp sound.regular).1
  have below := regular.below
  have inWord := sound.inWord
  refine ⟨block.start, h', rest, ?_, ?_, regular.startAligned, sound'⟩
  · unfold HeapMemory.getmem
    rw [if_neg (Nat.ne_of_gt someBytes), taken, List.nil_append, result]
  · unfold syserr
    lia

/-- `getmem` fails or takes a part of a free block. -/
theorem Sound.getmem {blocks : List Interval} (sound : Sound low high h blocks live)
    (someBytes : 0 < nbytes) (small : nbytes ≤ 0xFFFFFFF8) :
    getmem h nbytes = some (syserr, h) ∨ ∃ address h' rest, getmem h nbytes = some (address, h') ∧
      address ≠ syserr ∧ 8 ∣ address ∧
      Sound low high h' rest (⟨address, roundmb nbytes⟩ :: live) := by
  by_cases some_ : ∃ block ∈ blocks, nbytes ≤ block.length
  · exact Or.inr (sound.getmem_takes someBytes small some_)
  · exact Or.inl (sound.getmem_fails small (by simpa using some_))

/-- `getstk` fails when no free block is long enough. -/
theorem Sound.getstk_fails {blocks : List Interval} (sound : Sound low high h blocks live)
    (small : nbytes ≤ 0xFFFFFFF8) (short : ∀ block ∈ blocks, block.length < nbytes) :
    getstk h nbytes = some (syserr, h) := by
  unfold HeapMemory.getstk
  by_cases nothing : nbytes = 0
  · rw [if_pos nothing]
  · have scanned := scan_fails (roundmb nbytes) turns null (.block null) .memlist sound.list
      sound.length_lt fun block member => by
        have same := sound.rounded small member
        have := short block member
        omega
    simp [nothing, scanned]

/-- `getstk` takes a part of a free block that is long enough, and returns the address of its last
word. -/
theorem Sound.getstk_takes {blocks : List Interval} (sound : Sound low high h blocks live)
    (someBytes : 0 < nbytes) (small : nbytes ≤ 0xFFFFFFF8)
    (some_ : ∃ block ∈ blocks, nbytes ≤ block.length) :
    ∃ start h' rest, getstk h nbytes = some (start + roundmb nbytes - 4, h') ∧
      start + roundmb nbytes - 4 ≠ syserr ∧ 8 ∣ start ∧
      Sound low high h' rest (⟨start, roundmb nbytes⟩ :: live) := by
  obtain ⟨atLeast, _, aligned, _⟩ := roundmb_bounds small
  have reaches : h.Reaches [] h.memlist.mnext := rfl
  have roundedFits : ∃ block ∈ blocks, roundmb nbytes ≤ block.length := by
    obtain ⟨block, member, fits⟩ := some_
    exact ⟨block, member, (sound.rounded small member).mpr fits⟩
  have scanned := scan_finds (roundmb nbytes) turns null (.block null) reaches sound.list
    sound.length_lt roundedFits
  rw [lastPointer_nil] at scanned
  obtain ⟨front, block, back, rfl, fits, found⟩ := scanned
  obtain ⟨h', rest, result, sound'⟩ := sound.takeTop aligned fits
  have regular := ((forall_mem_middle front back block).mp sound.regular).1
  have below := regular.below
  have inWord := sound.inWord
  have startAligned : 8 ∣ block.start + (block.length - roundmb nbytes) :=
    Nat.dvd_add regular.startAligned (Nat.dvd_sub regular.lengthAligned aligned)
  rw [List.nil_append] at found
  have last : minus (word (block.start + (block.length - roundmb nbytes) + roundmb nbytes)) 4 =
      block.start + (block.length - roundmb nbytes) + roundmb nbytes - 4 := by
    rw [word_of_lt (by lia)]
    exact minus_of_le (by lia) (by omega)
  refine ⟨block.start + (block.length - roundmb nbytes), h'.lessen (roundmb nbytes), rest, ?_, ?_,
    startAligned, sound'.lessen _⟩
  · unfold HeapMemory.getstk
    rw [if_neg (Nat.ne_of_gt someBytes)]
    simp only [found, Option.bind_eq_bind, Option.bind_some, if_neg sound.list.header.1, result, last]
  · unfold syserr
    lia

/-- `getstk` fails or takes a part of a free block. -/
theorem Sound.getstk {blocks : List Interval} (sound : Sound low high h blocks live)
    (someBytes : 0 < nbytes) (small : nbytes ≤ 0xFFFFFFF8) :
    getstk h nbytes = some (syserr, h) ∨ ∃ start h' rest,
      getstk h nbytes = some (start + roundmb nbytes - 4, h') ∧
      start + roundmb nbytes - 4 ≠ syserr ∧ 8 ∣ start ∧
      Sound low high h' rest (⟨start, roundmb nbytes⟩ :: live) := by
  by_cases some_ : ∃ block ∈ blocks, nbytes ≤ block.length
  · exact Or.inr (sound.getstk_takes someBytes small some_)
  · exact Or.inl (sound.getstk_fails small (by simpa using some_))

end Taking

end Xinu.HeapMemory
