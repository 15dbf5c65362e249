import Xinu.HeapMemory
import Xinu.Intervals

/-!
# The list of free blocks

The headers in memory stand for a list of intervals. A chain leads from one address
through the headers of some blocks to another address; the free list leads from `memlist`
to `NULL`. It is cut where a loop stands: what was passed ends in the pointer `prev`, and
the rest begins at the address in its `mnext`.

A new address in `mnext` of that pointer replaces the rest, and what is written outside of
the headers of a chain leaves it alone. All changes of the three calls to the list are
made of these two facts.
-/

namespace Xinu.HeapMemory

open Intervals

/-- The headers of blocks, from an address to an address. -/
def Chain (cells : Nat → MemBlk) : Nat → List Interval → Nat → Prop
  | first, [], last => first = last
  | first, block :: rest, last =>
    first = block.start ∧ first ≠ null ∧ (cells first).mlength = block.length ∧
      Chain cells (cells first).mnext rest last

/-- From `memlist` through some blocks to an address. -/
def Heap.Reaches (h : Heap) (front : List Interval) (next : Nat) : Prop :=
  Chain h.cells h.memlist.mnext front next

/-- The free blocks. -/
def FreeList (h : Heap) (blocks : List Interval) : Prop := h.Reaches blocks null

/-- The pointer behind which the rest of a list stands. -/
def lastPointer (front : List Interval) : Pointer :=
  match front.getLast? with
  | none => .memlist
  | some block => .block block.start

/-- The address at which a list begins. -/
def firstAddress : List Interval → Nat
  | [] => null
  | block :: _ => block.start

@[simp] theorem lastPointer_nil : lastPointer [] = .memlist := rfl

@[simp] theorem lastPointer_append (front : List Interval) (block : Interval) :
    lastPointer (front ++ [block]) = .block block.start := by
  simp [lastPointer]

section Fields

variable (h : Heap) (address next length nbytes : Nat) (pointer : Pointer)

@[simp] theorem setNext_block_cells : (h.setNext (.block address) next).cells =
    Function.update h.cells address ⟨next, (h.cells address).mlength⟩ := rfl

@[simp] theorem setLength_block_cells : (h.setLength (.block address) length).cells =
    Function.update h.cells address ⟨(h.cells address).mnext, length⟩ := rfl

@[simp] theorem setLength_memlist_cells : (h.setLength .memlist length).cells = h.cells := rfl

@[simp] theorem setLength_memlist_mnext : (h.setLength .memlist length).memlist.mnext =
    h.memlist.mnext := rfl

@[simp] theorem lessen_cells : (h.lessen nbytes).cells = h.cells :=
  setLength_memlist_cells h _

@[simp] theorem lessen_mnext : (h.lessen nbytes).memlist.mnext = h.memlist.mnext :=
  setLength_memlist_mnext h _

@[simp] theorem raise_cells : (h.raise nbytes).cells = h.cells :=
  setLength_memlist_cells h _

@[simp] theorem raise_mnext : (h.raise nbytes).memlist.mnext = h.memlist.mnext :=
  setLength_memlist_mnext h _

/-- Both fields of a header are written. -/
theorem setLength_setNext : (h.setNext (.block address) next).setLength (.block address) length =
    h.write ⟨next, length⟩ (.block address) := by
  simp [Heap.setNext, Heap.setLength, Heap.write, Heap.read]

@[simp] theorem write_minheap (contents : MemBlk) :
    (h.write contents pointer).minheap = h.minheap := by
  cases pointer <;> rfl

@[simp] theorem write_maxheap (contents : MemBlk) :
    (h.write contents pointer).maxheap = h.maxheap := by
  cases pointer <;> rfl

@[simp] theorem setNext_minheap : (h.setNext pointer next).minheap = h.minheap :=
  write_minheap ..

@[simp] theorem setNext_maxheap : (h.setNext pointer next).maxheap = h.maxheap :=
  write_maxheap ..

@[simp] theorem setLength_minheap : (h.setLength pointer length).minheap = h.minheap :=
  write_minheap ..

@[simp] theorem setLength_maxheap : (h.setLength pointer length).maxheap = h.maxheap :=
  write_maxheap ..

@[simp] theorem lessen_minheap : (h.lessen nbytes).minheap = h.minheap := setLength_minheap ..

@[simp] theorem lessen_maxheap : (h.lessen nbytes).maxheap = h.maxheap := setLength_maxheap ..

@[simp] theorem raise_minheap : (h.raise nbytes).minheap = h.minheap := setLength_minheap ..

@[simp] theorem raise_maxheap : (h.raise nbytes).maxheap = h.maxheap := setLength_maxheap ..

end Fields

section Chains

variable {cells other : Nat → MemBlk} {first last : Nat}

/-- A chain can be cut anywhere. -/
theorem chain_append (front back : List Interval) : Chain cells first (front ++ back) last ↔
    ∃ middle, Chain cells first front middle ∧ Chain cells middle back last := by
  induction front generalizing first with
  | nil => simp [Chain]
  | cons block front inductionHypothesis =>
    simp only [List.cons_append, Chain, inductionHypothesis]
    constructor
    · rintro ⟨isFirst, someBlock, sameLength, middle, before, behind⟩
      exact ⟨middle, ⟨isFirst, someBlock, sameLength, before⟩, behind⟩
    · rintro ⟨middle, ⟨isFirst, someBlock, sameLength, before⟩, behind⟩
      exact ⟨isFirst, someBlock, sameLength, middle, before, behind⟩

/-- A chain depends on the headers of its blocks only. -/
theorem Chain.congr {blocks : List Interval} (chain : Chain cells first blocks last)
    (same : ∀ block ∈ blocks, other block.start = cells block.start) :
    Chain other first blocks last := by
  induction blocks generalizing first with
  | nil => exact chain
  | cons block rest inductionHypothesis =>
    obtain ⟨isFirst, someBlock, sameLength, tail⟩ := chain
    have here : other first = cells first := by
      rw [isFirst]
      exact same block List.mem_cons_self
    refine ⟨isFirst, someBlock, here ▸ sameLength, ?_⟩
    rw [here]
    exact inductionHypothesis tail fun later inRest => same later (List.mem_cons_of_mem _ inRest)

/-- What is written elsewhere leaves a chain alone. -/
theorem Chain.update {blocks : List Interval} (chain : Chain cells first blocks last)
    (address : Nat) (contents : MemBlk) (elsewhere : ∀ block ∈ blocks, block.start ≠ address) :
    Chain (Function.update cells address contents) first blocks last :=
  chain.congr fun block member => Function.update_of_ne (elsewhere block member) ..

/-- A chain to `NULL` begins where its first block does. -/
theorem Chain.firstAddress {blocks : List Interval} (chain : Chain cells first blocks null) :
    first = firstAddress blocks := by
  cases blocks with
  | nil => exact chain
  | cons block rest => exact chain.1

/-- The blocks of a chain to `NULL` are determined by the memory. -/
theorem Chain.unique {blocks others : List Interval} (chain : Chain cells first blocks null)
    (second : Chain cells first others null) : blocks = others := by
  induction blocks generalizing first others with
  | nil =>
    cases others with
    | nil => rfl
    | cons block rest => exact absurd chain second.2.1
  | cons block rest inductionHypothesis =>
    cases others with
    | nil => exact absurd second chain.2.1
    | cons block' rest' =>
      obtain ⟨isFirst, _, sameLength, tail⟩ := chain
      obtain ⟨isFirst', _, sameLength', tail'⟩ := second
      have same : block = block' := by
        cases block
        cases block'
        simp only [Interval.mk.injEq]
        exact ⟨isFirst.symm.trans isFirst', sameLength.symm.trans sameLength'⟩
      rw [same, inductionHypothesis tail tail']

end Chains

/-- The free list cut behind some blocks. -/
theorem freeList_append (h : Heap) (front back : List Interval) :
    FreeList h (front ++ back) ↔
      ∃ next, h.Reaches front next ∧ Chain h.cells next back null :=
  chain_append front back

/-- `memlist.mlength` is not part of the list. -/
theorem FreeList.lessen {h : Heap} {blocks : List Interval} (list : FreeList h blocks)
    (nbytes : Nat) : FreeList (h.lessen nbytes) blocks := by
  rw [FreeList, Heap.Reaches, lessen_cells, lessen_mnext]
  exact list

theorem FreeList.raise {h : Heap} {blocks : List Interval} (list : FreeList h blocks)
    (nbytes : Nat) : FreeList (h.raise nbytes) blocks := by
  rw [FreeList, Heap.Reaches, raise_cells, raise_mnext]
  exact list

/-- Blocks that begin at different addresses. -/
def Distinct (blocks : List Interval) : Prop := (blocks.map Interval.start).Nodup

theorem Distinct.sublist {blocks others : List Interval} (distinct : Distinct blocks)
    (shorter : others.Sublist blocks) : Distinct others :=
  List.Nodup.sublist (shorter.map Interval.start) distinct

theorem distinct_of_separated {blocks : List Interval} (separated : Separated blocks) :
    Distinct blocks :=
  separated.ascending.imp fun less => Nat.ne_of_lt less

/-- A block among others. -/
theorem distinct_middle (front back : List Interval) (block : Interval) :
    Distinct (front ++ block :: back) ↔ Distinct (front ++ back) ∧
      ∀ other ∈ front ++ back, other.start ≠ block.start := by
  have moved : Distinct (front ++ block :: back) ↔ Distinct (block :: (front ++ back)) :=
    (List.perm_middle.map Interval.start).nodup_iff
  rw [moved, Distinct, List.map_cons, List.nodup_cons, and_comm]
  refine and_congr Iff.rfl ⟨fun outside other member same => outside ?_, fun apart member => ?_⟩
  · rw [← same]
    exact List.mem_map_of_mem member
  · obtain ⟨other, inside, same⟩ := List.mem_map.mp member
    exact apart other inside same

section Changes

variable {h : Heap} {front back : List Interval} {next : Nat} {block : Interval}

theorem Distinct.before (distinct : Distinct (front ++ block :: back)) :
    ∀ left ∈ front, left.start ≠ block.start := fun left inFront =>
  ((distinct_middle front back block).mp distinct).2 left (List.mem_append_left _ inFront)

theorem Distinct.behind (distinct : Distinct (front ++ block :: back)) :
    ∀ right ∈ back, right.start ≠ block.start := fun right inBack =>
  ((distinct_middle front back block).mp distinct).2 right (List.mem_append_right _ inBack)

/-- A new address in the pointer behind some blocks. -/
theorem Heap.Reaches.redirect (reaches : h.Reaches front next) (distinct : Distinct front)
    (other : Nat) : (h.setNext (lastPointer front) other).Reaches front other := by
  rcases List.eq_nil_or_concat front with rfl | ⟨before, block, rfl⟩
  · rfl
  · rw [List.concat_eq_append] at reaches distinct ⊢
    rw [lastPointer_append]
    obtain ⟨middle, passed, here⟩ := (chain_append before [block]).mp reaches
    obtain ⟨isFirst, someBlock, sameLength, _⟩ := here
    refine (chain_append before [block]).mpr ⟨middle, ?_, isFirst, someBlock, ?_, ?_⟩
    · exact passed.update _ _ distinct.before
    · rw [setNext_block_cells, isFirst, Function.update_self, ← isFirst]
      exact sameLength
    · rw [setNext_block_cells, isFirst, Function.update_self]
      rfl

/-- The memory outside of these blocks is not changed by that. -/
theorem redirect_elsewhere (front : List Interval) (other address : Nat)
    (elsewhere : ∀ left ∈ front, left.start ≠ address) :
    (h.setNext (lastPointer front) other).cells address = h.cells address := by
  rcases List.eq_nil_or_concat front with rfl | ⟨before, block, rfl⟩
  · rfl
  · rw [List.concat_eq_append] at elsewhere ⊢
    rw [lastPointer_append, setNext_block_cells]
    exact Function.update_of_ne
      (elsewhere block (List.mem_append_right _ (List.mem_singleton.mpr rfl))).symm ..

theorem redirect_behind (distinct : Distinct (front ++ back)) (other : Nat)
    (chain : Chain h.cells next back null) :
    Chain (h.setNext (lastPointer front) other).cells next back null := by
  refine chain.congr fun right inBack => redirect_elsewhere front other right.start ?_
  intro left inFront same
  rw [Distinct, List.map_append] at distinct
  exact List.disjoint_of_nodup_append distinct (List.mem_map_of_mem inFront)
    (same ▸ List.mem_map_of_mem inBack)

/-- A block is taken out of the list. -/
theorem FreeList.unlink (list : FreeList h (front ++ block :: back))
    (distinct : Distinct (front ++ block :: back)) :
    FreeList (h.setNext (lastPointer front) (h.cells block.start).mnext) (front ++ back) := by
  obtain ⟨next, reaches, isFirst, _, _, chain⟩ := (freeList_append h front (block :: back)).mp list
  have others := ((distinct_middle front back block).mp distinct).1
  rw [isFirst] at chain
  refine (freeList_append _ front back).mpr ⟨_, reaches.redirect
    (others.sublist (List.sublist_append_left front back)) _, redirect_behind others _ chain⟩

/-- The header of a block gets another length. -/
theorem FreeList.resize (list : FreeList h (front ++ block :: back))
    (distinct : Distinct (front ++ block :: back)) (length : Nat) :
    FreeList (h.setLength (.block block.start) length) (front ++ ⟨block.start, length⟩ :: back) := by
  obtain ⟨next, reaches, isFirst, someBlock, _, chain⟩ :=
    (freeList_append h front (block :: back)).mp list
  rw [isFirst] at chain
  refine (freeList_append _ front _).mpr ⟨next, ?_, isFirst, someBlock, ?_, ?_⟩
  · exact Chain.update reaches _ _ distinct.before
  · rw [setLength_block_cells, isFirst, Function.update_self]
  · rw [setLength_block_cells, isFirst, Function.update_self]
    exact chain.update _ _ distinct.behind

/-- A block takes the place of another one. -/
theorem FreeList.replace (list : FreeList h (front ++ block :: back))
    (distinct : Distinct (front ++ block :: back)) (address length : Nat) (someBlock : address ≠ null)
    (fresh : ∀ other ∈ front ++ block :: back, other.start ≠ address) (contents : MemBlk)
    (sameNext : contents.mnext = (h.cells block.start).mnext) (newLength : contents.mlength = length) :
    FreeList ((h.setNext (lastPointer front) address).write contents (.block address))
      (front ++ ⟨address, length⟩ :: back) := by
  obtain ⟨next, reaches, isFirst, _, _, chain⟩ := (freeList_append h front (block :: back)).mp list
  have others := ((distinct_middle front back block).mp distinct).1
  rw [isFirst] at chain
  refine (freeList_append _ front _).mpr ⟨address, ?_, rfl, someBlock, ?_, ?_⟩
  · refine Chain.update (reaches.redirect
      (others.sublist (List.sublist_append_left front back)) address) _ _ ?_
    exact fun left inFront => fresh left (List.mem_append_left _ inFront)
  · exact (congrArg MemBlk.mlength (Function.update_self ..)).trans newLength
  · have header : (Function.update (h.setNext (lastPointer front) address).cells address contents
        address).mnext = (h.cells block.start).mnext :=
      (congrArg MemBlk.mnext (Function.update_self ..)).trans sameNext
    refine header ▸ Chain.update (redirect_behind others address chain) _ _ ?_
    exact fun right inBack => fresh right
      (List.mem_append_right _ (List.mem_cons_of_mem _ inBack))

/-- A new block is linked in. -/
theorem FreeList.link (list : FreeList h (front ++ back)) (distinct : Distinct (front ++ back))
    (someBlock : block.start ≠ null) (fresh : ∀ other ∈ front ++ back, other.start ≠ block.start) :
    FreeList (((h.setNext (.block block.start) (firstAddress back)).setLength (.block block.start)
      block.length).setNext (lastPointer front) block.start) (front ++ block :: back) := by
  obtain ⟨next, reaches, chain⟩ := (freeList_append h front back).mp list
  have before : ∀ left ∈ front, left.start ≠ block.start :=
    fun left inFront => fresh left (List.mem_append_left _ inFront)
  have behind : ∀ right ∈ back, right.start ≠ block.start :=
    fun right inBack => fresh right (List.mem_append_right _ inBack)
  generalize written : (h.setNext (.block block.start) (firstAddress back)).setLength
    (.block block.start) block.length = h'
  have header : h'.cells block.start = ⟨firstAddress back, block.length⟩ := by
    rw [← written, setLength_block_cells, Function.update_self, setNext_block_cells,
      Function.update_self]
  have reaches' : h'.Reaches front next := by
    rw [← written]
    exact Chain.update (Chain.update reaches _ _ before) _ _ before
  have chain' : Chain h'.cells next back null := by
    rw [← written]
    exact Chain.update (Chain.update chain _ _ behind) _ _ behind
  have isFirst := chain.firstAddress
  refine (freeList_append _ front _).mpr ⟨block.start, reaches'.redirect
    (distinct.sublist (List.sublist_append_left front back)) _, rfl, someBlock, ?_, ?_⟩
  · rw [redirect_elsewhere front _ _ before, header]
  · rw [redirect_elsewhere front _ _ before, header, ← isFirst]
    exact redirect_behind distinct _ chain'

end Changes

end Xinu.HeapMemory
