import Xinu.CIntegers

/-!
# Words and linked cells in byte memory

A word is four bytes, the least significant one first. A list of cells is linked through the
first word of each cell, which holds the address of the next one or zero. Cells of one size
that stand side by side are linked in their order by a single walk.
-/

namespace Xinu.WordMemory

open CIntegers

/-- The word at an address. -/
def load (memory : Memory) (address : Nat) : UInt32 := (word32 memory address).toUInt32

/-- The memory with another word at an address. -/
def store (memory : Memory) (address : Nat) (word : UInt32) : Memory :=
  copy memory address (byteOf word.toNat) 4

section Words

variable {memory other : Memory} {address place : Nat} {word : UInt32}

theorem load_congr (same : ∀ k < 4, memory (address + k) = other (address + k)) :
    load memory address = load other address := by
  unfold load
  rw [word32_congr memory other address address same]

@[simp] theorem load_store_same : load (store memory address word) address = word := by
  have stored : ∀ k < 4, store memory address word (address + k) =
      byteOf word.toInt32.toUInt32.toNat k := by
    intro k below
    exact copy_inside memory (byteOf word.toNat) address 4 k below
  unfold load
  rw [word32_of_bytes _ address word.toInt32 stored]
  rfl

theorem store_outside {byte : Nat} (outside : byte < address ∨ address + 4 ≤ byte) :
    store memory address word byte = memory byte :=
  copy_outside memory _ address 4 byte outside

theorem load_store_apart (apart : place + 4 ≤ address ∨ address + 4 ≤ place) :
    load (store memory address word) place = load memory place :=
  load_congr fun k below => store_outside (by lia)

end Words

/-- Cells of one size, side by side. -/
def cells (base stride : Nat) : Nat → List Nat
  | 0 => []
  | count + 1 => base :: cells (base + stride) stride count

section Cells

variable {base stride count cell other : Nat}

theorem mem_cells : cell ∈ cells base stride count ↔ ∃ index < count, cell = base + index * stride := by
  induction count generalizing base with
  | zero => simp [cells]
  | succ count inductionHypothesis =>
    rw [cells, List.mem_cons, inductionHypothesis]
    constructor
    · rintro (rfl | ⟨index, below, rfl⟩)
      · exact ⟨0, by omega, by lia⟩
      · exact ⟨index + 1, by omega, by rw [Nat.succ_mul]; lia⟩
    · rintro ⟨index, below, rfl⟩
      cases index with
      | zero => exact Or.inl (by lia)
      | succ index => exact Or.inr ⟨index, by omega, by rw [Nat.succ_mul]; lia⟩

@[simp] theorem length_cells : (cells base stride count).length = count := by
  induction count generalizing base with
  | zero => rfl
  | succ count inductionHypothesis => rw [cells, List.length_cons, inductionHypothesis]

theorem cells_bounds (member : cell ∈ cells base stride count) :
    base ≤ cell ∧ cell + stride ≤ base + count * stride := by
  obtain ⟨index, below, rfl⟩ := mem_cells.mp member
  have room : (index + 1) * stride ≤ count * stride := Nat.mul_le_mul_right stride below
  rw [Nat.succ_mul] at room
  lia

/-- Two cells are the same one or do not overlap. -/
theorem cells_apart (member : cell ∈ cells base stride count)
    (otherMember : other ∈ cells base stride count) (distinct : cell ≠ other) :
    cell + stride ≤ other ∨ other + stride ≤ cell := by
  obtain ⟨index, _, rfl⟩ := mem_cells.mp member
  obtain ⟨place, _, rfl⟩ := mem_cells.mp otherMember
  rcases Nat.lt_trichotomy index place with before | rfl | behind
  · have room : (index + 1) * stride ≤ place * stride := Nat.mul_le_mul_right stride before
    rw [Nat.succ_mul] at room
    exact Or.inl (by omega)
  · exact absurd rfl distinct
  · have room : (place + 1) * stride ≤ index * stride := Nat.mul_le_mul_right stride behind
    rw [Nat.succ_mul] at room
    exact Or.inr (by omega)

theorem cells_nodup (positive : 0 < stride) : (cells base stride count).Nodup := by
  induction count generalizing base with
  | zero => exact List.nodup_nil
  | succ count inductionHypothesis =>
    refine List.nodup_cons.mpr ⟨fun member => ?_, inductionHypothesis⟩
    have := (cells_bounds member).1
    omega

end Cells

/-- The cells linked from an address on. -/
def Chain (memory : Memory) : Nat → List Nat → Prop
  | first, [] => first = 0
  | first, cell :: rest => first = cell ∧ cell ≠ 0 ∧ Chain memory (load memory cell).toNat rest

section Chains

variable {memory after : Memory} {first cell : Nat} {chain : List Nat}

theorem Chain.congr (linked : Chain memory first chain)
    (same : ∀ cell ∈ chain, load after cell = load memory cell) : Chain after first chain := by
  induction chain generalizing first with
  | nil => exact linked
  | cons cell rest inductionHypothesis =>
    obtain ⟨here, real, later⟩ := linked
    refine ⟨here, real, ?_⟩
    rw [same cell List.mem_cons_self]
    exact inductionHypothesis later fun other member => same other (List.mem_cons_of_mem _ member)

/-- A cell is put in front. -/
theorem Chain.push (linked : Chain memory first chain) (real : cell ≠ 0) (inWord : first < 2 ^ 32)
    (apart : ∀ other ∈ chain, other + 4 ≤ cell ∨ cell + 4 ≤ other) :
    Chain (store memory cell (UInt32.ofNat first)) cell (cell :: chain) := by
  refine ⟨rfl, real, ?_⟩
  rw [load_store_same, UInt32.toNat_ofNat_of_lt' (by simpa using inWord)]
  exact linked.congr fun other member => load_store_apart (apart other member)

theorem Chain.first_lt (linked : Chain memory first chain) (inWord : ∀ cell ∈ chain, cell < 2 ^ 32) :
    first < 2 ^ 32 := by
  cases chain with
  | nil =>
    rw [show first = 0 from linked]
    decide
  | cons cell rest =>
    rw [linked.1]
    exact inWord cell List.mem_cons_self

end Chains

/-- Cells side by side are linked one by one, and the last one ends the chain. -/
def linkCells (stride : Nat) : Nat → Nat → Memory → Memory
  | 0, cell, memory => store memory cell 0
  | count + 1, cell, memory =>
    linkCells stride count (cell + stride) (store memory cell (UInt32.ofNat (cell + stride)))

section Linking

variable {memory : Memory} {stride cell : Nat}

theorem linkCells_outside (count : Nat) (wide : 4 ≤ stride) {byte : Nat}
    (outside : byte < cell ∨ cell + (count + 1) * stride ≤ byte) :
    linkCells stride count cell memory byte = memory byte := by
  induction count generalizing cell memory with
  | zero => exact store_outside (by lia)
  | succ count inductionHypothesis =>
    rw [Nat.succ_mul] at outside
    have room : stride ≤ (count + 1) * stride := Nat.le_mul_of_pos_left stride (by omega)
    rw [linkCells, inductionHypothesis (by omega), store_outside (by lia)]

theorem linkCells_chain (count : Nat) (wide : 4 ≤ stride) (real : cell ≠ 0)
    (inWord : cell + (count + 1) * stride ≤ 2 ^ 32) :
    Chain (linkCells stride count cell memory) cell (cells cell stride (count + 1)) := by
  induction count generalizing cell memory with
  | zero =>
    refine ⟨rfl, real, ?_⟩
    rw [linkCells, load_store_same]
    rfl
  | succ count inductionHypothesis =>
    rw [Nat.succ_mul] at inWord
    have room : stride ≤ (count + 1) * stride := Nat.le_mul_of_pos_left stride (by lia)
    refine ⟨rfl, real, ?_⟩
    have here : load (linkCells stride (count + 1) cell memory) cell =
        load (store memory cell (UInt32.ofNat (cell + stride))) cell :=
      load_congr fun k below => linkCells_outside count wide (by lia)
    rw [here, load_store_same, UInt32.toNat_ofNat_of_lt' (by simp only [UInt32.size]; omega)]
    exact inductionHypothesis (by omega) (by omega)

end Linking

end Xinu.WordMemory
