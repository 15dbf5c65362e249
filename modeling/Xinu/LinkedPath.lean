import Mathlib

/-!
# Paths through a pointer structure

A structure of cells with one pointer each is a partial function from a cell to
its successor. A list of cells is a path of it when the pointer of each cell leads
to the next one; where the pointer of the last cell leads is left open.

Three updates keep a path without repetitions: a cell added behind the last one, a
cell bypassed, and a cell moved behind the last one.
-/

namespace Xinu.LinkedPath

universe u
variable {α : Type u}

/-- The neighbours in a list. -/
def links : List α → List (α × α)
  | first :: second :: rest => (first, second) :: links (second :: rest)
  | [_] => []
  | [] => []

/-- The pointer of every cell leads to the next one. -/
def Linked (next : α → Option α) (path : List α) : Prop :=
  ∀ link ∈ links path, next link.1 = some link.2

/-- The links of two lists that share a cell. -/
theorem links_append (front back : List α) (cell : α) :
    links (front ++ cell :: back) = links (front ++ [cell]) ++ links (cell :: back) := by
  induction front with
  | nil => simp [links]
  | cons first front inductionHypothesis =>
    cases front with
    | nil => simp [links]
    | cons second front =>
      simp only [List.cons_append, links] at inductionHypothesis ⊢
      rw [inductionHypothesis]

/-- A link begins at a cell that is not the last one. -/
theorem links_first (front : List α) (last : α) (link : α × α)
    (member : link ∈ links (front ++ [last])) : link.1 ∈ front := by
  induction front with
  | nil => simp [links] at member
  | cons first front inductionHypothesis =>
    cases front with
    | nil =>
      simp only [List.cons_append, List.nil_append, links, List.mem_singleton] at member
      simp [member]
    | cons second front =>
      simp only [List.cons_append, links, List.mem_cons] at member inductionHypothesis ⊢
      rcases member with rfl | later
      · exact Or.inl rfl
      · exact Or.inr (inductionHypothesis (by simpa using later))

/-- A link ends at a cell that is not the first one. -/
theorem links_second (first : α) (rest : List α) (link : α × α)
    (member : link ∈ links (first :: rest)) : link.2 ∈ rest := by
  induction rest generalizing first with
  | nil => simp [links] at member
  | cons second rest inductionHypothesis =>
    simp only [links, List.mem_cons] at member
    rcases member with rfl | later
    · exact List.mem_cons_self
    · exact List.mem_cons_of_mem _ (inductionHypothesis second later)

/-- Every cell but the first one has a predecessor. -/
theorem links_exists (first : α) (rest : List α) (cell : α) (member : cell ∈ rest) :
    ∃ front before back, first :: rest = front ++ before :: cell :: back := by
  induction rest generalizing first with
  | nil => cases member
  | cons second rest inductionHypothesis =>
    rcases List.mem_cons.mp member with rfl | later
    · exact ⟨[], first, rest, rfl⟩
    · obtain ⟨front, before, back, split⟩ := inductionHypothesis second later
      exact ⟨first :: front, before, back, by rw [split]; rfl⟩

/-- A link splits the list between its two cells. -/
theorem links_split (path : List α) (link : α × α) (member : link ∈ links path) :
    ∃ front back, path = front ++ link.1 :: link.2 :: back := by
  induction path with
  | nil => cases member
  | cons first rest inductionHypothesis =>
    cases rest with
    | nil => cases member
    | cons second rest =>
      simp only [links, List.mem_cons] at member
      rcases member with rfl | later
      · exact ⟨[], rest, rfl⟩
      · obtain ⟨front, back, split⟩ := inductionHypothesis later
        exact ⟨first :: front, back, by rw [split]; rfl⟩

/-- Both cells of a link are cells of the list. -/
theorem links_member (path : List α) (link : α × α) (member : link ∈ links path) :
    link.1 ∈ path ∧ link.2 ∈ path := by
  obtain ⟨front, back, split⟩ := links_split path link member
  rw [split]
  simp

/-- Without repetitions a cell has one predecessor. -/
theorem links_before_unique (path : List α) (distinct : path.Nodup) (left right cell : α)
    (leftLink : (left, cell) ∈ links path) (rightLink : (right, cell) ∈ links path) :
    left = right := by
  induction path with
  | nil => cases leftLink
  | cons first rest inductionHypothesis =>
    cases rest with
    | nil => cases leftLink
    | cons second rest =>
      obtain ⟨_, restDistinct⟩ := List.nodup_cons.mp distinct
      have outside := (List.nodup_cons.mp restDistinct).1
      simp only [links, List.mem_cons, Prod.mk.injEq] at leftLink rightLink
      rcases leftLink with ⟨rfl, rfl⟩ | leftLater
      · rcases rightLink with ⟨rfl, _⟩ | rightLater
        · rfl
        · exact absurd (links_second _ _ _ rightLater) outside
      · rcases rightLink with ⟨rfl, rfl⟩ | rightLater
        · exact absurd (links_second _ _ _ leftLater) outside
        · exact inductionHypothesis restDistinct leftLater rightLater

/-- The links of a list with a cell added behind the last one. -/
theorem mem_links_appended (front : List α) (last cell : α) (link : α × α) :
    link ∈ links (front ++ [last, cell]) ↔ link ∈ links (front ++ [last]) ∨ link = (last, cell) := by
  rw [links_append, List.mem_append]
  simp [links]

/-- The links of a list with a cell bypassed: those that do not touch the cell, and
the one across it. -/
theorem mem_links_removed (front back : List α) (before cell : α)
    (distinct : (front ++ before :: cell :: back).Nodup) (link : α × α) :
    link ∈ links (front ++ before :: back) ↔
      (link ∈ links (front ++ before :: cell :: back) ∧ link.1 ≠ cell ∧ link.2 ≠ cell) ∨
        ∃ after, back.head? = some after ∧ link = (before, after) := by
  obtain ⟨_, tailDistinct, apart⟩ := List.nodup_append.mp distinct
  obtain ⟨beforeOutside, restDistinct⟩ := List.nodup_cons.mp tailDistinct
  obtain ⟨cellOutside, _⟩ := List.nodup_cons.mp restDistinct
  have beforeApart : before ≠ cell := fun same => beforeOutside (same ▸ List.mem_cons_self)
  have frontApart : ∀ other ∈ front ++ [before], other ≠ cell := by
    intro other member same
    rcases List.mem_append.mp member with inFront | isBefore
    · exact apart other inFront cell (by simp) same
    · exact beforeApart ((List.mem_singleton.mp isBefore).symm.trans same)
  rw [links_append front back, links_append front (cell :: back), List.mem_append, List.mem_append]
  constructor
  · rintro (old | new)
    · have cells := links_member _ _ old
      exact Or.inl ⟨Or.inl old, frontApart _ cells.1, frontApart _ cells.2⟩
    · cases back with
      | nil => cases new
      | cons after back =>
        simp only [links, List.mem_cons] at new
        rcases new with rfl | later
        · exact Or.inr ⟨after, rfl, rfl⟩
        · have cells := links_member _ _ later
          refine Or.inl ⟨Or.inr ?_, fun same => cellOutside (same ▸ cells.1),
            fun same => cellOutside (same ▸ cells.2)⟩
          exact List.mem_cons_of_mem _ (List.mem_cons_of_mem _ later)
  · rintro (⟨old | new, notFirst, notSecond⟩ | ⟨after, isFirst, rfl⟩)
    · exact Or.inl old
    · right
      cases back with
      | nil =>
        simp only [links, List.mem_singleton] at new
        exact absurd (by rw [new]) notSecond
      | cons after back =>
        simp only [links, List.mem_cons] at new ⊢
        rcases new with rfl | rfl | later
        · exact absurd rfl notSecond
        · exact absurd rfl notFirst
        · exact Or.inr later
    · cases back with
      | nil => cases isFirst
      | cons other back =>
        cases Option.some.inj isFirst
        exact Or.inr List.mem_cons_self

section Update

variable [DecidableEq α] {next : α → Option α}

/-- Bypassing a cell is erasing it. -/
theorem erase_split {first before cell : α} {rest front back : List α}
    (split : first :: rest = front ++ before :: cell :: back)
    (distinct : (first :: rest).Nodup) : first :: rest.erase cell = front ++ before :: back := by
  have notFirst : first ≠ cell := by
    rintro rfl
    rw [split] at distinct
    cases front with
    | nil =>
      obtain ⟨rfl, _⟩ := List.cons.inj split
      simp at distinct
    | cons other front =>
      obtain ⟨rfl, _⟩ := List.cons.inj split
      simp at distinct
  rw [← List.erase_cons_tail (by simpa using notFirst), split]
  rw [split] at distinct
  obtain ⟨_, tailDistinct, apart⟩ := List.nodup_append.mp distinct
  have outside : cell ∉ front := fun member => apart cell member cell (by simp) rfl
  have different : before ≠ cell := by
    rintro rfl
    simp at tailDistinct
  rw [List.erase_append_right _ outside, List.erase_cons_tail (by simpa using different),
    List.erase_cons_head]

/-- The pointer of the last cell is not part of the path. -/
theorem Linked.update_last {front : List α} {last : α} (linked : Linked next (front ++ [last]))
    (distinct : (front ++ [last]).Nodup) (value : Option α) :
    Linked (Function.update next last value) (front ++ [last]) := by
  intro link member
  have begins := links_first front last link member
  have apart : link.1 ≠ last := by
    rintro rfl
    exact (List.disjoint_of_nodup_append distinct) begins (List.mem_singleton.mpr rfl)
  rw [Function.update_of_ne apart]
  exact linked link member

/-- A cell added behind the last one. -/
theorem Linked.appended {front : List α} {last : α} (linked : Linked next (front ++ [last]))
    (distinct : (front ++ [last]).Nodup) (cell : α) :
    Linked (Function.update next last (some cell)) (front ++ [last, cell]) := by
  intro link member
  rw [links_append, List.mem_append] at member
  rcases member with old | new
  · exact linked.update_last distinct (some cell) link old
  · simp only [links, List.mem_singleton] at new
    rw [new, Function.update_self]

/-- A cell bypassed. -/
theorem Linked.removed {front back : List α} {before cell : α}
    (linked : Linked next (front ++ before :: cell :: back))
    (distinct : (front ++ before :: cell :: back).Nodup) :
    Linked (Function.update next before (next cell)) (front ++ before :: back) := by
  have parts := links_append front (cell :: back) before
  have frontLinked : Linked next (front ++ [before]) := fun link member =>
    linked link (by rw [parts]; exact List.mem_append_left _ member)
  have frontDistinct : (front ++ [before]).Nodup := by
    refine distinct.sublist ?_
    exact (List.Sublist.refl front).append (List.singleton_sublist.mpr List.mem_cons_self)
  have beforeOutside : ∀ other ∈ back, other ≠ before := by
    intro other member same
    have nodup := (List.nodup_append.mp distinct).2.1
    exact (List.nodup_cons.mp nodup).1 (same ▸ List.mem_cons_of_mem cell member)
  intro link member
  rw [links_append, List.mem_append] at member
  rcases member with old | new
  · exact frontLinked.update_last frontDistinct (next cell) link old
  · cases back with
    | nil => cases new
    | cons second rest =>
      have step : next cell = some second := linked (cell, second) (by
        rw [parts]
        exact List.mem_append_right _ (List.mem_cons_of_mem _ List.mem_cons_self))
      simp only [links, List.mem_cons] at new
      rcases new with rfl | later
      · rw [Function.update_self, step]
      · have begins : link.1 ∈ second :: rest := by
          obtain ⟨left, right, split⟩ := links_split (second :: rest) link later
          rw [split]
          simp
        rw [Function.update_of_ne (beforeOutside _ begins)]
        exact linked link (by
          rw [parts]
          exact List.mem_append_right _
            (List.mem_cons_of_mem _ (List.mem_cons_of_mem _ later)))

/-- A cell moved behind the last one. -/
theorem Linked.moved {front middle : List α} {before cell last : α}
    (linked : Linked next (front ++ before :: cell :: (middle ++ [last])))
    (distinct : (front ++ before :: cell :: (middle ++ [last])).Nodup) :
    Linked (Function.update (Function.update next before (next cell)) last (some cell))
      (front ++ before :: (middle ++ [last, cell])) := by
  have bypassed := linked.removed distinct
  have shape : front ++ before :: (middle ++ [last]) = (front ++ before :: middle) ++ [last] := by
    simp
  have bypassedDistinct : ((front ++ before :: middle) ++ [last]).Nodup := by
    rw [← shape]
    refine distinct.sublist ?_
    exact (List.Sublist.refl front).append ((List.sublist_cons_self cell _).cons_cons before)
  rw [shape] at bypassed
  have added := bypassed.appended bypassedDistinct cell
  simpa using added

end Update

/-- Every cell but the last leads to a later cell. -/
theorem Linked.successor {first last : α} {rest : List α} (linked : Linked next (first :: rest))
    (ends : (first :: rest).getLast? = some last) {cell : α} (member : cell ∈ first :: rest)
    (before : cell ≠ last) : ∃ after ∈ rest, next cell = some after := by
  induction rest generalizing first with
  | nil =>
    cases Option.some.inj ends
    exact absurd (List.mem_singleton.mp member) before
  | cons second rest inductionHypothesis =>
    rcases List.mem_cons.mp member with rfl | later
    · exact ⟨second, List.mem_cons_self, linked (cell, second) List.mem_cons_self⟩
    · obtain ⟨after, inRest, leads⟩ := inductionHypothesis
        (fun link inLinks => linked link (List.mem_cons_of_mem _ inLinks)) (by simpa using ends) later
      exact ⟨after, List.mem_cons_of_mem _ inRest, leads⟩

end Xinu.LinkedPath
