import Mathlib

/-!
# Things divided among lists

A family of lists divides the things of a kind among them when each thing stands in exactly one of the
lists, once. Elements move between two lists of the family: together these two hold the same elements as
before, and the others do not change.
-/

namespace Xinu.Partitions

variable {ι α : Type*}

/-- Every thing of a kind stands in exactly one list, once. -/
structure Divided (whole : α → Prop) (family : ι → List α) : Prop where
  distinct : ∀ i, (family i).Nodup
  apart : ∀ i j a, a ∈ family i → a ∈ family j → i = j
  covers : ∀ a, whole a ↔ ∃ i, a ∈ family i

section Divisions

variable {whole : α → Prop} {family other : ι → List α} {i j : ι} {a : α}

/-- Elements move between two lists. -/
theorem Divided.exchange (divided : Divided whole family) (twoLists : i ≠ j)
    (moved : (other i ++ other j).Perm (family i ++ family j))
    (rest : ∀ k, k ≠ i → k ≠ j → other k = family k) : Divided whole other := by
  have both : (family i ++ family j).Nodup := by
    refine List.nodup_append.mpr ⟨divided.distinct i, divided.distinct j, ?_⟩
    rintro a inFirst b inSecond rfl
    exact twoLists (divided.apart i j a inFirst inSecond)
  have after := moved.nodup_iff.mpr both
  have members : ∀ a, (a ∈ other i ∨ a ∈ other j) ↔ (a ∈ family i ∨ a ∈ family j) := by
    intro a
    rw [← List.mem_append, ← List.mem_append]
    exact moved.mem_iff
  rw [List.nodup_append] at after
  -- A list outside of the two shares no element with them, before and after.
  have outside : ∀ k a, k ≠ i → k ≠ j → a ∈ other k → a ∉ other i ∧ a ∉ other j := by
    intro k a notFirst notSecond inside
    rw [rest k notFirst notSecond] at inside
    have neither : ¬ (a ∈ other i ∨ a ∈ other j) := by
      rw [members]
      rintro (inFirst | inSecond)
      · exact notFirst (divided.apart k i a inside inFirst)
      · exact notSecond (divided.apart k j a inside inSecond)
    exact not_or.mp neither
  refine ⟨fun k => ?_, fun k m a inK inM => ?_, fun a => ?_⟩
  · by_cases first : k = i
    · exact first ▸ after.1
    · by_cases second : k = j
      · exact second ▸ after.2.1
      · rw [rest k first second]
        exact divided.distinct k
  · by_cases kFirst : k = i
    · by_cases mFirst : m = i
      · exact kFirst.trans mFirst.symm
      · by_cases mSecond : m = j
        · exact absurd rfl (after.2.2 a (kFirst ▸ inK) a (mSecond ▸ inM))
        · exact absurd (kFirst ▸ inK) (outside m a mFirst mSecond inM).1
    · by_cases kSecond : k = j
      · by_cases mFirst : m = i
        · exact absurd rfl (after.2.2 a (mFirst ▸ inM) a (kSecond ▸ inK))
        · by_cases mSecond : m = j
          · exact kSecond.trans mSecond.symm
          · exact absurd (kSecond ▸ inK) (outside m a mFirst mSecond inM).2
      · by_cases mFirst : m = i
        · exact absurd (mFirst ▸ inM) (outside k a kFirst kSecond inK).1
        · by_cases mSecond : m = j
          · exact absurd (mSecond ▸ inM) (outside k a kFirst kSecond inK).2
          · rw [rest k kFirst kSecond] at inK
            rw [rest m mFirst mSecond] at inM
            exact divided.apart k m a inK inM
  · rw [divided.covers]
    constructor
    · rintro ⟨k, inside⟩
      by_cases here : a ∈ family i ∨ a ∈ family j
      · rcases (members a).mpr here with inFirst | inSecond
        · exact ⟨i, inFirst⟩
        · exact ⟨j, inSecond⟩
      · have notFirst : k ≠ i := fun same => here (Or.inl (same ▸ inside))
        have notSecond : k ≠ j := fun same => here (Or.inr (same ▸ inside))
        exact ⟨k, (rest k notFirst notSecond).symm ▸ inside⟩
    · rintro ⟨k, inside⟩
      by_cases here : a ∈ other i ∨ a ∈ other j
      · rcases (members a).mp here with inFirst | inSecond
        · exact ⟨i, inFirst⟩
        · exact ⟨j, inSecond⟩
      · have notFirst : k ≠ i := fun same => here (Or.inl (same ▸ inside))
        have notSecond : k ≠ j := fun same => here (Or.inr (same ▸ inside))
        exact ⟨k, rest k notFirst notSecond ▸ inside⟩

/-- Where all other lists are empty, the lengths of some lists add up to the number of things. -/
theorem Divided.total {things : List α} (divided : Divided (· ∈ things) family) (distinct : things.Nodup)
    {indices : List ι} (different : indices.Nodup) (empty : ∀ i, i ∉ indices → family i = []) :
    (indices.map fun i => (family i).length).sum = things.length := by
  have flat : (indices.flatMap family).Nodup := by
    refine List.nodup_flatMap.mpr ⟨fun i _ => divided.distinct i, different.imp fun apart => ?_⟩
    intro a inFirst inSecond
    exact apart (divided.apart _ _ a inFirst inSecond)
  have same : (indices.flatMap family).Perm things := by
    refine (List.perm_ext_iff_of_nodup flat distinct).mpr fun a => ?_
    rw [divided.covers, List.mem_flatMap]
    constructor
    · rintro ⟨i, _, member⟩
      exact ⟨i, member⟩
    · rintro ⟨i, member⟩
      refine ⟨i, ?_, member⟩
      by_contra outside
      rw [empty i outside] at member
      cases member
  rw [← same.length_eq, List.length_flatMap]

end Divisions

end Xinu.Partitions
