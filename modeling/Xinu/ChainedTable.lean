import Mathlib

/-!
# Hash tables with chains

A table assigns a chain of nodes to every index, and a hash assigns an index to
every key. The table is sound when each node sits in the chain of its key and no
chain holds two nodes with one key. A sound table is then a finite set of nodes
with different keys, whatever the hash is.

Three operations on the chain of a key are described in these terms: a new node
at the end, the first node with the key unlinked, and the first node with the key
changed in place.
-/

namespace Xinu.ChainedTable

universe u v
variable {ν : Type u} {κ : Type v} {m : Nat}

/-- Change the first element that passes a test. -/
def replaceFirst (test : ν → Bool) (change : ν → ν) : List ν → List ν
  | [] => []
  | node :: rest =>
    if test node then change node :: rest else node :: replaceFirst test change rest

variable (key : ν → κ) (hash : κ → Fin m)

/-- Every node sits in the chain of its key, and no chain repeats a key. -/
structure Sound (table : Fin m → List ν) : Prop where
  home : ∀ i, ∀ node ∈ table i, hash (key node) = i
  distinct : ∀ i, ((table i).map key).Nodup

/-- A node of the table. -/
def Holds (table : Fin m → List ν) (node : ν) : Prop := node ∈ table (hash (key node))

variable {key hash} {table : Fin m → List ν}

theorem Sound.holds (sound : Sound key hash table) {i : Fin m} {node : ν}
    (member : node ∈ table i) : Holds key hash table node := by
  rw [← sound.home i node member] at member
  exact member

/-- A key has at most one node. -/
theorem Sound.unique (sound : Sound key hash table) {left right : ν}
    (leftHeld : Holds key hash table left) (rightHeld : Holds key hash table right)
    (same : key left = key right) : left = right := by
  unfold Holds at leftHeld rightHeld
  rw [same] at leftHeld
  exact List.inj_on_of_nodup_map (sound.distinct _) leftHeld rightHeld same

/-- All nodes of a table, chain by chain. -/
def nodes (table : Fin m → List ν) : List ν := (List.finRange m).flatMap table

theorem Sound.mem_nodes (sound : Sound key hash table) (node : ν) :
    node ∈ nodes table ↔ Holds key hash table node := by
  unfold nodes
  rw [List.mem_flatMap]
  constructor
  · rintro ⟨i, _, member⟩
    exact sound.holds member
  · intro held
    exact ⟨hash (key node), List.mem_finRange _, held⟩

/-- The keys of a sound table are different. -/
theorem Sound.nodes_distinct (sound : Sound key hash table) : ((nodes table).map key).Nodup := by
  unfold nodes
  rw [List.map_flatMap, List.nodup_flatMap]
  refine ⟨fun i _ => sound.distinct i, ?_⟩
  refine (List.nodup_finRange m).imp ?_
  intro i j different k left right
  obtain ⟨node, inLeft, rfl⟩ := List.mem_map.mp left
  obtain ⟨other, inRight, same⟩ := List.mem_map.mp right
  apply different
  rw [← sound.home i node inLeft, ← sound.home j other inRight, same]

/-- One chain replaced by another whose keys belong to it. -/
theorem Sound.update (sound : Sound key hash table) (i : Fin m) (chain : List ν)
    (home : ∀ node ∈ chain, hash (key node) = i) (distinct : (chain.map key).Nodup) :
    Sound key hash (Function.update table i chain) where
  home j node member := by
    rcases eq_or_ne j i with rfl | other
    · rw [Function.update_self] at member
      exact home node member
    · rw [Function.update_of_ne other] at member
      exact sound.home j node member
  distinct j := by
    rcases eq_or_ne j i with rfl | other
    · rw [Function.update_self]
      exact distinct
    · rw [Function.update_of_ne other]
      exact sound.distinct j

/-- The nodes of a table in which the chain of a key is replaced. -/
theorem holds_update (k : κ) (chain : List ν) (node : ν) :
    Holds key hash (Function.update table (hash k) chain) node ↔
      (hash (key node) = hash k ∧ node ∈ chain) ∨
        (hash (key node) ≠ hash k ∧ Holds key hash table node) := by
  unfold Holds
  rcases eq_or_ne (hash (key node)) (hash k) with same | other
  · rw [same, Function.update_self]
    simp
  · rw [Function.update_of_ne other]
    simp [other]

/-- A node with a new key added at the end of its chain. -/
theorem Sound.appended (sound : Sound key hash table) (node : ν)
    (fresh : ∀ other, Holds key hash table other → key other ≠ key node) :
    Sound key hash (Function.update table (hash (key node)) (table (hash (key node)) ++ [node])) ∧
      ∀ other, Holds key hash
        (Function.update table (hash (key node)) (table (hash (key node)) ++ [node])) other ↔
        Holds key hash table other ∨ other = node := by
  refine ⟨sound.update _ _ ?_ ?_, ?_⟩
  · intro other member
    rcases List.mem_append.mp member with old | new
    · exact sound.home _ other old
    · rw [List.mem_singleton.mp new]
  · rw [List.map_append, List.nodup_append]
    refine ⟨sound.distinct _, by simp, ?_⟩
    intro k member other new same
    obtain ⟨old, oldMember, rfl⟩ := List.mem_map.mp member
    have isNew : other = key node := by simpa using new
    exact fresh old (sound.holds oldMember) (same.trans isNew)
  · intro other
    rw [holds_update, List.mem_append, List.mem_singleton]
    constructor
    · rintro (⟨_, old | new⟩ | ⟨_, held⟩)
      · exact Or.inl (sound.holds old)
      · exact Or.inr new
      · exact Or.inl held
    · rintro (held | rfl)
      · by_cases same : hash (key other) = hash (key node)
        · exact Or.inl ⟨same, Or.inl (by rw [← same]; exact held)⟩
        · exact Or.inr ⟨same, held⟩
      · exact Or.inl ⟨rfl, Or.inr rfl⟩

/-- A change in place that keeps the keys. -/
theorem map_key_replaceFirst (test : ν → Bool) (change : ν → ν)
    (keeps : ∀ node, key (change node) = key node) (chain : List ν) :
    (replaceFirst test change chain).map key = chain.map key := by
  induction chain with
  | nil => rfl
  | cons first rest inductionHypothesis =>
    unfold replaceFirst
    split
    · simp [keeps]
    · simp [inductionHypothesis]

variable [DecidableEq κ]

/-- The search finds the node of the key. -/
theorem Sound.find_some_iff (sound : Sound key hash table) (k : κ) (node : ν) :
    (table (hash k)).find? (fun node => decide (key node = k)) = some node ↔
      Holds key hash table node ∧ key node = k := by
  constructor
  · intro found
    have matched : key node = k := by simpa using List.find?_some found
    have member := List.mem_of_find?_eq_some found
    exact ⟨by rw [Holds, matched]; exact member, matched⟩
  · rintro ⟨held, rfl⟩
    cases found : (table (hash (key node))).find? (fun other => decide (key other = key node)) with
    | none =>
      have missing := List.find?_eq_none.mp found node held
      simp at missing
    | some other =>
      have matched : key other = key node := by simpa using List.find?_some found
      rw [sound.unique (sound.holds (List.mem_of_find?_eq_some found)) held matched]

/-- The search fails exactly where no node has the key. -/
theorem Sound.find_none_iff (sound : Sound key hash table) (k : κ) :
    (table (hash k)).find? (fun node => decide (key node = k)) = none ↔
      ∀ node, Holds key hash table node → key node ≠ k := by
  constructor
  · intro missing node held same
    rw [(sound.find_some_iff k node).mpr ⟨held, same⟩] at missing
    cases missing
  · intro absent
    cases found : (table (hash k)).find? (fun node => decide (key node = k)) with
    | none => rfl
    | some node =>
      obtain ⟨held, same⟩ := (sound.find_some_iff k node).mp found
      exact absurd same (absent node held)

/-- In a list with different keys, unlinking the first node with a key unlinks the
only one. -/
theorem mem_eraseP_key (k : κ) (chain : List ν) (distinct : (chain.map key).Nodup) (node : ν) :
    node ∈ chain.eraseP (fun node => decide (key node = k)) ↔ node ∈ chain ∧ key node ≠ k := by
  induction chain with
  | nil => simp
  | cons first rest inductionHypothesis =>
    obtain ⟨notIn, restDistinct⟩ := List.nodup_cons.mp distinct
    by_cases matched : key first = k
    · rw [List.eraseP_cons_of_pos (by simpa using matched)]
      constructor
      · intro member
        refine ⟨List.mem_cons_of_mem _ member, ?_⟩
        intro same
        exact notIn (List.mem_map.mpr ⟨node, member, same.trans matched.symm⟩)
      · rintro ⟨member, other⟩
        rcases List.mem_cons.mp member with rfl | later
        · exact absurd matched other
        · exact later
    · rw [List.eraseP_cons_of_neg (by simpa using matched), List.mem_cons,
        inductionHypothesis restDistinct, List.mem_cons]
      constructor
      · rintro (rfl | ⟨member, other⟩)
        · exact ⟨Or.inl rfl, matched⟩
        · exact ⟨Or.inr member, other⟩
      · rintro ⟨rfl | member, other⟩
        · exact Or.inl rfl
        · exact Or.inr ⟨member, other⟩

/-- The first node with a key unlinked. -/
theorem Sound.removed (sound : Sound key hash table) (k : κ) :
    Sound key hash (Function.update table (hash k)
        ((table (hash k)).eraseP fun node => decide (key node = k))) ∧
      ∀ node, Holds key hash (Function.update table (hash k)
        ((table (hash k)).eraseP fun node => decide (key node = k))) node ↔
        Holds key hash table node ∧ key node ≠ k := by
  have members := mem_eraseP_key k (table (hash k)) (sound.distinct (hash k))
  refine ⟨sound.update _ _ ?_ ?_, ?_⟩
  · intro node member
    exact sound.home _ node ((members node).mp member).1
  · exact (sound.distinct (hash k)).sublist ((List.eraseP_sublist ..).map key)
  · intro node
    rw [holds_update, members]
    constructor
    · rintro (⟨_, member, other⟩ | ⟨elsewhere, held⟩)
      · exact ⟨sound.holds member, other⟩
      · exact ⟨held, fun same => elsewhere (congrArg hash same)⟩
    · rintro ⟨held, other⟩
      by_cases same : hash (key node) = hash k
      · exact Or.inl ⟨same, by rw [← same]; exact held, other⟩
      · exact Or.inr ⟨same, held⟩

/-- In a list with different keys, the change reaches the node with the key and no
other. -/
theorem mem_replaceFirst_key (k : κ) (change : ν → ν) (chain : List ν)
    (distinct : (chain.map key).Nodup) (node : ν) :
    node ∈ replaceFirst (fun node => decide (key node = k)) change chain ↔
      (node ∈ chain ∧ key node ≠ k) ∨ ∃ old ∈ chain, key old = k ∧ node = change old := by
  induction chain with
  | nil => simp [replaceFirst]
  | cons first rest inductionHypothesis =>
    obtain ⟨notIn, restDistinct⟩ := List.nodup_cons.mp distinct
    have elsewhere : ∀ other ∈ rest, key other ≠ key first :=
      fun other member same => notIn (List.mem_map.mpr ⟨other, member, same⟩)
    unfold replaceFirst
    by_cases matched : key first = k
    · rw [if_pos (by simpa using matched), List.mem_cons]
      constructor
      · rintro (rfl | later)
        · exact Or.inr ⟨first, List.mem_cons_self, matched, rfl⟩
        · exact Or.inl ⟨List.mem_cons_of_mem _ later, matched ▸ elsewhere node later⟩
      · rintro (⟨member, other⟩ | ⟨old, member, same, rfl⟩)
        · rcases List.mem_cons.mp member with rfl | later
          · exact absurd matched other
          · exact Or.inr later
        · rcases List.mem_cons.mp member with rfl | later
          · exact Or.inl rfl
          · exact absurd (same.trans matched.symm) (elsewhere old later)
    · rw [if_neg (by simpa using matched), List.mem_cons, inductionHypothesis restDistinct]
      constructor
      · rintro (rfl | ⟨member, other⟩ | ⟨old, member, same, rfl⟩)
        · exact Or.inl ⟨List.mem_cons_self, matched⟩
        · exact Or.inl ⟨List.mem_cons_of_mem _ member, other⟩
        · exact Or.inr ⟨old, List.mem_cons_of_mem _ member, same, rfl⟩
      · rintro (⟨member, other⟩ | ⟨old, member, same, rfl⟩)
        · rcases List.mem_cons.mp member with rfl | later
          · exact Or.inl rfl
          · exact Or.inr (Or.inl ⟨later, other⟩)
        · rcases List.mem_cons.mp member with rfl | later
          · exact absurd same matched
          · exact Or.inr (Or.inr ⟨old, later, same, rfl⟩)

/-- The node of a key changed in place. -/
theorem Sound.replaced (sound : Sound key hash table) (k : κ) (change : ν → ν)
    (keeps : ∀ node, key (change node) = key node) :
    Sound key hash (Function.update table (hash k)
        (replaceFirst (fun node => decide (key node = k)) change (table (hash k)))) ∧
      ∀ node, Holds key hash (Function.update table (hash k)
        (replaceFirst (fun node => decide (key node = k)) change (table (hash k)))) node ↔
        (Holds key hash table node ∧ key node ≠ k) ∨
          ∃ old, Holds key hash table old ∧ key old = k ∧ node = change old := by
  have members := mem_replaceFirst_key k change (table (hash k)) (sound.distinct (hash k))
  refine ⟨sound.update _ _ ?_ ?_, ?_⟩
  · intro node member
    rcases (members node).mp member with ⟨old, _⟩ | ⟨old, oldMember, _, rfl⟩
    · exact sound.home _ node old
    · rw [keeps]
      exact sound.home _ old oldMember
  · rw [map_key_replaceFirst _ _ keeps]
    exact sound.distinct (hash k)
  · intro node
    rw [holds_update, members]
    constructor
    · rintro (⟨_, ⟨member, other⟩ | ⟨old, member, same, rfl⟩⟩ | ⟨elsewhere, held⟩)
      · exact Or.inl ⟨sound.holds member, other⟩
      · exact Or.inr ⟨old, sound.holds member, same, rfl⟩
      · exact Or.inl ⟨held, fun same => elsewhere (congrArg hash same)⟩
    · rintro (⟨held, other⟩ | ⟨old, held, rfl, rfl⟩)
      · by_cases same : hash (key node) = hash k
        · exact Or.inl ⟨same, Or.inl ⟨by rw [← same]; exact held, other⟩⟩
        · exact Or.inr ⟨same, held⟩
      · exact Or.inl ⟨by rw [keeps], Or.inr ⟨old, held, rfl, rfl⟩⟩

/-- The nodes with a key: its one node, or none. -/
theorem Sound.filter_key (sound : Sound key hash table) {node : ν}
    (held : Holds key hash table node) :
    (nodes table).filter (fun other => key other = key node) = [node] := by
  have member := (sound.mem_nodes node).mpr held
  have distinct := sound.nodes_distinct
  obtain ⟨front, back, split⟩ := List.append_of_mem member
  rw [split, List.map_append, List.map_cons, List.nodup_append] at distinct
  obtain ⟨_, backDistinct, apart⟩ := distinct
  have inFront : front.filter (fun other => key other = key node) = [] := by
    rw [List.filter_eq_nil_iff]
    intro other otherIn same
    exact apart (key other) (List.mem_map_of_mem otherIn) (key node) List.mem_cons_self
      (by simpa using same)
  have inBack : back.filter (fun other => key other = key node) = [] := by
    rw [List.filter_eq_nil_iff]
    intro other otherIn same
    have sameKey : key other = key node := by simpa using same
    exact (List.nodup_cons.mp backDistinct).1 (sameKey ▸ List.mem_map_of_mem otherIn)
  rw [split, List.filter_append, inFront, List.filter_cons_of_pos (by simp), inBack]
  rfl

theorem Sound.filter_absent (sound : Sound key hash table) {k : κ}
    (absent : ∀ node, Holds key hash table node → key node ≠ k) :
    (nodes table).filter (fun other => key other = k) = [] := by
  rw [List.filter_eq_nil_iff]
  intro other member same
  exact absent other ((sound.mem_nodes other).mp member) (by simpa using same)

end Xinu.ChainedTable
