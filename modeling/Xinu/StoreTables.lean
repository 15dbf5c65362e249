import Xinu.KeyValueStore

/-!
# The two hash tables of the store

The hash code of a nonempty key is an index of the tables, and the comparison of a
search is equality of strings. Both tables are then sound chained tables, and each
access is described by the set of nodes before and after it.
-/

namespace Xinu.KeyValueStore

open CIntegers ChainedTable

/-- The comparison answers whether the keys are equal. -/
theorem sameKey_eq (key keyCurr : CString) : sameKey key keyCurr = decide (keyCurr = key) := by
  unfold sameKey
  rw [decide_eq_decide, strncmp_chars _ _ keyCurr.terminated key.terminated]
  exact ⟨cstring_ext, fun same => by rw [same]⟩

/-- Every round of the hash loop ends inside the table. -/
theorem hash_rounds (chars : List UInt8) (hashCode : Int) (low : 0 ≤ hashCode)
    (high : hashCode < 512) :
    0 ≤ chars.foldl hashRound hashCode ∧ chars.foldl hashRound hashCode < 512 := by
  induction chars generalizing hashCode with
  | nil => exact ⟨low, high⟩
  | cons c chars inductionHypothesis =>
    have sum : 0 ≤ hashCode * 31 + c.toNat := by lia
    have round : hashRound hashCode c = (hashCode * 31 + c.toNat) % 512 :=
      Int.tmod_eq_emod_of_nonneg sum
    rw [List.foldl_cons, round]
    exact inductionHypothesis _ (Int.emod_nonneg _ (by decide)) (Int.emod_lt_of_pos _ (by decide))

theorem hashFunc_range (key : CString) (nonempty : key.chars ≠ []) :
    0 ≤ hashFunc key ∧ hashFunc key < 512 := by
  unfold hashFunc
  rw [if_neg nonempty]
  exact hash_rounds _ 0 (by decide) (by decide)

/-- The index of a key. -/
def hashIndex (key : CString) : Fin 512 := (tableIndex (hashFunc key)).getD 0

theorem tableIndex_hash (key : CString) (nonempty : key.chars ≠ []) :
    tableIndex (hashFunc key) = some (hashIndex key) := by
  unfold hashIndex tableIndex
  rw [dif_pos (hashFunc_range key nonempty)]
  rfl

section Tables

variable {ν : Type} {key : ν → CString} {tab : Fin 512 → Option (List ν)}

/-- A node behind one of the head nodes, in the chain of its key. -/
def InTable (key : ν → CString) (tab : Fin 512 → Option (List ν)) (node : ν) : Prop :=
  ∃ chain, tab (hashIndex (key node)) = some chain ∧ node ∈ chain

/-- All head nodes exist, and the chains form a sound table. -/
def TableSound (key : ν → CString) (tab : Fin 512 → Option (List ν)) : Prop :=
  ∃ table, tab = (fun i => some (table i)) ∧ Sound key hashIndex table

theorem inTable_iff (table : Fin 512 → List ν) (node : ν) :
    InTable key (fun i => some (table i)) node ↔ Holds key hashIndex table node := by
  simp [InTable, Holds]

/-- One chain of a table written with its head nodes. -/
theorem table_update (table : Fin 512 → List ν) (i : Fin 512) (chain : List ν) :
    Function.update (fun i => some (table i)) i (some chain) =
      fun j => some (Function.update table i chain j) := by
  funext j
  rcases eq_or_ne j i with rfl | other
  · simp
  · simp [other]

theorem TableSound.unique (sound : TableSound key tab) {left right : ν}
    (leftHeld : InTable key tab left) (rightHeld : InTable key tab right)
    (same : key left = key right) : left = right := by
  obtain ⟨table, rfl, sound⟩ := sound
  exact sound.unique ((inTable_iff table left).mp leftHeld) ((inTable_iff table right).mp rightHeld)
    same

variable {k : CString} {chain : List ν}

/-- The search finds the node of the key, and nothing where there is none. -/
theorem TableSound.find (sound : TableSound key tab) (here : tab (hashIndex k) = some chain) :
    (∀ node, chain.find? (fun node => sameKey k (key node)) = some node ↔
      InTable key tab node ∧ key node = k) ∧
    (chain.find? (fun node => sameKey k (key node)) = none ↔
      ∀ node, InTable key tab node → key node ≠ k) := by
  obtain ⟨table, rfl, sound⟩ := sound
  cases Option.some.inj here
  simp only [sameKey_eq, inTable_iff]
  exact ⟨sound.find_some_iff k, sound.find_none_iff k⟩

/-- The chain of a key exists. -/
theorem TableSound.chain_exists (sound : TableSound key tab) (k : CString) :
    ∃ chain, tab (hashIndex k) = some chain := by
  obtain ⟨table, rfl, _⟩ := sound
  exact ⟨_, rfl⟩

/-- A node with a new key added. -/
theorem TableSound.appended (sound : TableSound key tab) (node : ν)
    (here : tab (hashIndex (key node)) = some chain)
    (fresh : ∀ other, InTable key tab other → key other ≠ key node) :
    TableSound key (Function.update tab (hashIndex (key node)) (some (chain ++ [node]))) ∧
      ∀ other, InTable key (Function.update tab (hashIndex (key node)) (some (chain ++ [node])))
        other ↔ InTable key tab other ∨ other = node := by
  obtain ⟨table, rfl, sound⟩ := sound
  cases Option.some.inj here
  simp only [inTable_iff] at fresh
  obtain ⟨nextSound, members⟩ := sound.appended node fresh
  rw [table_update]
  exact ⟨⟨_, rfl, nextSound⟩, fun other => by rw [inTable_iff, inTable_iff]; exact members other⟩

/-- The node of a key unlinked. -/
theorem TableSound.removed (sound : TableSound key tab) (here : tab (hashIndex k) = some chain) :
    TableSound key (Function.update tab (hashIndex k)
        (some (chain.eraseP fun node => sameKey k (key node)))) ∧
      ∀ node, InTable key (Function.update tab (hashIndex k)
        (some (chain.eraseP fun node => sameKey k (key node)))) node ↔
        InTable key tab node ∧ key node ≠ k := by
  obtain ⟨table, rfl, sound⟩ := sound
  cases Option.some.inj here
  simp only [sameKey_eq]
  obtain ⟨nextSound, members⟩ := sound.removed k
  rw [table_update]
  exact ⟨⟨_, rfl, nextSound⟩, fun other => by rw [inTable_iff, inTable_iff]; exact members other⟩

/-- The node of a key changed in place. -/
theorem TableSound.replaced (sound : TableSound key tab) (here : tab (hashIndex k) = some chain)
    (change : ν → ν) (keeps : ∀ node, key (change node) = key node) :
    TableSound key (Function.update tab (hashIndex k)
        (some (replaceFirst (fun node => sameKey k (key node)) change chain))) ∧
      ∀ node, InTable key (Function.update tab (hashIndex k)
        (some (replaceFirst (fun node => sameKey k (key node)) change chain))) node ↔
        (InTable key tab node ∧ key node ≠ k) ∨
          ∃ old, InTable key tab old ∧ key old = k ∧ node = change old := by
  obtain ⟨table, rfl, sound⟩ := sound
  cases Option.some.inj here
  simp only [sameKey_eq]
  obtain ⟨nextSound, members⟩ := sound.replaced k change keeps
  rw [table_update]
  refine ⟨⟨_, rfl, nextSound⟩, fun other => ?_⟩
  simp only [inTable_iff]
  exact members other

/-- The nodes behind all head nodes. -/
def tableNodes (tab : Fin 512 → Option (List ν)) : List ν :=
  (List.finRange 512).flatMap fun i => (tab i).getD []

theorem tableNodes_eq (table : Fin 512 → List ν) :
    tableNodes (fun i => some (table i)) = nodes table := rfl

theorem TableSound.mem_nodes (sound : TableSound key tab) (node : ν) :
    node ∈ tableNodes tab ↔ InTable key tab node := by
  obtain ⟨table, rfl, sound⟩ := sound
  rw [tableNodes_eq, inTable_iff]
  exact sound.mem_nodes node

theorem TableSound.nodes_distinct (sound : TableSound key tab) : ((tableNodes tab).map key).Nodup := by
  obtain ⟨table, rfl, sound⟩ := sound
  exact sound.nodes_distinct

/-- A key has its one node in the whole table, or none. -/
theorem TableSound.filter_key (sound : TableSound key tab) {node : ν} (held : InTable key tab node)
    (named : key node = k) : (tableNodes tab).filter (fun other => key other = k) = [node] := by
  obtain ⟨table, rfl, sound⟩ := sound
  subst named
  exact sound.filter_key ((inTable_iff table node).mp held)

theorem TableSound.filter_absent (sound : TableSound key tab)
    (absent : ∀ node, InTable key tab node → key node ≠ k) :
    (tableNodes tab).filter (fun other => key other = k) = [] := by
  obtain ⟨table, rfl, sound⟩ := sound
  exact sound.filter_absent fun node held => absent node ((inTable_iff table node).mpr held)

/-- The tables that `kv_init` makes have no nodes. -/
theorem tableSound_empty : TableSound key (fun _ => some []) :=
  ⟨fun _ => [], rfl, ⟨by simp, by simp⟩⟩

theorem inTable_empty (node : ν) : ¬ InTable key (fun _ => some []) node := by
  simp [InTable]

end Tables

/-- The state with another table of key-value nodes. -/
def State.withKv (s : State) (tab : Fin 512 → Option (List KVNode)) : State :=
  { s with kvHashTab := tab }

/-- The state with other entries, another table of cache nodes and another tail. -/
def State.relinked (s : State) (entries : List LRUEntry) (tab : Fin 512 → Option (List LRUNode))
    (tail : Option Nat) : State :=
  { s with entries := entries, lruHashTab := tab, tailLRU := tail }

section Fields

variable (s : State) (kv : Fin 512 → Option (List KVNode)) (entries other : List LRUEntry)
  (tab otherTab : Fin 512 → Option (List LRUNode)) (tail otherTail : Option Nat)

@[simp] theorem relinked_lruHashTab : (s.relinked entries tab tail).lruHashTab = tab := rfl
@[simp] theorem relinked_entries : (s.relinked entries tab tail).entries = entries := rfl
@[simp] theorem relinked_tailLRU : (s.relinked entries tab tail).tailLRU = tail := rfl
@[simp] theorem relinked_relinked :
    (s.relinked entries tab tail).relinked other otherTab otherTail =
      s.relinked other otherTab otherTail := rfl

theorem relinked_self : s.relinked s.entries s.lruHashTab s.tailLRU = s := rfl

end Fields

/-- A node of the table of key-value nodes, and of the table of cache nodes. -/
def State.HasKv (s : State) (node : KVNode) : Prop := InTable KVNode.key s.kvHashTab node

def State.HasLru (s : State) (node : LRUNode) : Prop := InTable LRUNode.key s.lruHashTab node

/-- The value pointer stored for a key. -/
def Stores (tab : Fin 512 → Option (List KVNode)) (key : CString) (val : Nat) : Prop :=
  ∃ node, InTable KVNode.key tab node ∧ node.key = key ∧ node.val = val

/-- A key has at most one value. -/
theorem TableSound.value_unique {tab : Fin 512 → Option (List KVNode)} {key : CString}
    {left right : Nat} (sound : TableSound KVNode.key tab) (first : Stores tab key left)
    (second : Stores tab key right) : left = right := by
  obtain ⟨node, held, named, rfl⟩ := first
  obtain ⟨other, otherHeld, otherNamed, rfl⟩ := second
  rw [sound.unique held otherHeld (named.trans otherNamed.symm)]

section Access

variable {s : State} {key : CString} (nonempty : key.chars ≠ [])

include nonempty in
theorem kvChain_eq : s.kvChain key =
    (s.kvHashTab (hashIndex key)).map fun chain => (hashIndex key, chain) := by
  unfold State.kvChain
  rw [tableIndex_hash key nonempty]
  cases here : s.kvHashTab (hashIndex key) <;> simp [here]

include nonempty in
theorem lruChain_eq : s.lruChain key =
    (s.lruHashTab (hashIndex key)).map fun chain => (hashIndex key, chain) := by
  unfold State.lruChain
  rw [tableIndex_hash key nonempty]
  cases here : s.lruHashTab (hashIndex key) <;> simp [here]

variable (kv : TableSound KVNode.key s.kvHashTab) (lru : TableSound LRUNode.key s.lruHashTab)

include nonempty kv in
/-- `getKVHashTab` answers with the node of the key. -/
theorem getKVHashTab_done : ∃ found, getKVHashTab s key = some found ∧
    (∀ node, found = some node ↔ s.HasKv node ∧ node.key = key) ∧
    (found = none ↔ ∀ node, s.HasKv node → node.key ≠ key) := by
  obtain ⟨chain, here⟩ := kv.chain_exists key
  refine ⟨_, ?_, kv.find here⟩
  simp only [getKVHashTab, kvChain_eq nonempty, here, Option.map_some, Option.bind_eq_bind,
    Option.bind_some]

include nonempty kv in
/-- A change of the node of a key that keeps its key. -/
theorem changeKVNode_done (change : KVNode → KVNode) (keeps : ∀ node, (change node).key = node.key) :
    ∃ tab, changeKVNode s key change = some (s.withKv tab) ∧
      TableSound KVNode.key tab ∧ ∀ node, InTable KVNode.key tab node ↔
        (s.HasKv node ∧ node.key ≠ key) ∨ ∃ old, s.HasKv old ∧ old.key = key ∧ node = change old := by
  obtain ⟨chain, here⟩ := kv.chain_exists key
  refine ⟨_, ?_, kv.replaced here change keeps⟩
  simp only [changeKVNode, kvChain_eq nonempty, here, Option.map_some, Option.bind_eq_bind,
    Option.bind_some]
  rfl

include nonempty kv in
/-- The popularity count changes no key and no value. -/
theorem countKVNode_done : ∃ tab, countKVNode s key = some (s.withKv tab) ∧
    TableSound KVNode.key tab ∧ ∀ k b, Stores tab k b ↔ Stores s.kvHashTab k b := by
  obtain ⟨found, got, found_iff, _⟩ := getKVHashTab_done nonempty kv
  cases found with
  | none =>
    refine ⟨s.kvHashTab, ?_, kv, fun k b => Iff.rfl⟩
    simp only [countKVNode, got, Option.bind_eq_bind, Option.bind_some]
    rfl
  | some node =>
    obtain ⟨tab, done, table, members⟩ := changeKVNode_done nonempty kv
      (fun node => { node with count := increased node.count }) (fun _ => rfl)
    refine ⟨tab, ?_, table, ?_⟩
    · simp only [countKVNode, got, Option.bind_eq_bind, Option.bind_some, done]
    · intro k b
      constructor
      · rintro ⟨other, held, rfl, rfl⟩
        rcases (members other).mp held with ⟨old, _⟩ | ⟨old, oldHeld, _, rfl⟩
        · exact ⟨other, old, rfl, rfl⟩
        · exact ⟨old, oldHeld, rfl, rfl⟩
      · rintro ⟨other, held, rfl, rfl⟩
        rcases eq_or_ne other.key key with same | different
        · exact ⟨_, (members _).mpr (Or.inr ⟨other, held, same, rfl⟩), rfl, rfl⟩
        · exact ⟨other, (members other).mpr (Or.inl ⟨held, different⟩), rfl, rfl⟩

include nonempty lru in
/-- `getLRUHashTab` answers with the node of the key. -/
theorem getLRUHashTab_done : ∃ found, getLRUHashTab s key = some found ∧
    (∀ node, found = some node ↔ s.HasLru node ∧ node.key = key) ∧
    (found = none ↔ ∀ node, s.HasLru node → node.key ≠ key) := by
  obtain ⟨chain, here⟩ := lru.chain_exists key
  refine ⟨_, ?_, lru.find here⟩
  simp only [getLRUHashTab, lruChain_eq nonempty, here, Option.map_some, Option.bind_eq_bind,
    Option.bind_some]

include nonempty lru in
/-- The `prev` pointer of a key that has a node. -/
theorem setPrev_done (old : LRUNode) (held : s.HasLru old) (same : old.key = key) (prev : Nat) :
    ∃ tab, setPrev s key prev = some (s.relinked s.entries tab s.tailLRU) ∧
      TableSound LRUNode.key tab ∧ ∀ node, InTable LRUNode.key tab node ↔
        (s.HasLru node ∧ node.key ≠ key) ∨ node = ⟨key, prev⟩ := by
  obtain ⟨chain, here⟩ := lru.chain_exists key
  have found := ((lru.find here).1 old).mpr ⟨held, same⟩
  obtain ⟨sound, members⟩ := lru.replaced here (fun node => { node with prev := prev })
    (fun _ => rfl)
  refine ⟨_, ?_, sound, ?_⟩
  · simp only [setPrev, lruChain_eq nonempty, here, Option.map_some, Option.bind_eq_bind,
      Option.bind_some, found]
    rfl
  · intro node
    rw [members]
    constructor
    · rintro (other | ⟨older, _, rfl, rfl⟩)
      · exact Or.inl other
      · exact Or.inr rfl
    · rintro (other | rfl)
      · exact Or.inl other
      · exact Or.inr ⟨old, held, same, by rw [← same]⟩

include nonempty lru in
/-- `setLRUHashTab` of a key without a node. -/
theorem setLRUHashTab_done (grants : Grants) (granted : grants.lruNode = true)
    (fresh : ∀ node, s.HasLru node → node.key ≠ key) (prev : Nat) :
    ∃ tab, setLRUHashTab s grants key prev = some (s.relinked s.entries tab s.tailLRU) ∧
      TableSound LRUNode.key tab ∧
      ∀ node, InTable LRUNode.key tab node ↔ s.HasLru node ∨ node = ⟨key, prev⟩ := by
  obtain ⟨chain, here⟩ := lru.chain_exists key
  obtain ⟨found, got, _, isNone⟩ := getLRUHashTab_done nonempty lru
  refine ⟨_, ?_, lru.appended ⟨key, prev⟩ here fresh⟩
  rw [isNone.mpr fresh] at got
  simp only [setLRUHashTab, got, lruChain_eq nonempty, here, Option.map_some, Option.bind_eq_bind,
    Option.bind_some, granted, if_true]
  rfl

include nonempty lru in
/-- `delLRUHashTab` removes the node of the key, if there is one. -/
theorem delLRUHashTab_done :
    ∃ tab, delLRUHashTab s key = some (s.relinked s.entries tab s.tailLRU) ∧
      TableSound LRUNode.key tab ∧
      ∀ node, InTable LRUNode.key tab node ↔ s.HasLru node ∧ node.key ≠ key := by
  obtain ⟨chain, here⟩ := lru.chain_exists key
  refine ⟨_, ?_, lru.removed here⟩
  simp only [delLRUHashTab, lruChain_eq nonempty, here, Option.map_some, Option.bind_eq_bind,
    Option.bind_some]
  rfl

end Access

end Xinu.KeyValueStore
