import Xinu.CacheChanges
import Xinu.Runs

/-!
# The invariant of the store

A value pointer is held by the node of its key and by the cache entry of its key.
The two agree between the calls: `kv_set` changes the node first and the entry
afterwards, and `kv_delete` removes the entry first and the node afterwards.

Each call is described by the change it makes to the cache and by the pointers
stored before and after it. A call to `getmem` that is not granted ends without an
outcome, so a completed call is described as if all of them were granted.
-/

namespace Xinu.KeyValueStore

open CIntegers ChainedTable LinkedPath Runs

/-- Every pointer of a listed entry is the one stored for its key. -/
structure StoreSound (s : State) (head : Nat) (path : List Nat) : Prop where
  cache : CacheSound s head path
  kv : TableSound KVNode.key s.kvHashTab
  backed : ∀ address ∈ path, ∀ k b, dataIn s.entries address = some (k, b) → Stores s.kvHashTab k b

/-- The same answers with every `getmem` granted. -/
def Grants.all (grants : Grants) : Grants := ⟨true, true, true, true, grants.value⟩

theorem Grants.all_of_granted (grants : Grants) (key : grants.key = true)
    (kvNode : grants.kvNode = true) (lruEntry : grants.lruEntry = true)
    (lruNode : grants.lruNode = true) : grants.all = grants := by
  cases grants
  simp_all [Grants.all]

/-- The state with another table of key-value nodes, other contents and other buffers
given back. -/
def State.valued (s : State) (tab : Fin 512 → Option (List KVNode)) (buffers : Nat → CString)
    (freed : List Nat) : State :=
  { s with kvHashTab := tab, buffers := buffers, freed := freed }

section Granted

/-- A computation whose parts complete in the same way completes in the same way. -/
theorem bind_granted {α β : Type} {first first' : Option α} {rest rest' : α → Option β}
    (firstDone : ∀ a, first = some a → first' = some a)
    (restDone : ∀ a b, rest a = some b → rest' a = some b) (b : β)
    (done : (first >>= rest) = some b) : (first' >>= rest') = some b := by
  obtain ⟨a, here, later⟩ := Option.bind_eq_some_iff.mp done
  rw [firstDone a here]
  exact restDone a b later

variable {grants : Grants} {key : CString}

theorem createKVNode_granted (s : State) (val : CString) (result : Option KVNode × State)
    (done : createKVNode s grants key val = some result) :
    createKVNode s grants.all key val = some result := by
  unfold createKVNode at done
  split at done
  case isFalse => cases done
  case isTrue =>
    cases given : grants.value with
    | none => simpa [createKVNode, Grants.all, given] using done
    | some buffer =>
      simp only [given] at done
      split at done
      · simpa [createKVNode, Grants.all, given] using done
      · cases done

theorem setKVHashTab_granted (s : State) (val : CString) (result : Option KVNode × State) :
    setKVHashTab s grants key val = some result →
      setKVHashTab s grants.all key val = some result := by
  unfold setKVHashTab
  refine bind_granted (fun _ => id) ?_ result
  intro found result
  cases found with
  | some kvNode => exact id
  | none => exact bind_granted (createKVNode_granted s val) (fun _ _ => id) result

theorem createLRUEntry_granted (s : State) (val : Nat) (result : Nat × State)
    (done : createLRUEntry s grants key val = some result) :
    createLRUEntry s grants.all key val = some result := by
  unfold createLRUEntry at done
  split at done
  case isFalse => cases done
  case isTrue => simpa [createLRUEntry, Grants.all] using done

theorem setLRUHashTab_granted (s : State) (prev : Nat) (t : State) :
    setLRUHashTab s grants key prev = some t → setLRUHashTab s grants.all key prev = some t := by
  unfold setLRUHashTab
  refine bind_granted (fun _ => id) ?_ t
  intro found t
  cases found with
  | some node => exact id
  | none =>
    intro done
    simp only at done
    split at done
    · simpa [Grants.all] using done
    · cases done

theorem appendLRUEntry_granted (s : State) (val : Nat) (t : State) :
    appendLRUEntry s grants key val = some t → appendLRUEntry s grants.all key val = some t := by
  unfold appendLRUEntry
  refine bind_granted (createLRUEntry_granted _ val) ?_ t
  rintro ⟨curr, s⟩ t
  refine bind_granted (fun _ => id) ?_ t
  intro tail t
  refine bind_granted (fun _ => id) ?_ t
  intro s t
  exact bind_granted (setLRUHashTab_granted s tail) (fun _ _ => id) t

theorem evictLRUEntry_granted (s : State) (val : Nat) (t : State) :
    evictLRUEntry s grants key val = some t → evictLRUEntry s grants.all key val = some t := by
  unfold evictLRUEntry
  refine bind_granted (fun _ => id) ?_ t
  intro headLRU t
  refine bind_granted (fun _ => id) ?_ t
  intro headEntry t
  refine bind_granted (fun _ => id) ?_ t
  intro head t
  refine bind_granted (fun _ => id) ?_ t
  intro entry t
  refine bind_granted (fun _ => id) ?_ t
  intro s t
  refine bind_granted (fun _ => id) ?_ t
  intro s t
  exact bind_granted (setLRUHashTab_granted s headLRU) (fun _ _ => id) t

theorem setLRUCache_granted (s : State) (val : Nat) (t : State) :
    setLRUCache s grants key val = some t → setLRUCache s grants.all key val = some t := by
  unfold setLRUCache
  refine bind_granted (fun _ => id) ?_ t
  rintro ⟨curr, s⟩ t
  cases curr with
  | some curr => exact id
  | none =>
    simp only
    split
    · exact appendLRUEntry_granted s val t
    · exact evictLRUEntry_granted s val t

/-- A completed `kv_set` ends in the same way with every `getmem` granted. -/
theorem kvSet_granted (s : State) (val : CString) (result : Int × State) :
    kvSet s grants key val = some result → kvSet s grants.all key val = some result := by
  unfold kvSet
  refine bind_granted (setKVHashTab_granted s val) ?_ result
  rintro ⟨kvNode, s⟩ result
  refine bind_granted (fun _ => id) ?_ result
  intro kvNode result
  exact bind_granted (setLRUCache_granted s kvNode.val) (fun _ _ => id) result

end Granted

section Values

variable {s : State} {key : CString}

/-- The pointers after the node of a key is set. -/
theorem stores_set {tab tab' : Fin 512 → Option (List KVNode)} (node : KVNode)
    (members : ∀ other, InTable KVNode.key tab' other ↔
      (InTable KVNode.key tab other ∧ other.key ≠ node.key) ∨ other = node) (k : CString) (b : Nat) :
    Stores tab' k b ↔ if k = node.key then b = node.val else Stores tab k b := by
  split
  case isTrue same =>
    subst same
    constructor
    · rintro ⟨other, held, named, rfl⟩
      rcases (members other).mp held with ⟨_, different⟩ | rfl
      · exact absurd named different
      · rfl
    · rintro rfl
      exact ⟨node, (members node).mpr (Or.inr rfl), rfl, rfl⟩
  case isFalse different =>
    constructor
    · rintro ⟨other, held, rfl, rfl⟩
      rcases (members other).mp held with ⟨old, _⟩ | rfl
      · exact ⟨other, old, rfl, rfl⟩
      · exact absurd rfl different
    · rintro ⟨other, held, rfl, rfl⟩
      exact ⟨other, (members other).mpr (Or.inl ⟨held, different⟩), rfl, rfl⟩

/-- `setKVHashTab` leaves one pointer for the key, the new buffer if there is one. Without
a buffer a new key has no node. -/
theorem setKVHashTab_done (nonempty : key.chars ≠ []) (kv : TableSound KVNode.key s.kvHashTab)
    (grants : Grants) (val : CString) :
    (∃ node tab buffers freed, setKVHashTab s grants.all key val =
        some (some node, s.valued tab buffers freed) ∧ node.key = key ∧ TableSound KVNode.key tab ∧
      (∀ k b, Stores tab k b ↔ if k = key then b = node.val else Stores s.kvHashTab k b) ∧
      (∀ buffer, grants.value = some buffer →
        node.val = buffer ∧ buffers = Function.update s.buffers buffer val)) ∨
    (setKVHashTab s grants.all key val = some (none, s) ∧ grants.value = none) := by
  obtain ⟨found, got, found_iff, isNone⟩ := getKVHashTab_done nonempty kv
  cases found with
  | none =>
    have fresh := isNone.mp rfl
    cases given : grants.value with
    | none =>
      obtain ⟨chain, here⟩ := kv.chain_exists key
      refine Or.inr ⟨?_, rfl⟩
      simp only [setKVHashTab, got, Option.bind_eq_bind, Option.bind_some, createKVNode, Grants.all,
        if_true, given, kvChain_eq nonempty, here, Option.map_some]
    | some buffer =>
      obtain ⟨chain, here⟩ := kv.chain_exists key
      obtain ⟨table, members⟩ := kv.appended ⟨key, buffer, 0⟩ here fresh
      refine Or.inl ⟨⟨key, buffer, 0⟩, _, Function.update s.buffers buffer val, s.freed, ?_, rfl, table,
        ?_, ?_⟩
      · have hereNow : (s.store buffer val).kvHashTab (hashIndex key) = some chain := here
        simp only [setKVHashTab, got, Option.bind_eq_bind, Option.bind_some, createKVNode, Grants.all,
          if_true, given, kvChain_eq nonempty, hereNow, Option.map_some]
        rfl
      · refine stores_set ⟨key, buffer, 0⟩ ?_
        intro other
        rw [members]
        constructor
        · rintro (held | added)
          · exact Or.inl ⟨held, fresh other held⟩
          · exact Or.inr added
        · rintro (⟨held, _⟩ | added)
          · exact Or.inl held
          · exact Or.inr added
      · rintro other ⟨rfl⟩
        exact ⟨rfl, rfl⟩
  | some old =>
    obtain ⟨oldHeld, oldNamed⟩ := (found_iff old).mp rfl
    cases given : grants.value with
    | none =>
      refine Or.inl ⟨old, s.kvHashTab, s.buffers, s.freed ++ [old.val], ?_, oldNamed, kv, ?_, ?_⟩
      · have gotNow : getKVHashTab (s.xfree old.val) key = some (some old) := got
        simp only [setKVHashTab, got, Option.bind_eq_bind, Option.bind_some, updateKVNode, Grants.all,
          given, gotNow]
        rfl
      · subst oldNamed
        refine stores_set old ?_
        intro other
        constructor
        · intro held
          rcases eq_or_ne other.key old.key with same | different
          · exact Or.inr (kv.unique held oldHeld same)
          · exact Or.inl ⟨held, different⟩
        · rintro (⟨held, _⟩ | rfl)
          · exact held
          · exact oldHeld
      · intro buffer impossible
        cases impossible
    | some buffer =>
      obtain ⟨tab, changeDone, table, members⟩ := changeKVNode_done
        (s := (s.xfree old.val).store buffer val) nonempty kv
        (fun node => { node with val := buffer }) (fun _ => rfl)
      obtain ⟨foundNow, gotNow, foundNow_iff, _⟩ := getKVHashTab_done
        (s := ((s.xfree old.val).store buffer val).withKv tab) nonempty table
      have changed : InTable KVNode.key tab ⟨old.key, buffer, old.count⟩ :=
        (members _).mpr (Or.inr ⟨old, oldHeld, oldNamed, rfl⟩)
      rw [(foundNow_iff ⟨old.key, buffer, old.count⟩).mpr ⟨changed, oldNamed⟩] at gotNow
      refine Or.inl ⟨⟨old.key, buffer, old.count⟩, tab, Function.update s.buffers buffer val,
        s.freed ++ [old.val], ?_, oldNamed, table, ?_, ?_⟩
      · simp only [setKVHashTab, got, Option.bind_eq_bind, Option.bind_some, updateKVNode, Grants.all,
          given, changeDone, gotNow]
        rfl
      · subst oldNamed
        refine stores_set ⟨old.key, buffer, old.count⟩ ?_
        intro other
        rw [members]
        constructor
        · rintro (kept | ⟨older, olderHeld, same, rfl⟩)
          · exact Or.inl kept
          · cases kv.unique olderHeld oldHeld same
            exact Or.inr rfl
        · rintro (kept | rfl)
          · exact Or.inl kept
          · exact Or.inr ⟨old, oldHeld, rfl, rfl⟩
      · rintro other ⟨rfl⟩
        exact ⟨rfl, rfl⟩

/-- The entries that a `kv_set` leaves in the list beside the one it writes were there
before. -/
theorem Change.path_members {change : Change} {fresh address cell : Nat} {path : List Nat}
    (inserts : change.Inserts) (member : address ∈ change.path fresh path)
    (written : cell ∈ change.path fresh path) (other : address ≠ cell) (old : address ≠ fresh)
    (first : ∀ target, change = .evicted target → target ∈ path)
    (curr : ∀ prev target, change = .used prev target → target ∈ path) : address ∈ path := by
  cases change with
  | kept => exact member
  | used prev target =>
    rcases List.mem_append.mp member with kept | last
    · exact List.mem_of_mem_erase kept
    · rw [List.mem_singleton.mp last]
      exact curr prev target rfl
  | added =>
    rcases List.mem_append.mp member with kept | last
    · exact kept
    · exact absurd (List.mem_singleton.mp last) old
  | evicted target =>
    rcases List.mem_append.mp member with kept | last
    · exact List.mem_of_mem_tail kept
    · rw [List.mem_singleton.mp last]
      exact first target rfl
  | reused outside =>
    exact absurd ((List.mem_singleton.mp member).trans (List.mem_singleton.mp written).symm) other
  | deleted prev target => exact List.mem_of_mem_erase member

/-- A completed `kv_set`. -/
structure SetOutcome (s : State) (head : Nat) (path : List Nat) (grants : Grants)
    (key val : CString) (change : Change) (t : State) : Prop where
  changed : Changed s head path key change t
  sound : StoreSound t head (change.path s.entries.length path)
  inserts : change.Inserts
  stores : ∃ b, (∀ k c, Stores t.kvHashTab k c ↔ if k = key then c = b else Stores s.kvHashTab k c) ∧
    ∀ buffer, grants.value = some buffer →
      b = buffer ∧ t.buffers = Function.update s.buffers buffer val
  accesses : t.totalAccesses = increased s.totalAccesses
  sets : t.totalSetSuccess = increased s.totalSetSuccess

/-- `kv_set` completes unless it has no buffer for a new key or evicts through the null
pointer. -/
theorem StoreSound.set {head : Nat} {path : List Nat} (sound : StoreSound s head path)
    (nonempty : key.chars ≠ []) (grants : Grants) (val : CString) :
    (kvSet s grants.all key val = none ∧ (grants.value = none ∨ ¬ Reachable s head path)) ∨
      (Reachable s head path ∧ ∃ change t, kvSet s grants.all key val = some (0, t) ∧
        SetOutcome s head path grants key val change t) := by
  rcases setKVHashTab_done nonempty sound.kv grants val with
    ⟨node, tab, buffers, freed, setDone, rfl, table, stores, written⟩ | ⟨setDone, missing⟩
  · have cache : CacheSound (s.valued tab buffers freed) head path :=
      ⟨sound.cache.list.congr rfl rfl rfl rfl, sound.cache.stale, sound.cache.counted,
        sound.cache.small⟩
    by_cases reachable : Reachable s head path
    · obtain ⟨change, t, done, changed, list, inserts, inserted⟩ := setLRUCache_done cache nonempty
        table grants.all node.val rfl rfl reachable
      have next := cache.changed changed list
      have storesNow : ∀ k c, Stores t.kvHashTab k c ↔
          if k = node.key then c = node.val else Stores s.kvHashTab k c :=
        fun k c => (inserted.stores k c).trans (stores k c)
      refine Or.inr ⟨reachable, change, t, ?_, changed.congr rfl rfl rfl rfl rfl rfl,
        ⟨next, inserted.kv, ?_⟩, inserts, ⟨node.val, storesNow, ?_⟩, inserted.accesses, inserted.sets⟩
      · simp only [kvSet, setDone, Option.bind_eq_bind, Option.bind_some, done]
      · intro address member k b data
        obtain ⟨cell, cellIn, cellData⟩ := inserted.data
        have cellName : keyIn t.entries cell = some node.key := by
          rw [keyIn_data, cellData, Function.update_self]
          rfl
        rcases eq_or_ne address cell with rfl | other
        · rw [cellData, Function.update_self] at data
          cases Option.some.inj data
          exact (storesNow _ _).mpr (by rw [if_pos rfl])
        · have name : keyIn t.entries address = some k := by
            rw [keyIn_data, data]
            rfl
          have different : k ≠ node.key := by
            rintro rfl
            exact other (list.keys address member cell cellIn (name.trans cellName.symm))
          rw [cellData, Function.update_of_ne other] at data
          have old : address ≠ s.entries.length := by
            rintro rfl
            have missing : dataIn s.entries s.entries.length = none := by simp [dataIn]
            cases missing.symm.trans data
          have before : address ∈ path := Change.path_members inserts member cellIn other old
            (fun target same => by
              subst same
              exact List.mem_of_head? changed.allowed.2.2)
            (fun prev target same => by
              subst same
              exact links_second _ _ _ changed.allowed.1)
          refine (storesNow _ _).mpr ?_
          rw [if_neg different]
          exact sound.backed address before k b data
      · intro buffer given
        obtain ⟨isBuffer, contents⟩ := written buffer given
        exact ⟨isBuffer, inserted.buffers.trans contents⟩
    · refine Or.inl ⟨?_, Or.inr reachable⟩
      have blocked := setLRUCache_blocked cache.list nonempty table grants.all node.val reachable
      simp only [kvSet, setDone, Option.bind_eq_bind, Option.bind_some, blocked, Option.bind_none]
  · refine Or.inl ⟨?_, Or.inl missing⟩
    simp only [kvSet, setDone, Option.bind_eq_bind, Option.bind_some, Option.bind_none]

/-- A completed `kv_get`. -/
structure GetOutcome (s : State) (head : Nat) (path : List Nat) (key : CString) (change : Change)
    (value : Option Nat) (t : State) : Prop where
  changed : Changed s head path key change t
  sound : StoreSound t head (change.path s.entries.length path)
  requests : (change = .kept ∧ t.totalHits = s.totalHits) ∨ ∃ prev curr, change = .used prev curr
  value : ∀ b, value = some b ↔ Stores s.kvHashTab key b
  stores : ∀ k b, Stores t.kvHashTab k b ↔ Stores s.kvHashTab k b
  buffers : t.buffers = s.buffers
  accesses : t.totalAccesses = increased s.totalAccesses
  sets : t.totalSetSuccess = s.totalSetSuccess

/-- The entries after a request were in the list before it. -/
theorem Change.requested_members {change : Change} {fresh address : Nat} {path : List Nat}
    (requests : change = .kept ∨ ∃ prev curr, change = .used prev curr ∧ curr ∈ path)
    (member : address ∈ change.path fresh path) : address ∈ path := by
  rcases requests with rfl | ⟨prev, curr, rfl, currIn⟩
  · exact member
  · rcases List.mem_append.mp member with kept | last
    · exact List.mem_of_mem_erase kept
    · rw [List.mem_singleton.mp last]
      exact currIn

/-- `kv_get` completes and returns the pointer stored for the key. -/
theorem StoreSound.get {head : Nat} {path : List Nat} (sound : StoreSound s head path)
    (nonempty : key.chars ≠ []) :
    ∃ change value t, kvGet s key = some (value, t) ∧ GetOutcome s head path key change value t := by
  obtain ⟨entry, change, t, getDone, changed, list, requested, outcome⟩ :=
    getLRUCache_done sound.cache.list nonempty sound.kv
  have backed : ∀ address ∈ change.path s.entries.length path, ∀ k b,
      dataIn t.entries address = some (k, b) → Stores t.kvHashTab k b := by
    intro address member k b data
    rw [requested.data] at data
    refine (requested.stores k b).mpr (sound.backed address ?_ k b data)
    refine Change.requested_members ?_ member
    rcases outcome with ⟨_, isKept, _⟩ | ⟨prev, curr, _, rfl, _⟩
    · exact Or.inl isKept
    · exact Or.inr ⟨prev, curr, rfl, links_second _ _ _ changed.allowed.1⟩
  have next : StoreSound t head (change.path s.entries.length path) :=
    ⟨sound.cache.changed changed list, requested.kv, backed⟩
  rcases outcome with ⟨rfl, rfl, hits⟩ | ⟨prev, curr, rfl, rfl, _⟩
  · obtain ⟨found, got, found_iff, isNone⟩ := getKVHashTab_done nonempty requested.kv
    refine ⟨.kept, found.map KVNode.val, t, ?_, changed, next, Or.inl ⟨rfl, hits⟩, ?_,
      requested.stores, requested.buffers, requested.accesses, requested.sets⟩
    · simp only [kvGet, getDone, Option.bind_eq_bind, Option.bind_some, got]
    · intro b
      rw [← requested.stores, Option.map_eq_some_iff]
      constructor
      · rintro ⟨node, isFound, rfl⟩
        obtain ⟨held, named⟩ := (found_iff node).mp isFound
        exact ⟨node, held, named, rfl⟩
      · rintro ⟨node, held, named, rfl⟩
        exact ⟨node, (found_iff node).mpr ⟨held, named⟩, rfl⟩
  · have member := links_second _ _ _ changed.allowed.1
    obtain ⟨old, oldHere, named⟩ := Option.map_eq_some_iff.mp changed.allowed.2
    obtain ⟨now, nowHere, sameKey, sameVal, _⟩ := entry_congr requested.data oldHere
    have stored : Stores s.kvHashTab key now.val := by
      refine sound.backed curr member key now.val ?_
      simp [dataIn, oldHere, named, sameVal]
    refine ⟨.used prev curr, some now.val, t, ?_, changed, next, Or.inr ⟨prev, curr, rfl⟩, ?_,
      requested.stores, requested.buffers, requested.accesses, requested.sets⟩
    · simp only [kvGet, getDone, Option.bind_eq_bind, Option.bind_some, nowHere]
    · intro b
      constructor
      · rintro ⟨rfl⟩
        exact stored
      · intro other
        rw [sound.kv.value_unique stored other]

/-- A completed `kv_delete`. -/
structure DeleteOutcome (s : State) (head : Nat) (path : List Nat) (key : CString)
    (change : Change) (status : Int) (t : State) : Prop where
  changed : Changed s head path key change t
  sound : StoreSound t head (change.path s.entries.length path)
  deletes : change = .kept ∨ ∃ prev curr, change = .deleted prev curr
  status : status = 0 ∧ (∃ b, Stores s.kvHashTab key b) ∨
    status = 1 ∧ ∀ b, ¬ Stores s.kvHashTab key b
  stores : ∀ k b, Stores t.kvHashTab k b ↔ k ≠ key ∧ Stores s.kvHashTab k b
  buffers : t.buffers = s.buffers
  accesses : t.totalAccesses = s.totalAccesses
  hits : t.totalHits = s.totalHits
  sets : t.totalSetSuccess = s.totalSetSuccess

/-- `delKVHashTab` removes the node of the key, if there is one. -/
theorem delKVHashTab_done (nonempty : key.chars ≠ []) (kv : TableSound KVNode.key s.kvHashTab) :
    ∃ status tab freed, delKVHashTab s key = some (status, s.valued tab s.buffers freed) ∧
      (status = 0 ∧ (∃ b, Stores s.kvHashTab key b) ∨
        status = 1 ∧ ∀ b, ¬ Stores s.kvHashTab key b) ∧
      TableSound KVNode.key tab ∧
      ∀ k b, Stores tab k b ↔ k ≠ key ∧ Stores s.kvHashTab k b := by
  obtain ⟨chain, here⟩ := kv.chain_exists key
  obtain ⟨found_iff, isNone⟩ := kv.find here
  obtain ⟨table, members⟩ := kv.removed here
  cases got : chain.find? fun node => sameKey key node.key with
  | none =>
    have fresh := isNone.mp got
    refine ⟨1, s.kvHashTab, s.freed, ?_, Or.inr ⟨rfl, ?_⟩, kv, ?_⟩
    · simp only [delKVHashTab, kvChain_eq nonempty, here, Option.map_some, Option.bind_eq_bind,
        Option.bind_some, got]
      rfl
    · rintro b ⟨node, held, named, _⟩
      exact fresh node held named
    · intro k b
      refine ⟨fun stored => ⟨?_, stored⟩, And.right⟩
      obtain ⟨node, held, rfl, _⟩ := stored
      exact fresh node held
  | some node =>
    obtain ⟨held, named⟩ := (found_iff node).mp got
    refine ⟨0, _, s.freed ++ [node.val], ?_, Or.inl ⟨rfl, node.val, node, held, named, rfl⟩, table, ?_⟩
    · simp only [delKVHashTab, kvChain_eq nonempty, here, Option.map_some, Option.bind_eq_bind,
        Option.bind_some, got]
      rfl
    · intro k b
      constructor
      · rintro ⟨other, otherHeld, rfl, rfl⟩
        obtain ⟨old, different⟩ := (members other).mp otherHeld
        exact ⟨different, other, old, rfl, rfl⟩
      · rintro ⟨different, other, old, rfl, rfl⟩
        exact ⟨other, (members other).mpr ⟨old, different⟩, rfl, rfl⟩

/-- `kv_delete` completes and leaves the other keys as they are. -/
theorem StoreSound.delete {head : Nat} {path : List Nat} (sound : StoreSound s head path)
    (nonempty : key.chars ≠ []) :
    ∃ change status t, kvDelete s key = some (status, t) ∧
      DeleteOutcome s head path key change status t := by
  obtain ⟨change, middle, cacheDone, changed, list, deletes, data, entries, lru, tail, rfl⟩ :=
    delLRUCache_done sound.cache.list nonempty
  obtain ⟨status, tab, freed, done, answered, table, stores⟩ := delKVHashTab_done
    (s := s.relinked entries lru tail) nonempty sound.kv
  have next := sound.cache.changed changed list
  refine ⟨change, status, (s.relinked entries lru tail).valued tab s.buffers freed, ?_,
    ⟨changed.allowed, changed.nexts, changed.keys, changed.allocated, changed.counter,
      changed.evictions⟩, ⟨⟨list.congr rfl rfl rfl rfl, next.stale, next.counted, next.small⟩, table,
      ?_⟩, deletes, answered, stores, rfl, rfl, rfl, rfl⟩
  · simp only [kvDelete, cacheDone, Option.bind_eq_bind, Option.bind_some, done]
    rfl
  · intro address member k b dataNow
    have dataOld : dataIn s.entries address = some (k, b) := by
      rw [← data]
      exact dataNow
    have name : keyIn s.entries address = some k := by
      rw [keyIn_data, dataOld]
      rfl
    have old : address ∈ path ∧ k ≠ key := by
      rcases deletes with rfl | ⟨prev, curr, rfl⟩
      · refine ⟨member, ?_⟩
        rintro rfl
        exact changed.allowed address member name
      · have before : address ∈ path := List.mem_of_mem_erase member
        refine ⟨before, ?_⟩
        rintro rfl
        have same := sound.cache.list.keys address before curr
          (links_second _ _ _ changed.allowed.1) (name.trans changed.allowed.2.symm)
        have distinct := (List.nodup_cons.mp sound.cache.list.distinct).2
        exact distinct.not_mem_erase (same ▸ member)
    exact (stores k b).mpr ⟨old.2, sound.backed address old.1 k b dataOld⟩

end Values

end Xinu.KeyValueStore
