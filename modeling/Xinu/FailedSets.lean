import Xinu.StoreMap

/-!
# A value that cannot be stored

`xmalloc` answers the null pointer for a value that is longer than its largest
buffers, and for one whose pool is empty. `createKVNode` and `updateKVNode` notice
and report it, and `kv_set` looks at neither report.

For a stored key the old value has been given back by then. Its node keeps the
pointer, the pointer is written into the list of the cache, and `kv_set` counts a
success and answers `0`. For a new key `kv_set` reads the fields of a node that was
not created.
-/

namespace Xinu.KeyValueStore

open CIntegers ChainedTable LinkedPath Runs

/-- The buffers that a call gave back. -/
def givenBack (before after : State) : List Nat := after.freed.drop before.freed.length

/-- What `kv_get` answers, with the text behind the pointer. -/
def answer (s : State) (key : CString) : Option (Option (Nat × CString)) :=
  (kvGet s key).map fun (value, t) => value.map fun buffer => (buffer, t.buffers buffer)

/-- A `kv_set` that failed and left the store as it was. -/
structure RejectedCleanly (s : State) (status : Int) (t : State) : Prop where
  status : status ≠ 0
  answers : ∀ key, answer t key = answer s key
  successes : t.totalSetSuccess = s.totalSetSuccess
  table : ∀ key buffer, Stores t.kvHashTab key buffer → buffer ∉ givenBack s t
  cache : ∀ path, Listed t path → ∀ address ∈ path, ∀ key buffer,
    dataIn t.entries address = some (key, buffer) → buffer ∉ givenBack s t

/-- A `kv_set` that counts a success after it gave back the value of its key, which the
table and the cache still refer to. -/
structure KeepsGivenBack (s : State) (key : CString) (buffer : Nat) (status : Int) (t : State) :
    Prop where
  status : status = 0
  successes : t.totalSetSuccess = increased s.totalSetSuccess
  given : givenBack s t = [buffer]
  table : Stores t.kvHashTab key buffer
  cache : ∃ path, Listed t path ∧ ∃ address ∈ path, dataIn t.entries address = some (key, buffer)

section Sets

variable {s t : State} {grants : Grants} {key : CString} {buffer : Nat} {status : Int}

/-- The only status of `kv_set`. -/
theorem kvSet_status (val : CString) (done : kvSet s grants key val = some (status, t)) :
    status = 0 := by
  obtain ⟨⟨kvNode, next⟩, _, later⟩ := Option.bind_eq_some_iff.mp done
  obtain ⟨node, _, later⟩ := Option.bind_eq_some_iff.mp later
  obtain ⟨final, _, result⟩ := Option.bind_eq_some_iff.mp later
  cases result
  rfl

/-- The empty string has no place in the tables. -/
theorem kvSet_empty (val : CString) (empty : key.chars = []) : kvSet s grants key val = none := by
  have noChain : s.kvChain key = none := by simp [State.kvChain, hashFunc, empty, tableIndex]
  simp [kvSet, setKVHashTab, getKVHashTab, noChain]

/-- Without a buffer the node of a stored key is left alone, and its value is given back. -/
theorem setKVHashTab_stored (val : CString) (nonempty : key.chars ≠ [])
    (kv : TableSound KVNode.key s.kvHashTab) (stored : Stores s.kvHashTab key buffer)
    (missing : grants.value = none) :
    ∃ node, node.key = key ∧ node.val = buffer ∧
      setKVHashTab s grants key val = some (some node, s.xfree buffer) := by
  obtain ⟨node, held, named, isValue⟩ := stored
  obtain ⟨found, got, found_iff, _⟩ := getKVHashTab_done nonempty kv
  have isNode : found = some node := (found_iff node).mpr ⟨held, named⟩
  subst isNode isValue
  have gotNow : getKVHashTab (s.xfree node.val) key = some (some node) := got
  refine ⟨node, named, rfl, ?_⟩
  simp only [setKVHashTab, got, Option.bind_eq_bind, Option.bind_some, updateKVNode, missing, gotNow]

/-- Without a buffer a new key gets no node. -/
theorem setKVHashTab_absent (val : CString) (nonempty : key.chars ≠ [])
    (kv : TableSound KVNode.key s.kvHashTab) (absent : ∀ buffer, ¬ Stores s.kvHashTab key buffer)
    (missing : grants.value = none) (granted : grants.key = true) :
    setKVHashTab s grants key val = some (none, s) := by
  obtain ⟨found, got, found_iff, isNone⟩ := getKVHashTab_done nonempty kv
  obtain ⟨chain, here⟩ := kv.chain_exists key
  have isAbsent : found = none := by
    refine isNone.mpr ?_
    intro node held named
    exact absent node.val ⟨node, held, named, rfl⟩
  subst isAbsent
  simp only [setKVHashTab, got, Option.bind_eq_bind, Option.bind_some, createKVNode, granted, if_true,
    missing, kvChain_eq nonempty, here, Option.map_some]

/-- The overwrite of a stored key without a buffer. -/
theorem StoreSound.overwritten {head : Nat} {path : List Nat} (sound : StoreSound s head path)
    (val : CString) (stored : Stores s.kvHashTab key buffer) (missing : grants.value = none)
    (done : kvSet s grants key val = some (status, t)) : KeepsGivenBack s key buffer status t := by
  have nonempty : key.chars ≠ [] := by
    intro empty
    cases (kvSet_empty val empty).symm.trans done
  obtain ⟨node, named, isValue, setDone⟩ := setKVHashTab_stored val nonempty sound.kv stored missing
  simp only [kvSet, setDone, Option.bind_eq_bind, Option.bind_some, named, isValue] at done
  obtain ⟨final, cached, result⟩ := Option.bind_eq_some_iff.mp done
  cases result
  have cache : CacheSound (s.xfree buffer) head path :=
    ⟨sound.cache.list.congr rfl rfl rfl rfl, sound.cache.stale, sound.cache.counted,
      sound.cache.small⟩
  have cachedAll := setLRUCache_granted _ _ _ cached
  by_cases reachable : Reachable (s.xfree buffer) head path
  · obtain ⟨change, next, setDone, _, list, _, inserted⟩ := setLRUCache_done cache nonempty sound.kv
      grants.all buffer rfl rfl reachable
    cases Option.some.inj (setDone.symm.trans cachedAll)
    obtain ⟨address, member, data⟩ := inserted.data
    refine ⟨rfl, inserted.sets, ?_, (inserted.stores key buffer).mpr stored, _, list.listed, address,
      member, ?_⟩
    · rw [givenBack, inserted.freed]
      exact List.drop_left
    · rw [data, Function.update_self]
  · cases (setLRUCache_blocked cache.list nonempty sound.kv grants.all buffer reachable).symm.trans
      cachedAll

/-- A new key without a buffer. -/
theorem StoreSound.unstored {head : Nat} {path : List Nat} (sound : StoreSound s head path)
    (val : CString) (absent : ∀ buffer, ¬ Stores s.kvHashTab key buffer)
    (missing : grants.value = none) : kvSet s grants key val = none := by
  by_cases empty : key.chars = []
  · exact kvSet_empty val empty
  · cases done : kvSet s grants key val with
    | none => rfl
    | some result =>
      have granted := kvSet_granted s val result done
      have setDone : setKVHashTab s grants.all key val = some (none, s) :=
        setKVHashTab_absent val empty sound.kv absent missing rfl
      simp [kvSet, setDone] at granted

end Sets

end Xinu.KeyValueStore
