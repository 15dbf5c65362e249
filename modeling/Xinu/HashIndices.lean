import Xinu.LoggedSteps
import Xinu.StoreRuns

/-!
# The indices of the hash tables

The functions of the store are stated again with a log of the hash codes at which they look into the two
tables, in the order of the accesses; without the log they are the functions of the model. A change through
the pointer that a search returned repeats the search and logs its code again.

The code of a key that is not empty is an index. Beside the key of the call, the cache hashes the keys of
entries: of the one that is moved, of the one behind it, and of the one that is taken over. These entries
were added behind the head, for keys that were hashed before.
-/

namespace Xinu.KeyValueStore

open CIntegers ChainedTable LoggedSteps Runs

namespace Recorded

open LoggedSteps.Logged

/-- A computation with the hash codes that it uses as indices. -/
abbrev Recording := Logged Int

/-- The index of a key. -/
def tableAt (key : CString) : Recording (Fin 512) := entry (hashFunc key) (tableIndex (hashFunc key))

def kvChain (s : State) (key : CString) : Recording (Fin 512 × List KVNode) := do
  let i ← tableAt key
  let chain ← lift (s.kvHashTab i)
  pure (i, chain)

def lruChain (s : State) (key : CString) : Recording (Fin 512 × List LRUNode) := do
  let i ← tableAt key
  let chain ← lift (s.lruHashTab i)
  pure (i, chain)

/-- `getKVHashTab`. -/
def getKVHashTab (s : State) (key : CString) : Recording (Option KVNode) := do
  let (_, chain) ← kvChain s key
  pure (chain.find? fun node => sameKey key node.key)

def changeKVNode (s : State) (key : CString) (change : KVNode → KVNode) : Recording State := do
  let (i, chain) ← kvChain s key
  pure (s.setKvChain i (replaceFirst (fun node => sameKey key node.key) change chain))

/-- `updateKVNode`. -/
def updateKVNode (s : State) (grants : Grants) (key val : CString) : Recording State :=
  match grants.value with
  | none => pure s
  | some buffer => changeKVNode (s.store buffer val) key fun node => { node with val := buffer }

/-- `setKVHashTab`. -/
def setKVHashTab (s : State) (grants : Grants) (key val : CString) :
    Recording (Option KVNode × State) := do
  let found ← getKVHashTab s key
  match found with
  | some kvNode => do
    let s ← updateKVNode (s.xfree kvNode.val) grants key val
    let kvNode ← getKVHashTab s key
    pure (kvNode, s)
  | none => do
    let (created, s) ← lift (createKVNode s grants key val)
    let (i, chain) ← kvChain s key
    match created with
    | none => pure (none, s)
    | some kvNode => pure (some kvNode, s.setKvChain i (chain ++ [kvNode]))

/-- `delKVHashTab`. -/
def delKVHashTab (s : State) (key : CString) : Recording (Int × State) := do
  let (i, chain) ← kvChain s key
  match chain.find? fun node => sameKey key node.key with
  | some kvNode =>
    pure (0, (s.xfree kvNode.val).setKvChain i (chain.eraseP fun node => sameKey key node.key))
  | none => pure (1, s)

/-- `getLRUHashTab`. -/
def getLRUHashTab (s : State) (key : CString) : Recording (Option LRUNode) := do
  let (_, chain) ← lruChain s key
  pure (chain.find? fun node => sameKey key node.key)

def setPrev (s : State) (key : CString) (prev : Nat) : Recording State := do
  let (i, chain) ← lruChain s key
  let _ ← lift (chain.find? fun node => sameKey key node.key)
  pure (s.setLruChain i
    (replaceFirst (fun node => sameKey key node.key) (fun node => { node with prev := prev }) chain))

/-- `setLRUHashTab`. -/
def setLRUHashTab (s : State) (grants : Grants) (key : CString) (prev : Nat) : Recording State := do
  let found ← getLRUHashTab s key
  match found with
  | some _ => setPrev s key prev
  | none =>
    if grants.lruNode then do
      let (i, chain) ← lruChain s key
      pure (s.setLruChain i (chain ++ [⟨key, prev⟩]))
    else lift none

/-- `delLRUHashTab`. -/
def delLRUHashTab (s : State) (key : CString) : Recording State := do
  let (i, chain) ← lruChain s key
  pure (s.setLruChain i (chain.eraseP fun node => sameKey key node.key))

/-- `movLRUCache`. -/
def movLRUCache (s : State) (prev : Nat) : Recording State := do
  let entry ← lift s.entries[prev]?
  if entry.next = s.tailLRU then pure s
  else do
    let curr ← lift entry.next
    let moved ← lift s.entries[curr]?
    let s ← lift (s.setNext prev moved.next)
    let tail ← lift s.tailLRU
    let s ← lift (s.setNext tail (some curr))
    let before ← lift s.entries[prev]?
    let next ← lift before.next
    let behind ← lift s.entries[next]?
    let s ← setPrev s behind.key prev
    let last ← lift s.entries[curr]?
    let s ← setPrev s last.key tail
    pure { s with tailLRU := some curr }

def countKVNode (s : State) (key : CString) : Recording State := do
  let found ← getKVHashTab s key
  match found with
  | some _ => changeKVNode s key fun node => { node with count := increased node.count }
  | none => pure s

/-- `getLRUCache`. -/
def getLRUCache (s : State) (key : CString) : Recording (Option Nat × State) := do
  let s ← countKVNode s.countAccess key
  let found ← getLRUHashTab s key
  match found with
  | none => pure (none, s)
  | some lruNode => do
    let s ← movLRUCache s.countHit lruNode.prev
    pure (s.tailLRU, s)

def appendLRUEntry (s : State) (grants : Grants) (key : CString) (val : Nat) : Recording State := do
  let (curr, s) ← lift (createLRUEntry s.countKey grants key val)
  let tail ← lift s.tailLRU
  let s ← lift (s.setNext tail (some curr))
  let s ← setLRUHashTab s grants key tail
  pure { s with tailLRU := some curr }

def evictLRUEntry (s : State) (grants : Grants) (key : CString) (val : Nat) : Recording State := do
  let headLRU ← lift s.headLRU
  let first ← lift s.entries[headLRU]?
  let head ← lift first.next
  let evicted ← lift s.entries[head]?
  let s ← delLRUHashTab s evicted.key
  let s ← lift (s.changeEntry head fun entry => { entry with key := key, val := val })
  let s ← setLRUHashTab s grants key headLRU
  let s ← movLRUCache s headLRU
  pure s.countEviction

/-- `setLRUCache`. -/
def setLRUCache (s : State) (grants : Grants) (key : CString) (val : Nat) : Recording State := do
  let (curr, s) ← getLRUCache s.countSet key
  match curr with
  | some curr => lift (s.changeEntry curr fun entry => { entry with val := val })
  | none =>
    if s.counterLRU.toInt < lruCacheSize then appendLRUEntry s grants key val
    else evictLRUEntry s grants key val

def leaveTail (s : State) (prev : Nat) (curr : Option Nat) : Recording State :=
  if curr = s.tailLRU then pure { s with tailLRU := some prev }
  else do
    let curr ← lift curr
    let left ← lift s.entries[curr]?
    let next ← lift left.next
    let behind ← lift s.entries[next]?
    setPrev s behind.key prev

/-- `delLRUCache`. -/
def delLRUCache (s : State) (key : CString) : Recording State := do
  let found ← getLRUHashTab s key
  match found with
  | none => pure s
  | some lruNode => do
    let prev := lruNode.prev
    let before ← lift s.entries[prev]?
    let curr := before.next
    let s ← leaveTail s prev curr
    let s ← delLRUHashTab s key
    let curr ← lift curr
    let left ← lift s.entries[curr]?
    lift (s.setNext prev left.next)

/-- `kv_set`. -/
def kvSet (s : State) (grants : Grants) (key val : CString) : Recording (Int × State) := do
  let (kvNode, s) ← setKVHashTab s grants key val
  let kvNode ← lift kvNode
  let s ← setLRUCache s grants kvNode.key kvNode.val
  pure (0, s)

/-- `kv_get`. -/
def kvGet (s : State) (key : CString) : Recording (Option Nat × State) := do
  let (lruEntry, s) ← getLRUCache s key
  match lruEntry with
  | some lruEntry => do
    let entry ← lift s.entries[lruEntry]?
    pure (some entry.val, s)
  | none => do
    let found ← getKVHashTab s key
    pure (found.map KVNode.val, s)

/-- `kv_delete`. -/
def kvDelete (s : State) (key : CString) : Recording (Int × State) := do
  let s ← delLRUCache s key
  delKVHashTab s key

/-- One call. -/
def exec (s : State) : Call → Recording (Reply × State)
  | .set grants key val => do
    let (status, s) ← kvSet s grants key val
    pure (.status status, s)
  | .get key => do
    let (buffer, s) ← kvGet s key
    pure (.value buffer, s)
  | .delete key => do
    let (status, s) ← kvDelete s key
    pure (.status status, s)

section Outcomes

variable {s : State} {grants : Grants} {key val : CString} {address prev : Nat}

@[simp] theorem kvChain_outcome : (kvChain s key).outcome = s.kvChain key := by
  simp [kvChain, State.kvChain, tableAt]

@[simp] theorem lruChain_outcome : (lruChain s key).outcome = s.lruChain key := by
  simp [lruChain, State.lruChain, tableAt]

@[simp] theorem getKVHashTab_outcome :
    (getKVHashTab s key).outcome = KeyValueStore.getKVHashTab s key := by
  simp [getKVHashTab, KeyValueStore.getKVHashTab]

@[simp] theorem changeKVNode_outcome {change : KVNode → KVNode} :
    (changeKVNode s key change).outcome = KeyValueStore.changeKVNode s key change := by
  simp [changeKVNode, KeyValueStore.changeKVNode]

@[simp] theorem updateKVNode_outcome :
    (updateKVNode s grants key val).outcome = KeyValueStore.updateKVNode s grants key val := by
  unfold updateKVNode KeyValueStore.updateKVNode
  cases grants.value <;> simp

@[simp] theorem setKVHashTab_outcome :
    (setKVHashTab s grants key val).outcome = KeyValueStore.setKVHashTab s grants key val := by
  unfold setKVHashTab KeyValueStore.setKVHashTab
  apply outcome_bind_eq getKVHashTab_outcome
  intro found
  cases found with
  | some kvNode => simp
  | none =>
    apply outcome_bind_eq outcome_lift
    rintro ⟨created, next⟩
    apply outcome_bind_eq kvChain_outcome
    rintro ⟨i, chain⟩
    cases created <;> rfl

@[simp] theorem delKVHashTab_outcome : (delKVHashTab s key).outcome = KeyValueStore.delKVHashTab s key := by
  unfold delKVHashTab KeyValueStore.delKVHashTab
  apply outcome_bind_eq kvChain_outcome
  rintro ⟨i, chain⟩
  dsimp only
  cases chain.find? fun node => sameKey key node.key <;> rfl

@[simp] theorem getLRUHashTab_outcome :
    (getLRUHashTab s key).outcome = KeyValueStore.getLRUHashTab s key := by
  simp [getLRUHashTab, KeyValueStore.getLRUHashTab]

@[simp] theorem setPrev_outcome : (setPrev s key prev).outcome = KeyValueStore.setPrev s key prev := by
  simp [setPrev, KeyValueStore.setPrev]

@[simp] theorem setLRUHashTab_outcome :
    (setLRUHashTab s grants key prev).outcome = KeyValueStore.setLRUHashTab s grants key prev := by
  unfold setLRUHashTab KeyValueStore.setLRUHashTab
  apply outcome_bind_eq getLRUHashTab_outcome
  intro found
  cases found with
  | some node => simp
  | none => cases grants.lruNode <;> simp

@[simp] theorem delLRUHashTab_outcome :
    (delLRUHashTab s key).outcome = KeyValueStore.delLRUHashTab s key := by
  simp [delLRUHashTab, KeyValueStore.delLRUHashTab]

@[simp] theorem movLRUCache_outcome : (movLRUCache s prev).outcome = KeyValueStore.movLRUCache s prev := by
  unfold movLRUCache KeyValueStore.movLRUCache
  apply outcome_bind_eq outcome_lift
  intro entry
  by_cases atTail : entry.next = s.tailLRU
  · simp [atTail]
  · simp [atTail]

@[simp] theorem countKVNode_outcome : (countKVNode s key).outcome = KeyValueStore.countKVNode s key := by
  unfold countKVNode KeyValueStore.countKVNode
  apply outcome_bind_eq getKVHashTab_outcome
  intro found
  cases found <;> simp

@[simp] theorem getLRUCache_outcome : (getLRUCache s key).outcome = KeyValueStore.getLRUCache s key := by
  unfold getLRUCache KeyValueStore.getLRUCache
  apply outcome_bind_eq countKVNode_outcome
  intro counted
  apply outcome_bind_eq getLRUHashTab_outcome
  intro found
  cases found <;> simp

@[simp] theorem appendLRUEntry_outcome {val : Nat} :
    (appendLRUEntry s grants key val).outcome = KeyValueStore.appendLRUEntry s grants key val := by
  simp [appendLRUEntry, KeyValueStore.appendLRUEntry]

@[simp] theorem evictLRUEntry_outcome {val : Nat} :
    (evictLRUEntry s grants key val).outcome = KeyValueStore.evictLRUEntry s grants key val := by
  simp [evictLRUEntry, KeyValueStore.evictLRUEntry]

@[simp] theorem setLRUCache_outcome {val : Nat} :
    (setLRUCache s grants key val).outcome = KeyValueStore.setLRUCache s grants key val := by
  unfold setLRUCache KeyValueStore.setLRUCache
  apply outcome_bind_eq getLRUCache_outcome
  rintro ⟨curr, looked⟩
  cases curr with
  | some curr => rfl
  | none =>
    dsimp only
    split <;> simp

@[simp] theorem leaveTail_outcome {curr : Option Nat} :
    (leaveTail s prev curr).outcome = KeyValueStore.leaveTail s prev curr := by
  unfold leaveTail KeyValueStore.leaveTail
  split <;> simp

@[simp] theorem delLRUCache_outcome : (delLRUCache s key).outcome = KeyValueStore.delLRUCache s key := by
  unfold delLRUCache KeyValueStore.delLRUCache
  apply outcome_bind_eq getLRUHashTab_outcome
  intro found
  cases found <;> simp

/-- Without the log, a call is the call of the model. -/
theorem exec_outcome (call : Call) : (exec s call).outcome = KeyValueStore.exec s call := by
  cases call with
  | set grants key val =>
    simp [exec, KeyValueStore.exec, kvSet, KeyValueStore.kvSet, Option.map_eq_bind, Option.bind_assoc]
  | get key =>
    have got : (kvGet s key).outcome = KeyValueStore.kvGet s key := by
      unfold kvGet KeyValueStore.kvGet
      apply outcome_bind_eq getLRUCache_outcome
      rintro ⟨lruEntry, looked⟩
      cases lruEntry <;> simp
    simp [exec, KeyValueStore.exec, got, Option.map_eq_bind]
  | delete key =>
    simp [exec, KeyValueStore.exec, kvDelete, KeyValueStore.kvDelete, Option.map_eq_bind, Option.bind_assoc]

end Outcomes

end Recorded

end Xinu.KeyValueStore
