import Xinu.CIntegers
import Xinu.CStrings
import Xinu.ChainedTable
import Xinu.Runs

/-!
# The key-value store

The globals of `kv_store.c`: two hash tables of 512 chains, the list of cache
entries between `headLRU` and `tailLRU`, and the counters.

A pointer to a cache entry is the number of its allocation, since entries are
never given back, and a missing number is the null pointer. Entries keep their
`next` field when they leave the list, so such fields go stale. A chain of a hash
table is the list of the nodes behind its head node, which is missing before
`kv_init` and after `kv_reset`. The copies of keys are never changed or given
back, so a key pointer is the string it points to. A value pointer is a buffer of
the segregated allocator, and its contents are part of the state. `freed` is not
part of the program; it lists the buffers given to `xfree` so far.

`getmem` reports a failure as `SYSERR`, which the tests against the null pointer
do not catch, so a request that is not granted has no outcome. `xmalloc` answers
with a buffer or the null pointer. Following a null pointer or a number that has
not been allocated has no outcome either.
-/

namespace Xinu.KeyValueStore

open CIntegers ChainedTable

/-- `MAX_KEY_SIZE`, `HASH_TAB_SIZE` and `LRU_CACHE_SIZE`. -/
def maxKeySize : Nat := 64
def hashTabSize : Nat := 512
def lruCacheSize : Nat := 128

/-- `KVNode_t`. -/
structure KVNode where
  key : CString
  val : Nat
  count : Int32

/-- `LRUEntry_t`. -/
structure LRUEntry where
  key : CString
  val : Nat
  next : Option Nat

/-- `LRUNode_t`. -/
structure LRUNode where
  key : CString
  prev : Nat

/-- The globals of the store. -/
structure State where
  kvHashTab : Fin 512 → Option (List KVNode)
  lruHashTab : Fin 512 → Option (List LRUNode)
  entries : List LRUEntry
  headLRU : Option Nat
  tailLRU : Option Nat
  counterLRU : Int32
  totalHits : Int32
  totalAccesses : Int32
  totalSetSuccess : Int32
  totalEvictions : Int32
  buffers : Nat → CString
  freed : List Nat

/-- What the allocators answer during one `kv_set`: whether `getmem` grants the
copy of the key, the node, the entry and the entry's node, and the buffer that
`xmalloc` returns. -/
structure Grants where
  key : Bool
  kvNode : Bool
  lruEntry : Bool
  lruNode : Bool
  value : Option Nat

/-- `counter++`. -/
def increased (counter : Int32) : Int32 := Int32.ofInt (counter.toInt + 1)

/-- `totalAccesses++`, `totalHits++`, `totalSetSuccess++`, `counterLRU++` and
`totalEvictions++`. -/
def State.countAccess (s : State) : State := { s with totalAccesses := increased s.totalAccesses }
def State.countHit (s : State) : State := { s with totalHits := increased s.totalHits }
def State.countSet (s : State) : State := { s with totalSetSuccess := increased s.totalSetSuccess }
def State.countKey (s : State) : State := { s with counterLRU := increased s.counterLRU }
def State.countEviction (s : State) : State :=
  { s with totalEvictions := increased s.totalEvictions }

/-- One round of the hash loop. A `char` is unsigned. -/
def hashRound (hashCode : Int) (c : UInt8) : Int := (hashCode * 31 + c.toNat).tmod hashTabSize

/-- `hashFunc`. -/
def hashFunc (key : CString) : Int :=
  if key.chars = [] then -1 else (key.chars.take maxKeySize).foldl hashRound 0

/-- The index a hash code selects in either table; a code outside the table
selects nothing. -/
def tableIndex (hashCode : Int) : Option (Fin 512) :=
  if inside : 0 ≤ hashCode ∧ hashCode < 512 then some ⟨hashCode.toNat, by omega⟩ else none

/-- The comparison that every search makes on the key of a node. -/
def sameKey (key keyCurr : CString) : Bool :=
  strncmp (keyCurr.chars ++ [0]) (key.chars ++ [0]) (key.chars.length + 1) = 0

/-- The chain of a key in the table of key-value nodes. -/
def State.kvChain (s : State) (key : CString) : Option (Fin 512 × List KVNode) := do
  let i ← tableIndex (hashFunc key)
  let chain ← s.kvHashTab i
  some (i, chain)

/-- The chain of a key in the table of cache nodes. -/
def State.lruChain (s : State) (key : CString) : Option (Fin 512 × List LRUNode) := do
  let i ← tableIndex (hashFunc key)
  let chain ← s.lruHashTab i
  some (i, chain)

def State.setKvChain (s : State) (i : Fin 512) (chain : List KVNode) : State :=
  { s with kvHashTab := Function.update s.kvHashTab i (some chain) }

def State.setLruChain (s : State) (i : Fin 512) (chain : List LRUNode) : State :=
  { s with lruHashTab := Function.update s.lruHashTab i (some chain) }

/-- `xfree`, on a buffer handed out by `xmalloc`. -/
def State.xfree (s : State) (buffer : Nat) : State := { s with freed := s.freed ++ [buffer] }

/-- The copy of a string into a value buffer. -/
def State.store (s : State) (buffer : Nat) (val : CString) : State :=
  { s with buffers := Function.update s.buffers buffer val }

/-- `getKVHashTab`. -/
def getKVHashTab (s : State) (key : CString) : Option (Option KVNode) := do
  let (_, chain) ← s.kvChain key
  some (chain.find? fun node => sameKey key node.key)

/-- A change of the node that `getKVHashTab` returned. -/
def changeKVNode (s : State) (key : CString) (change : KVNode → KVNode) : Option State := do
  let (i, chain) ← s.kvChain key
  some (s.setKvChain i (replaceFirst (fun node => sameKey key node.key) change chain))

/-- `createKVNode`; the null pointer if there is no buffer for the value. -/
def createKVNode (s : State) (grants : Grants) (key val : CString) :
    Option (Option KVNode × State) :=
  if grants.key then
    match grants.value with
    | none => some (none, s)
    | some buffer =>
      if grants.kvNode then some (some ⟨key, buffer, 0⟩, s.store buffer val) else none
  else none

/-- `updateKVNode`, on the node of a key. Without a buffer the node keeps its old
value pointer. -/
def updateKVNode (s : State) (grants : Grants) (key val : CString) : Option State :=
  match grants.value with
  | none => some s
  | some buffer => changeKVNode (s.store buffer val) key fun node => { node with val := buffer }

/-- `setKVHashTab`. The old value is given back before the new one is allocated. -/
def setKVHashTab (s : State) (grants : Grants) (key val : CString) :
    Option (Option KVNode × State) := do
  let found ← getKVHashTab s key
  match found with
  | some kvNode => do
    let s ← updateKVNode (s.xfree kvNode.val) grants key val
    let kvNode ← getKVHashTab s key
    some (kvNode, s)
  | none => do
    let (created, s) ← createKVNode s grants key val
    let (i, chain) ← s.kvChain key
    match created with
    | none => some (none, s)
    | some kvNode => some (some kvNode, s.setKvChain i (chain ++ [kvNode]))

/-- `delKVHashTab`. -/
def delKVHashTab (s : State) (key : CString) : Option (Int × State) := do
  let (i, chain) ← s.kvChain key
  match chain.find? fun node => sameKey key node.key with
  | some kvNode =>
    some (0, (s.xfree kvNode.val).setKvChain i (chain.eraseP fun node => sameKey key node.key))
  | none => some (1, s)

/-- `getLRUHashTab`. -/
def getLRUHashTab (s : State) (key : CString) : Option (Option LRUNode) := do
  let (_, chain) ← s.lruChain key
  some (chain.find? fun node => sameKey key node.key)

/-- `getLRUHashTab(key)->prev = prev`. -/
def setPrev (s : State) (key : CString) (prev : Nat) : Option State := do
  let (i, chain) ← s.lruChain key
  let _ ← chain.find? fun node => sameKey key node.key
  some (s.setLruChain i
    (replaceFirst (fun node => sameKey key node.key) (fun node => { node with prev := prev }) chain))

/-- `setLRUHashTab`. -/
def setLRUHashTab (s : State) (grants : Grants) (key : CString) (prev : Nat) : Option State := do
  let found ← getLRUHashTab s key
  match found with
  | some _ => setPrev s key prev
  | none =>
    if grants.lruNode then do
      let (i, chain) ← s.lruChain key
      some (s.setLruChain i (chain ++ [⟨key, prev⟩]))
    else none

/-- `delLRUHashTab`. Its answer is not looked at. -/
def delLRUHashTab (s : State) (key : CString) : Option State := do
  let (i, chain) ← s.lruChain key
  some (s.setLruChain i (chain.eraseP fun node => sameKey key node.key))

/-- A store into a field of an entry. -/
def State.changeEntry (s : State) (address : Nat) (change : LRUEntry → LRUEntry) : Option State := do
  let entry ← s.entries[address]?
  some { s with entries := s.entries.set address (change entry) }

def State.setNext (s : State) (address : Nat) (next : Option Nat) : Option State :=
  s.changeEntry address fun entry => { entry with next := next }

/-- `createLRUEntry`. -/
def createLRUEntry (s : State) (grants : Grants) (key : CString) (val : Nat) :
    Option (Nat × State) :=
  if grants.lruEntry then
    some (s.entries.length, { s with entries := s.entries ++ [⟨key, val, none⟩] })
  else none

/-- `movLRUCache`. The `next` field of the moved entry is not cleared. -/
def movLRUCache (s : State) (prev : Nat) : Option State := do
  let curr := (← s.entries[prev]?).next
  if curr = s.tailLRU then some s
  else do
    let curr ← curr
    let s ← s.setNext prev (← s.entries[curr]?).next
    let tail ← s.tailLRU
    let s ← s.setNext tail (some curr)
    let next ← (← s.entries[prev]?).next
    let s ← setPrev s (← s.entries[next]?).key prev
    let s ← setPrev s (← s.entries[curr]?).key tail
    some { s with tailLRU := some curr }

/-- The popularity count that `getLRUCache` keeps for a stored key. -/
def countKVNode (s : State) (key : CString) : Option State := do
  match ← getKVHashTab s key with
  | some _ => changeKVNode s key fun node => { node with count := increased node.count }
  | none => some s

/-- `getLRUCache`: the entry of the key, moved to the tail. -/
def getLRUCache (s : State) (key : CString) : Option (Option Nat × State) := do
  let s ← countKVNode s.countAccess key
  match ← getLRUHashTab s key with
  | none => some (none, s)
  | some lruNode => do
    let s ← movLRUCache s.countHit lruNode.prev
    some (s.tailLRU, s)

/-- The path of `setLRUCache` for a cache with room: a new entry at the tail. -/
def appendLRUEntry (s : State) (grants : Grants) (key : CString) (val : Nat) : Option State := do
  let (curr, s) ← createLRUEntry s.countKey grants key val
  let tail ← s.tailLRU
  let s ← s.setNext tail (some curr)
  let s ← setLRUHashTab s grants key tail
  some { s with tailLRU := some curr }

/-- The eviction path of `setLRUCache`: the first entry is taken over by the new
key and moved to the tail. -/
def evictLRUEntry (s : State) (grants : Grants) (key : CString) (val : Nat) : Option State := do
  let headLRU ← s.headLRU
  let head ← (← s.entries[headLRU]?).next
  let s ← delLRUHashTab s (← s.entries[head]?).key
  let s ← s.changeEntry head fun entry => { entry with key := key, val := val }
  let s ← setLRUHashTab s grants key headLRU
  let s ← movLRUCache s headLRU
  some s.countEviction

/-- `setLRUCache`. -/
def setLRUCache (s : State) (grants : Grants) (key : CString) (val : Nat) : Option State := do
  let (curr, s) ← getLRUCache s.countSet key
  match curr with
  | some curr => s.changeEntry curr fun entry => { entry with val := val }
  | none =>
    if s.counterLRU.toInt < lruCacheSize then appendLRUEntry s grants key val
    else evictLRUEntry s grants key val

/-- The test of `delLRUCache` for the tail: the tail moves back to `prev`, or the node
of the next entry is made to name `prev`. -/
def leaveTail (s : State) (prev : Nat) (curr : Option Nat) : Option State :=
  if curr = s.tailLRU then some { s with tailLRU := some prev }
  else do
    let next ← (← s.entries[← curr]?).next
    setPrev s (← s.entries[next]?).key prev

/-- `delLRUCache`. The counter is not touched, and the `next` field of the tail may
be stale. -/
def delLRUCache (s : State) (key : CString) : Option State := do
  match ← getLRUHashTab s key with
  | none => some s
  | some lruNode => do
    let prev := lruNode.prev
    let curr := (← s.entries[prev]?).next
    let s ← leaveTail s prev curr
    let s ← delLRUHashTab s key
    s.setNext prev (← s.entries[← curr]?).next

/-- `kv_init`, with the memory that `headLRU` gets: its fields are not set. -/
def kvInit (s : State) (granted : Bool) (memory : LRUEntry) : Option State :=
  if granted then
    some { s with
      counterLRU := 0
      totalHits := 0
      totalAccesses := 0
      totalSetSuccess := 0
      totalEvictions := 0
      headLRU := some s.entries.length
      tailLRU := some s.entries.length
      entries := s.entries ++ [memory]
      kvHashTab := fun _ => some []
      lruHashTab := fun _ => some [] }
  else none

/-- `kv_set`. -/
def kvSet (s : State) (grants : Grants) (key val : CString) : Option (Int × State) := do
  let (kvNode, s) ← setKVHashTab s grants key val
  let kvNode ← kvNode
  let s ← setLRUCache s grants kvNode.key kvNode.val
  some (0, s)

/-- `kv_get`: the buffer of the value, or the null pointer. -/
def kvGet (s : State) (key : CString) : Option (Option Nat × State) := do
  let (lruEntry, s) ← getLRUCache s key
  match lruEntry with
  | some lruEntry => some (some (← s.entries[lruEntry]?).val, s)
  | none => some ((← getKVHashTab s key).map KVNode.val, s)

/-- `kv_delete`. -/
def kvDelete (s : State) (key : CString) : Option (Int × State) := do
  let s ← delLRUCache s key
  delKVHashTab s key

/-- The first loop of `kv_reset`: follow `next` until the null pointer. It does
nothing else, since the entries are not given back. -/
def followToNull (s : State) : Nat → Option Nat → Option Unit
  | _, none => some ()
  | 0, some _ => none
  | turns + 1, some address => do followToNull s turns (← s.entries[address]?).next

/-- `kv_reset`, with a bound on the turns of its first loop. The other two loops
walk along the chains, whose head nodes have no value. -/
def kvReset (s : State) (turns : Nat) : Option State := do
  followToNull s turns s.headLRU
  let buffers := (List.finRange 512).flatMap fun i => ((s.kvHashTab i).getD []).map KVNode.val
  some { s with
    counterLRU := 0
    totalHits := 0
    totalAccesses := 0
    totalSetSuccess := 0
    totalEvictions := 0
    headLRU := none
    tailLRU := none
    kvHashTab := fun _ => none
    lruHashTab := fun _ => none
    freed := s.freed ++ buffers }

/-- The kinds of `get_cache_info`, in the order of its tests. -/
inductive Kind where
  | totalHits
  | totalAccesses
  | totalSetSuccess
  | cacheSize
  | numKeys
  | totalEvictions
deriving DecidableEq

/-- The string that names a kind. -/
def Kind.name : Kind → List Char
  | totalHits => ['t', 'o', 't', 'a', 'l', '_', 'h', 'i', 't', 's']
  | totalAccesses => ['t', 'o', 't', 'a', 'l', '_', 'a', 'c', 'c', 'e', 's', 's', 'e', 's']
  | totalSetSuccess =>
    ['t', 'o', 't', 'a', 'l', '_', 's', 'e', 't', '_', 's', 'u', 'c', 'c', 'e', 's', 's']
  | cacheSize => ['c', 'a', 'c', 'h', 'e', '_', 's', 'i', 'z', 'e']
  | numKeys => ['n', 'u', 'm', '_', 'k', 'e', 'y', 's']
  | totalEvictions => ['t', 'o', 't', 'a', 'l', '_', 'e', 'v', 'i', 'c', 't', 'i', 'o', 'n', 's']

def Kind.bytes (kind : Kind) : List UInt8 := kind.name.map fun c => UInt8.ofNat c.toNat

/-- The value that belongs to a kind. -/
def State.info (s : State) : Kind → Int
  | .totalHits => s.totalHits.toInt
  | .totalAccesses => s.totalAccesses.toInt
  | .totalSetSuccess => s.totalSetSuccess.toInt
  | .cacheSize => lruCacheSize
  | .numKeys => s.counterLRU.toInt
  | .totalEvictions => s.totalEvictions.toInt

/-- `get_cache_info`. -/
def getCacheInfo (s : State) (kind : CString) : Int :=
  match [Kind.totalHits, .totalAccesses, .totalSetSuccess, .cacheSize, .numKeys, .totalEvictions].find?
    fun k => strncmp (kind.chars ++ [0]) (k.bytes ++ [0]) 20 = 0 with
  | some k => s.info k
  | none => -1

/-- The calls on an initialised store. -/
inductive Call where
  | set (grants : Grants) (key val : CString)
  | get (key : CString)
  | delete (key : CString)

/-- What a call returns: a status, or a pointer to a value. -/
inductive Reply where
  | status (value : Int)
  | value (buffer : Option Nat)

/-- One call. -/
def exec (s : State) : Call → Option (Reply × State)
  | .set grants key val => (kvSet s grants key val).map fun (status, s) => (.status status, s)
  | .get key => (kvGet s key).map fun (buffer, s) => (.value buffer, s)
  | .delete key => (kvDelete s key).map fun (status, s) => (.status status, s)

/-- The empty text has no terminator in it. -/
theorem empty_text : 0 ∉ ([] : List UInt8) := List.not_mem_nil

/-- Statically allocated memory starts as zeros. -/
def boot : State where
  kvHashTab := fun _ => none
  lruHashTab := fun _ => none
  entries := []
  headLRU := none
  tailLRU := none
  counterLRU := 0
  totalHits := 0
  totalAccesses := 0
  totalSetSuccess := 0
  totalEvictions := 0
  buffers := fun _ => ⟨[], empty_text⟩
  freed := []

end Xinu.KeyValueStore
