import Xinu.CacheList

/-!
# What a call does to the cache

A call on the store changes the list of entries in one of six ways. Each of them
fixes the next list, the `next` fields, the keys, the counter and the number of
evictions, so the laws about whole runs need to look at the six changes only.

The counter may be larger than the list is long, since a deletion does not
decrease it. An eviction can then meet an empty list. Its head keeps a pointer to an
entry that has left the list, and the eviction takes that entry over.
-/

namespace Xinu.KeyValueStore

open CIntegers ChainedTable LinkedPath

/-- No entry of the list has the key. -/
def Uncached (entries : List LRUEntry) (path : List Nat) (key : CString) : Prop :=
  ∀ address ∈ path, keyIn entries address ≠ some key

/-- The changes: nothing, an entry moved to the tail, a new entry, the first entry taken
over, an entry outside the empty list taken over, an entry bypassed. -/
inductive Change where
  | kept
  | used (prev curr : Nat)
  | added
  | evicted (first : Nat)
  | reused (outside : Nat)
  | deleted (prev curr : Nat)

namespace Change

/-- The list after a change. `fresh` is the address that `createLRUEntry` returns. -/
def path (fresh : Nat) (path : List Nat) : Change → List Nat
  | kept => path
  | used _ curr => path.erase curr ++ [curr]
  | added => path ++ [fresh]
  | evicted first => path.tail ++ [first]
  | reused outside => [outside]
  | deleted _ curr => path.erase curr

/-- The `next` field of `tail` and of the entry before a moved one. -/
def moved (next : Nat → Option Nat) (prev curr tail : Nat) : Nat → Option Nat :=
  if curr = tail then next
  else Function.update (Function.update next prev (next curr)) tail (some curr)

/-- The `next` fields after a change. -/
def next (fresh head tail : Nat) (next : Nat → Option Nat) : Change → Nat → Option Nat
  | kept | reused _ => next
  | used prev curr => moved next prev curr tail
  | added => Function.update next tail (some fresh)
  | evicted first => moved next head first tail
  | deleted prev curr => Function.update next prev (next curr)

/-- The keys after a change. -/
def keys (fresh : Nat) (key : CString) (keys : Nat → Option CString) :
    Change → Nat → Option CString
  | kept | used _ _ | deleted _ _ => keys
  | added => Function.update keys fresh (some key)
  | evicted address | reused address => Function.update keys address (some key)

/-- The number of entries allocated after a change. -/
def allocated (count : Nat) : Change → Nat
  | added => count + 1
  | _ => count

/-- The value of `counterLRU` after a change. -/
def counter (counterLRU : Int32) : Change → Int32
  | added => increased counterLRU
  | _ => counterLRU

/-- The value of `totalEvictions` after a change. -/
def evictions (totalEvictions : Int32) : Change → Int32
  | evicted _ | reused _ => increased totalEvictions
  | _ => totalEvictions

/-- When a call on a key makes a change. -/
def Allowed (s : State) (head : Nat) (path : List Nat) (key : CString) : Change → Prop
  | kept => Uncached s.entries path key
  | used prev curr | deleted prev curr =>
    (prev, curr) ∈ links (head :: path) ∧ keyIn s.entries curr = some key
  | added => Uncached s.entries path key ∧ s.counterLRU.toInt < lruCacheSize
  | evicted first =>
    Uncached s.entries path key ∧ ¬ s.counterLRU.toInt < lruCacheSize ∧ path.head? = some first
  | reused outside =>
    path = [] ∧ ¬ s.counterLRU.toInt < lruCacheSize ∧ nextIn s.entries head = some outside

end Change

/-- A change of the cache from one state to another. -/
structure Changed (s : State) (head : Nat) (path : List Nat) (key : CString) (change : Change)
    (t : State) : Prop where
  allowed : change.Allowed s head path key
  nexts : ∀ tail, s.tailLRU = some tail →
    nextIn t.entries = change.next s.entries.length head tail (nextIn s.entries)
  keys : keyIn t.entries = change.keys s.entries.length key (keyIn s.entries)
  allocated : t.entries.length = change.allocated s.entries.length
  counter : t.counterLRU = change.counter s.counterLRU
  evictions : t.totalEvictions = change.evictions s.totalEvictions

/-- The list with the bounds on the counter. Pointers lead to allocated entries, except
in the head before the first entry is added. -/
structure CacheSound (s : State) (head : Nat) (path : List Nat) : Prop where
  list : ListSound s head path
  stale : ∀ address next, (address = head → 0 < s.counterLRU.toInt) →
    nextIn s.entries address = some next → next < s.entries.length ∧ next ≠ head
  counted : (path.length : Int) ≤ s.counterLRU.toInt
  small : s.counterLRU.toInt ≤ lruCacheSize

/-- A counter in range takes the next value. -/
theorem increased_toInt (counter : Int32) (low : 0 ≤ counter.toInt)
    (room : counter.toInt < lruCacheSize) : (increased counter).toInt = counter.toInt + 1 := by
  unfold increased
  have bound : counter.toInt < 128 := room
  rw [Int32.toInt_ofInt_of_le (by lia) (by omega)]

section Preserved

variable {s t : State} {head : Nat} {path : List Nat} {key : CString} {change : Change}

/-- A pointer of the entry after another one is a pointer of the old state. -/
theorem moved_cases {next : Nat → Option Nat} {prev curr tail address target : Nat}
    (leads : Change.moved next prev curr tail address = some target) :
    target = curr ∨ next address = some target ∨ next curr = some target := by
  unfold Change.moved at leads
  split at leads
  · exact Or.inr (Or.inl leads)
  · rcases eq_or_ne address tail with rfl | notTail
    · rw [Function.update_self] at leads
      exact Or.inl (Option.some.inj leads).symm
    · rw [Function.update_of_ne notTail] at leads
      rcases eq_or_ne address prev with rfl | notPrev
      · rw [Function.update_self] at leads
        exact Or.inr (Or.inr leads)
      · rw [Function.update_of_ne notPrev] at leads
        exact Or.inr (Or.inl leads)

/-- The counter is positive while the list has an entry. -/
theorem CacheSound.positive (sound : CacheSound s head path) {address : Nat}
    (member : address ∈ path) : 0 < s.counterLRU.toInt := by
  have counted := sound.counted
  have length := List.length_pos_of_mem member
  omega

/-- After every change pointers lead to allocated entries. -/
theorem CacheSound.stale_changed (sound : CacheSound s head path)
    (changed : Changed s head path key change t) (address next : Nat)
    (begun : address = head → 0 < t.counterLRU.toInt) (leads : nextIn t.entries address = some next) :
    next < t.entries.length ∧ next ≠ head := by
  obtain ⟨tail, isTail⟩ := sound.list.has_tail
  have headInside := sound.list.allocated head List.mem_cons_self
  have listed : ∀ curr ∈ path, curr < s.entries.length ∧ curr ≠ head := fun curr member =>
    ⟨sound.list.allocated curr (List.mem_cons_of_mem _ member), sound.list.apart member⟩
  have moves : ∀ prev curr, curr ∈ path → Change.moved (nextIn s.entries) prev curr tail address =
      some next → next < s.entries.length ∧ next ≠ head := by
    intro prev curr member moved
    have positive := sound.positive member
    rcases moved_cases moved with rfl | old | behind
    · exact listed _ member
    · exact sound.stale address next (fun _ => positive) old
    · exact sound.stale curr next (fun _ => positive) behind
  rw [changed.counter] at begun
  rw [changed.nexts tail isTail] at leads
  rw [changed.allocated]
  have allowed := changed.allowed
  cases change with
  | kept => exact sound.stale address next begun leads
  | used prev curr => exact moves prev curr (links_second _ _ _ allowed.1) leads
  | added =>
    simp only [Change.next] at leads
    rcases eq_or_ne address tail with rfl | notTail
    · rw [Function.update_self] at leads
      cases Option.some.inj leads
      exact ⟨Nat.lt_succ_self _, headInside.ne'⟩
    · rw [Function.update_of_ne notTail] at leads
      have started : address = head → 0 < s.counterLRU.toInt := by
        rintro rfl
        cases path with
        | nil =>
          have same := sound.list.tail
          rw [isTail] at same
          exact absurd (Option.some.inj same).symm notTail
        | cons first rest => exact sound.positive List.mem_cons_self
      obtain ⟨inside, apart⟩ := sound.stale address next started leads
      exact ⟨Nat.lt_succ_of_lt inside, apart⟩
  | evicted first => exact moves head first (List.mem_of_head? allowed.2.2) leads
  | reused outside => exact sound.stale address next begun leads
  | deleted prev curr =>
    have member := links_second _ _ _ allowed.1
    have positive := sound.positive member
    simp only [Change.next] at leads
    rcases eq_or_ne address prev with rfl | notPrev
    · rw [Function.update_self] at leads
      exact sound.stale curr next (fun _ => positive) leads
    · rw [Function.update_of_ne notPrev] at leads
      exact sound.stale address next (fun _ => positive) leads

/-- Every change that leaves a sound list keeps the bounds on the counter. -/
theorem CacheSound.changed (sound : CacheSound s head path)
    (changed : Changed s head path key change t)
    (list : ListSound t head (change.path s.entries.length path)) :
    CacheSound t head (change.path s.entries.length path) := by
  refine ⟨list, sound.stale_changed changed, ?_, ?_⟩
  · rw [changed.counter]
    have counted := sound.counted
    have allowed := changed.allowed
    cases change with
    | kept => exact counted
    | used prev curr =>
      have member := links_second _ _ _ allowed.1
      have length : (path.erase curr).length = path.length - 1 := List.length_erase_of_mem member
      have positive := List.length_pos_of_mem member
      simp only [Change.path, Change.counter, List.length_append, List.length_singleton]
      omega
    | added =>
      simp only [Change.path, Change.counter, List.length_append, List.length_singleton]
      rw [increased_toInt _ (by omega) allowed.2]
      omega
    | evicted first =>
      have positive := List.length_pos_of_mem (List.mem_of_head? allowed.2.2)
      simp only [Change.path, Change.counter, List.length_append, List.length_singleton,
        List.length_tail]
      omega
    | reused outside =>
      have full := allowed.2.1
      simp only [Change.path, Change.counter, List.length_singleton, lruCacheSize] at full ⊢
      omega
    | deleted prev curr =>
      have member := links_second _ _ _ allowed.1
      have length : (path.erase curr).length = path.length - 1 := List.length_erase_of_mem member
      simp only [Change.path, Change.counter]
      omega
  · rw [changed.counter]
    have counted := sound.counted
    have allowed := changed.allowed
    cases change with
    | added =>
      simp only [Change.counter]
      rw [increased_toInt _ (by omega) allowed.2]
      exact allowed.2
    | _ => exact sound.small

end Preserved

section Calls

variable {s : State} {head : Nat} {path : List Nat} {key : CString}

/-- The table of cache nodes tells whether a key is cached, and where. -/
theorem ListSound.lookup (sound : ListSound s head path) (nonempty : key.chars ≠ []) :
    (Uncached s.entries path key ∧ getLRUHashTab s key = some none) ∨
      ∃ prev curr, (prev, curr) ∈ links (head :: path) ∧ keyIn s.entries curr = some key ∧
        getLRUHashTab s key = some (some ⟨key, prev⟩) := by
  obtain ⟨found, got, found_iff, isNone⟩ := getLRUHashTab_done nonempty sound.table
  cases found with
  | none =>
    refine Or.inl ⟨?_, got⟩
    intro address member named
    obtain ⟨front, prev, back, split⟩ := links_exists head path address member
    have link : (prev, address) ∈ links (head :: path) := by
      rw [split, links_append]
      exact List.mem_append_right _ List.mem_cons_self
    exact isNone.mp rfl ⟨key, prev⟩ ((sound.nodes _).mpr ⟨address, link, named⟩) rfl
  | some node =>
    obtain ⟨held, rfl⟩ := (found_iff node).mp rfl
    obtain ⟨curr, link, named⟩ := (sound.nodes node).mp held
    exact Or.inr ⟨node.prev, curr, link, named, got⟩

/-- What `getLRUCache` leaves of the rest of the state. -/
structure Requested (s t : State) : Prop where
  data : dataIn t.entries = dataIn s.entries
  kv : TableSound KVNode.key t.kvHashTab
  stores : ∀ k b, Stores t.kvHashTab k b ↔ Stores s.kvHashTab k b
  buffers : t.buffers = s.buffers
  freed : t.freed = s.freed
  accesses : t.totalAccesses = increased s.totalAccesses
  sets : t.totalSetSuccess = s.totalSetSuccess

/-- `getLRUCache` moves the entry of a cached key to the tail. -/
theorem getLRUCache_done (sound : ListSound s head path) (nonempty : key.chars ≠ [])
    (kv : TableSound KVNode.key s.kvHashTab) :
    ∃ entry change t, getLRUCache s key = some (entry, t) ∧ Changed s head path key change t ∧
      ListSound t head (change.path s.entries.length path) ∧ Requested s t ∧
      ((entry = none ∧ change = .kept ∧ t.totalHits = s.totalHits) ∨
        ∃ prev curr, entry = some curr ∧ change = .used prev curr ∧ t.tailLRU = some curr) := by
  obtain ⟨tab, countDone, table, stores⟩ := countKVNode_done (s := s.countAccess) nonempty kv
  have counted : ListSound (s.countAccess.withKv tab) head path := sound.congr rfl rfl rfl rfl
  rcases counted.lookup nonempty with ⟨uncached, got⟩ | ⟨prev, curr, link, named, got⟩
  · refine ⟨none, .kept, s.countAccess.withKv tab, ?_, ⟨uncached, fun _ _ => rfl, rfl, rfl, rfl, rfl⟩,
      counted, ⟨rfl, table, stores, rfl, rfl, rfl, rfl⟩, Or.inl ⟨rfl, rfl, rfl⟩⟩
    simp only [getLRUCache, countDone, Option.bind_eq_bind, Option.bind_some, got]
  · obtain ⟨tail, isTail⟩ := sound.has_tail
    have hit : ListSound (s.countAccess.withKv tab).countHit head path :=
      sound.congr rfl rfl rfl rfl
    obtain ⟨entries, lru, moveDone, data, nexts, moved⟩ := hit.moved link isTail
    refine ⟨some curr, .used prev curr,
      (s.countAccess.withKv tab).countHit.relinked entries lru (some curr), ?_,
      ⟨⟨link, named⟩, ?_, keyIn_congr data, allocated_congr data, rfl, rfl⟩, moved, ⟨data, table, stores, rfl, rfl, rfl, rfl⟩,
      Or.inr ⟨prev, curr, rfl, rfl, rfl⟩⟩
    · simp only [getLRUCache, countDone, Option.bind_eq_bind, Option.bind_some, got, moveDone]
      rfl
    · intro other isOther
      cases Option.some.inj (isTail.symm.trans isOther)
      exact nexts

/-- A new value in an entry of the list. -/
theorem ListSound.revalued (sound : ListSound s head path) {curr : Nat} (val : Nat)
    (member : curr ∈ path) (named : keyIn s.entries curr = some key) :
    ∃ entries, s.changeEntry curr (fun entry => { entry with val := val }) =
        some (s.relinked entries s.lruHashTab s.tailLRU) ∧
      nextIn entries = nextIn s.entries ∧ keyIn entries = keyIn s.entries ∧
      entries.length = s.entries.length ∧
      dataIn entries = Function.update (dataIn s.entries) curr (some (key, val)) ∧
      ListSound (s.relinked entries s.lruHashTab s.tailLRU) head path := by
  have inside := sound.allocated curr (List.mem_cons_of_mem _ member)
  have here := List.getElem?_eq_getElem inside
  have sameName : s.entries[curr].key = key := by simpa [keyIn, here] using named
  obtain ⟨entries, done, nexts, data⟩ := changeData_done s curr key val inside
  have length := allocated_update data inside
  have keys : keyIn entries = keyIn s.entries := by
    funext address
    rw [keyIn_update data]
    split
    case isTrue same => rw [same, named]
    case isFalse => rfl
  refine ⟨entries, ?_, nexts, keys, length, data, ?_⟩
  · rw [← done]
    simp only [State.changeEntry, here, Option.bind_eq_bind, Option.bind_some, sameName]
  · refine ⟨sound.start, sound.tail, ?_, sound.distinct, ?_, ?_, ?_, sound.table, ?_⟩
    · rw [relinked_entries, nexts]
      exact sound.linked
    · rw [relinked_entries, length]
      exact sound.allocated
    · intro address entry apart entryHere
      rw [relinked_entries] at entryHere
      have entryKey : keyIn s.entries address = some entry.key := by
        rw [← keys]
        simp [keyIn, entryHere]
      obtain ⟨older, olderHere, sameKey⟩ := Option.map_eq_some_iff.mp entryKey
      rw [← sameKey]
      exact sound.named address older apart olderHere
    · rw [relinked_entries, keys]
      exact sound.keys
    · rw [relinked_entries, keys]
      exact sound.nodes

/-- What `setLRUCache` leaves of the rest of the state: one entry of the next list has
the key and the value. -/
structure Inserted (s t : State) (path : List Nat) (key : CString) (val : Nat) : Prop where
  data : ∃ cell ∈ path, dataIn t.entries = Function.update (dataIn s.entries) cell (some (key, val))
  kv : TableSound KVNode.key t.kvHashTab
  stores : ∀ k b, Stores t.kvHashTab k b ↔ Stores s.kvHashTab k b
  buffers : t.buffers = s.buffers
  freed : t.freed = s.freed
  accesses : t.totalAccesses = increased s.totalAccesses
  sets : t.totalSetSuccess = increased s.totalSetSuccess

/-- The changes that `kv_set` makes. -/
def Change.Inserts : Change → Prop
  | used _ _ | added | evicted _ | reused _ => True
  | kept | deleted _ _ => False

/-- An eviction has an entry to take over. -/
def Reachable (s : State) (head : Nat) (path : List Nat) : Prop :=
  path = [] → ¬ s.counterLRU.toInt < lruCacheSize → nextIn s.entries head ≠ none

/-- The path of `setLRUCache` for a key that is not cached. -/
theorem CacheSound.inserted (sound : CacheSound s head path) (nonempty : key.chars ≠ [])
    {grants : Grants} (val : Nat) (entryGranted : grants.lruEntry = true)
    (nodeGranted : grants.lruNode = true) (uncached : Uncached s.entries path key)
    (reachable : Reachable s head path) :
    ∃ change t, (if s.counterLRU.toInt < lruCacheSize then appendLRUEntry s grants key val
        else evictLRUEntry s grants key val) = some t ∧ Changed s head path key change t ∧
      ListSound t head (change.path s.entries.length path) ∧ change.Inserts ∧
      (∃ cell ∈ change.path s.entries.length path,
        dataIn t.entries = Function.update (dataIn s.entries) cell (some (key, val))) ∧
      t.kvHashTab = s.kvHashTab ∧ t.buffers = s.buffers ∧ t.freed = s.freed ∧
      t.totalAccesses = s.totalAccesses ∧ t.totalSetSuccess = s.totalSetSuccess := by
  obtain ⟨tail, isTail⟩ := sound.list.has_tail
  have keysAt : ∀ entries cell, dataIn entries =
      Function.update (dataIn s.entries) cell (some (key, val)) →
      keyIn entries = Function.update (keyIn s.entries) cell (some key) := by
    intro entries cell data
    funext address
    rw [keyIn_update data, Function.update_apply]
  by_cases room : s.counterLRU.toInt < lruCacheSize
  · obtain ⟨entries, tab, done, data, nexts, list⟩ := sound.list.appended val entryGranted
      nodeGranted nonempty isTail uncached
    refine ⟨.added, s.countKey.relinked entries tab (some s.entries.length), ?_,
      ⟨⟨uncached, room⟩, ?_, keysAt _ _ data, ?_, rfl, rfl⟩, list, trivial,
      ⟨s.entries.length, List.mem_append_right _ (List.mem_singleton.mpr rfl), data⟩,
      rfl, rfl, rfl, rfl, rfl⟩
    · rw [if_pos room, done]
    · intro other isOther
      cases Option.some.inj (isTail.symm.trans isOther)
      exact nexts
    · rw [relinked_entries, allocated_congr (data.trans (dataIn_append s.entries key val).symm),
        List.length_append]
      rfl
  · cases path with
    | nil =>
      obtain ⟨outside, leads⟩ := Option.ne_none_iff_exists'.mp (reachable rfl room)
      have positive : 0 < s.counterLRU.toInt := by
        have full : ¬ s.counterLRU.toInt < 128 := room
        omega
      obtain ⟨inside, apart⟩ := sound.stale head outside (fun _ => positive) leads
      obtain ⟨entries, tab, done, data, nexts, list⟩ := evicted_empty sound.list val nodeGranted
        nonempty leads apart inside
      refine ⟨.reused outside, (s.relinked entries tab (some outside)).countEviction, ?_,
        ⟨⟨rfl, room, leads⟩, fun _ _ => nexts, keysAt _ _ data, allocated_update data inside, rfl,
          rfl⟩, list.congr rfl rfl rfl rfl, trivial, ⟨outside, List.mem_singleton.mpr rfl, data⟩,
        rfl, rfl, rfl, rfl, rfl⟩
      rw [if_neg room, done]
    | cons first rest =>
      have inside := sound.list.allocated first (List.mem_cons_of_mem _ List.mem_cons_self)
      obtain ⟨entries, tab, done, data, nexts, list⟩ := sound.list.evicted rfl val nodeGranted
        nonempty isTail uncached
      refine ⟨.evicted first, (s.relinked entries tab (some first)).countEviction, ?_,
        ⟨⟨uncached, room, rfl⟩, ?_, keysAt _ _ data, allocated_update data inside, rfl, rfl⟩,
        list.congr rfl rfl rfl rfl, trivial,
        ⟨first, List.mem_append_right _ (List.mem_singleton.mpr rfl), data⟩,
        rfl, rfl, rfl, rfl, rfl⟩
      · rw [if_neg room, done]
      · intro other isOther
        cases Option.some.inj (isTail.symm.trans isOther)
        exact nexts

/-- A change is the same after calls that keep the list. -/
theorem Changed.congr {r t : State} {change : Change} (changed : Changed r head path key change t)
    (tail : r.tailLRU = s.tailLRU) (nexts : nextIn r.entries = nextIn s.entries)
    (keys : keyIn r.entries = keyIn s.entries) (length : r.entries.length = s.entries.length)
    (counter : r.counterLRU = s.counterLRU) (evictions : r.totalEvictions = s.totalEvictions) :
    Changed s head path key change t := by
  obtain ⟨allowed, nexts', keys', allocated', counter', evictions'⟩ := changed
  rw [tail, nexts, length] at nexts'
  rw [keys, length] at keys'
  rw [length] at allocated'
  rw [counter] at counter'
  rw [evictions] at evictions'
  refine ⟨?_, nexts', keys', allocated', counter', evictions'⟩
  cases change <;> simpa [Change.Allowed, Uncached, keys, nexts, counter] using allowed

/-- `setLRUCache` on a cache that it can read. -/
theorem setLRUCache_done (sound : CacheSound s head path) (nonempty : key.chars ≠ [])
    (kv : TableSound KVNode.key s.kvHashTab) (grants : Grants) (val : Nat)
    (entryGranted : grants.lruEntry = true) (nodeGranted : grants.lruNode = true)
    (reachable : Reachable s head path) :
    ∃ change t, setLRUCache s grants key val = some t ∧ Changed s head path key change t ∧
      ListSound t head (change.path s.entries.length path) ∧ change.Inserts ∧
      Inserted s t (change.path s.entries.length path) key val := by
  obtain ⟨tail, isTail⟩ := sound.list.has_tail
  have countedSet : ListSound s.countSet head path := sound.list.congr rfl rfl rfl rfl
  obtain ⟨entry, change, t, getDone, changed, list, requested, outcome⟩ :=
    getLRUCache_done countedSet nonempty kv
  have nexts : nextIn t.entries = change.next s.entries.length head tail (nextIn s.entries) :=
    changed.nexts tail isTail
  have keys : keyIn t.entries = change.keys s.entries.length key (keyIn s.entries) := changed.keys
  have counter : t.counterLRU = change.counter s.counterLRU := changed.counter
  have evictions : t.totalEvictions = change.evictions s.totalEvictions := changed.evictions
  have data : dataIn t.entries = dataIn s.entries := requested.data
  have length := allocated_congr data
  have stores : ∀ k b, Stores t.kvHashTab k b ↔ Stores s.kvHashTab k b := requested.stores
  have accesses : t.totalAccesses = increased s.totalAccesses := requested.accesses
  have sets : t.totalSetSuccess = increased s.totalSetSuccess := requested.sets
  rcases outcome with ⟨rfl, rfl, _⟩ | ⟨prev, curr, rfl, rfl, last⟩
  · have uncached : Uncached s.entries path key := changed.allowed
    have uncachedNow : ∀ address ∈ path, keyIn t.entries address ≠ some key := by
      rw [keys]
      exact uncached
    have listNow : ListSound t head path := list
    have tailNow : t.tailLRU = some tail := by rw [listNow.tail, ← sound.list.tail, isTail]
    have cache : CacheSound s.countSet head path :=
      ⟨countedSet, sound.stale, sound.counted, sound.small⟩
    have reachableNow : Reachable t head path := by
      unfold Reachable
      rw [counter, nexts]
      exact reachable
    obtain ⟨insertion, final, insertDone, insertChanged, insertList, inserts, ⟨cell, inNext, cellData⟩,
      sameKv, sameBuffers, sameFreed, sameAccesses, sameSets⟩ := (cache.changed changed list).inserted
        nonempty val entryGranted nodeGranted uncachedNow reachableNow
    rw [length] at insertList inNext
    refine ⟨insertion, final, ?_, insertChanged.congr (by rw [tailNow, isTail]) nexts keys length
      counter evictions, insertList, inserts, ⟨⟨cell, inNext, by rw [cellData, data]⟩, ?_, ?_, ?_, ?_,
      ?_, ?_⟩⟩
    · simp only [setLRUCache, getDone, Option.bind_eq_bind, Option.bind_some, insertDone]
    · rw [sameKv]
      exact requested.kv
    · rw [sameKv]
      exact stores
    · rw [sameBuffers]
      exact requested.buffers
    · rw [sameFreed]
      exact requested.freed
    · rw [sameAccesses, accesses]
    · rw [sameSets, sets]
  · have member : curr ∈ path := links_second _ _ _ changed.allowed.1
    have named : keyIn t.entries curr = some key := by
      rw [keys]
      exact changed.allowed.2
    have inserted : curr ∈ path.erase curr ++ [curr] := by simp
    obtain ⟨entries, valueDone, valueNexts, valueKeys, valueLength, valueData, valueList⟩ :=
      list.revalued val inserted named
    refine ⟨.used prev curr, t.relinked entries t.lruHashTab t.tailLRU, ?_,
      ⟨changed.allowed, ?_, ?_, ?_, counter, evictions⟩, valueList, trivial,
      ⟨⟨curr, inserted, ?_⟩, requested.kv, stores, requested.buffers, requested.freed, accesses, sets⟩⟩
    · simp only [setLRUCache, getDone, Option.bind_eq_bind, Option.bind_some, valueDone]
    · intro other isOther
      cases Option.some.inj (isTail.symm.trans isOther)
      rw [relinked_entries, valueNexts, nexts]
    · rw [relinked_entries, valueKeys, keys]
    · rw [relinked_entries, valueLength, length]
      rfl
    · rw [relinked_entries, valueData, data]

/-- An eviction from an empty list whose head leads nowhere reads through the null
pointer. -/
theorem setLRUCache_blocked (sound : ListSound s head path) (nonempty : key.chars ≠ [])
    (kv : TableSound KVNode.key s.kvHashTab) (grants : Grants) (val : Nat)
    (blocked : ¬ Reachable s head path) : setLRUCache s grants key val = none := by
  unfold Reachable at blocked
  push Not at blocked
  obtain ⟨rfl, full, leads⟩ := blocked
  have countedSet : ListSound s.countSet head [] := sound.congr rfl rfl rfl rfl
  obtain ⟨entry, change, t, getDone, changed, list, requested, outcome⟩ :=
    getLRUCache_done countedSet nonempty kv
  rcases outcome with ⟨rfl, rfl, _⟩ | ⟨prev, curr, rfl, rfl, _⟩
  · have listNow : ListSound t head [] := list
    have counter : t.counterLRU = s.counterLRU := changed.counter
    have nexts : nextIn t.entries = nextIn s.entries := changed.nexts head sound.tail
    have fullNow : ¬ t.counterLRU.toInt < lruCacheSize := by
      rw [counter]
      exact not_lt.mpr full
    have here := List.getElem?_eq_getElem (listNow.allocated head List.mem_cons_self)
    have stops : (t.entries.get ⟨head, listNow.allocated head List.mem_cons_self⟩).next = none := by
      rw [← nexts] at leads
      simpa [nextIn, here] using leads
    simp only [setLRUCache, getDone, Option.bind_eq_bind, Option.bind_some, if_neg fullNow,
      evictLRUEntry, listNow.start, here]
    simp only [List.get_eq_getElem] at stops
    rw [stops]
    rfl
  · exact absurd changed.allowed.1 (by simp [links])

/-- `delLRUCache` bypasses the entry of a cached key and leaves the rest as it is. -/
theorem delLRUCache_done (sound : ListSound s head path) (nonempty : key.chars ≠ []) :
    ∃ change t, delLRUCache s key = some t ∧ Changed s head path key change t ∧
      ListSound t head (change.path s.entries.length path) ∧
      (change = .kept ∨ ∃ prev curr, change = .deleted prev curr) ∧
      dataIn t.entries = dataIn s.entries ∧
      ∃ entries tab tail, t = s.relinked entries tab tail := by
  rcases sound.lookup nonempty with ⟨uncached, _⟩ | ⟨before, curr, link, named, _⟩
  · exact ⟨.kept, s, sound.deleted_uncached nonempty uncached,
      ⟨uncached, fun _ _ => rfl, rfl, rfl, rfl, rfl⟩, sound, Or.inl rfl, rfl,
      s.entries, s.lruHashTab, s.tailLRU, rfl⟩
  · obtain ⟨entry, here, rfl⟩ := Option.map_eq_some_iff.mp named
    obtain ⟨entries, tab, tail, prev, done, prevLink, data, nexts, list⟩ :=
      sound.deleted (links_second _ _ _ link) here
    exact ⟨.deleted prev curr, s.relinked entries tab tail, done, ⟨⟨prevLink, named⟩,
      fun _ _ => nexts, keyIn_congr data, allocated_congr data, rfl, rfl⟩, list,
      Or.inr ⟨prev, curr, rfl⟩, data, entries, tab, tail, rfl⟩

end Calls

end Xinu.KeyValueStore
