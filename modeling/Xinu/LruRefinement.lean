import Xinu.IdealLru
import Xinu.StoreRuns

/-!
# The cache refines the ideal cache

As long as nothing is deleted, the keys along the list are the keys of an ideal
cache of 128 keys. `kv_set` is a use of its key and `kv_get` a request for it. The
counter is then the length of the list, so an eviction never meets an empty list
and every call completes.
-/

namespace Xinu.KeyValueStore

open CIntegers ChainedTable LinkedPath Runs

instance : NeZero lruCacheSize := ⟨by decide⟩

/-- The keys of the list are those of the ideal cache, in its order. -/
structure CacheFollows (s : State) (path : List Nat) (cache : IdealLru CString lruCacheSize) :
    Prop where
  sound : StoreSound s 0 path
  keys : path.map (keyIn s.entries) = cache.keys.map some
  counter : s.counterLRU.toInt = path.length

/-- What a call means for the ideal cache. -/
def idealCall (cache : IdealLru CString lruCacheSize) : Call → IdealLru CString lruCacheSize
  | .set _ key _ => cache.use key
  | .get key => cache.request key
  | .delete _ => cache

/-- A `kv_set` whose allocations succeed or a `kv_get`, with a key. -/
def Call.Cached : Call → Prop
  | .set grants key _ => key.chars ≠ [] ∧ grants.key = true ∧ grants.kvNode = true ∧
    grants.lruEntry = true ∧ grants.lruNode = true ∧ grants.value ≠ none
  | .get key => key.chars ≠ []
  | .delete _ => False

/-- Erasing commutes with a map that separates the erased element from the others. -/
theorem map_erase_apart {α β : Type} [BEq α] [LawfulBEq α] [BEq β] [LawfulBEq β] (f : α → β)
    (a : α) (l : List α) (apart : ∀ b ∈ l, f b = f a → b = a) :
    (l.erase a).map f = (l.map f).erase (f a) := by
  induction l with
  | nil => rfl
  | cons b l inductionHypothesis =>
    rcases eq_or_ne b a with rfl | different
    · simp
    · have image : f b ≠ f a := fun same => different (apart b List.mem_cons_self same)
      rw [List.erase_cons_tail (by simpa using different), List.map_cons, List.map_cons,
        List.erase_cons_tail (by simpa using image), inductionHypothesis
          (fun c member => apart c (List.mem_cons_of_mem _ member))]

section Steps

variable {s t : State} {path : List Nat} {cache : IdealLru CString lruCacheSize} {key : CString}
  {change : Change}

theorem CacheFollows.length (follows : CacheFollows s path cache) :
    path.length = cache.keys.length := by
  have same := congrArg List.length follows.keys
  simpa using same

/-- A key is cached when the ideal cache holds it. -/
theorem CacheFollows.uncached_iff (follows : CacheFollows s path cache) :
    Uncached s.entries path key ↔ key ∉ cache.keys := by
  have member : (some key ∈ path.map (keyIn s.entries)) ↔ key ∈ cache.keys := by
    rw [follows.keys]
    simp
  rw [← member, List.mem_map]
  constructor
  · rintro uncached ⟨address, inPath, named⟩
    exact uncached address inPath named
  · intro absent address inPath named
    exact absent ⟨address, inPath, named⟩

theorem CacheFollows.cached (follows : CacheFollows s path cache) {curr : Nat}
    (member : curr ∈ path) (named : keyIn s.entries curr = some key) : key ∈ cache.keys := by
  by_contra absent
  exact follows.uncached_iff.mpr absent curr member named

/-- Keys outside a changed address. -/
theorem map_update_apart (keys : Nat → Option CString) (address : Nat) (name : Option CString)
    (path : List Nat) (apart : address ∉ path) :
    path.map (Function.update keys address name) = path.map keys := by
  apply List.map_congr_left
  intro other member
  have different : other ≠ address := by
    rintro rfl
    exact apart member
  rw [Function.update_of_ne different]

/-- A moved entry makes its key the latest. -/
theorem CacheFollows.used (follows : CacheFollows s path cache) {prev curr : Nat}
    (changed : Changed s 0 path key (.used prev curr) t) :
    (path.erase curr ++ [curr]).map (keyIn t.entries) =
      (IdealLru.latest lruCacheSize cache.keys key).map some := by
  obtain ⟨link, named⟩ := changed.allowed
  have member := links_second _ _ _ link
  have sameKeys : keyIn t.entries = keyIn s.entries := changed.keys
  rw [IdealLru.latest_member (follows.cached member named), sameKeys, List.map_append,
    map_erase_apart _ curr path (fun other inPath same =>
      follows.sound.cache.list.keys other inPath curr member same),
    follows.keys, named, List.map_append, List.map_erase (Option.some_injective _)]
  simp [named]

/-- `kv_set` on a cache that follows the ideal one. -/
theorem CacheFollows.set (follows : CacheFollows s path cache)
    (changed : Changed s 0 path key change t) (inserts : change.Inserts)
    (sound : StoreSound t 0 (change.path s.entries.length path)) :
    CacheFollows t (change.path s.entries.length path) (cache.use key) := by
  have list := follows.sound.cache.list
  have length := follows.length
  have counter := follows.counter
  have allowed := changed.allowed
  have keys := changed.keys
  have newCounter := changed.counter
  have outside : s.entries.length ∉ path := fun member =>
    lt_irrefl _ (list.allocated _ (List.mem_cons_of_mem _ member))
  cases change with
  | kept => exact absurd inserts id
  | deleted prev curr => exact absurd inserts id
  | used prev curr =>
    refine ⟨sound, follows.used changed, ?_⟩
    have member := links_second _ _ _ allowed.1
    have positive := List.length_pos_of_mem member
    have shorter : (path.erase curr).length = path.length - 1 := List.length_erase_of_mem member
    rw [newCounter]
    simp only [Change.counter, Change.path, List.length_append, List.length_singleton]
    lia
  | added =>
    obtain ⟨uncached, room⟩ := allowed
    have roomIdeal : cache.keys.length < lruCacheSize := by lia
    refine ⟨sound, ?_, ?_⟩
    · rw [IdealLru.use_keys, IdealLru.latest_room (follows.uncached_iff.mp uncached) roomIdeal, keys]
      simp only [Change.keys, Change.path, List.map_append, List.map_singleton, Function.update_self]
      rw [map_update_apart _ _ _ _ outside, follows.keys]
    · rw [newCounter]
      simp only [Change.counter, Change.path, List.length_append, List.length_singleton]
      rw [increased_toInt _ (by lia) room]
      lia
  | evicted first =>
    obtain ⟨uncached, full, isFirst⟩ := allowed
    have fullIdeal : ¬ cache.keys.length < lruCacheSize := by omega
    obtain ⟨rest, rfl⟩ : ∃ rest, path = first :: rest := by
      cases path with
      | nil => cases isFirst
      | cons other rest =>
        cases Option.some.inj isFirst
        exact ⟨rest, rfl⟩
    have apart : first ∉ rest := (List.nodup_cons.mp (List.nodup_cons.mp list.distinct).2).1
    refine ⟨sound, ?_, ?_⟩
    · have tail : rest.map (keyIn s.entries) = cache.keys.tail.map some := by
        have same := congrArg List.tail follows.keys
        simpa using same
      rw [IdealLru.use_keys, IdealLru.latest_full (follows.uncached_iff.mp uncached) fullIdeal, keys]
      simp only [Change.keys, Change.path, List.tail_cons, List.map_append, List.map_singleton,
        Function.update_self]
      rw [map_update_apart _ _ _ _ apart, tail]
    · rw [newCounter]
      simp only [Change.counter, Change.path, List.tail_cons, List.length_append,
        List.length_singleton]
      simpa using counter
  | reused address =>
    obtain ⟨rfl, full, _⟩ := allowed
    have empty : s.counterLRU.toInt = 0 := by simpa using counter
    exact absurd (by rw [empty]; decide) full

/-- `kv_get` on a cache that follows the ideal one. -/
theorem CacheFollows.get (follows : CacheFollows s path cache)
    (changed : Changed s 0 path key change t)
    (requests : change = .kept ∨ ∃ prev curr, change = .used prev curr)
    (sound : StoreSound t 0 (change.path s.entries.length path)) :
    CacheFollows t (change.path s.entries.length path) (cache.request key) := by
  rcases requests with rfl | ⟨prev, curr, rfl⟩
  · have uncached : Uncached s.entries path key := changed.allowed
    have sameKeys : keyIn t.entries = keyIn s.entries := changed.keys
    have sameCounter : t.counterLRU = s.counterLRU := changed.counter
    rw [IdealLru.request, if_neg (follows.uncached_iff.mp uncached)]
    exact ⟨sound, by rw [sameKeys]; exact follows.keys, by rw [sameCounter]; exact follows.counter⟩
  · obtain ⟨link, named⟩ := changed.allowed
    rw [IdealLru.request, if_pos (follows.cached (links_second _ _ _ link) named)]
    exact follows.set changed trivial sound

/-- Every call completes and follows the ideal cache. -/
theorem CacheFollows.step (follows : CacheFollows s path cache) (call : Call)
    (allowed : call.Cached) :
    ∃ reply t path', exec s call = some (reply, t) ∧ CacheFollows t path' (idealCall cache call) := by
  cases call with
  | set grants key val =>
    obtain ⟨nonempty, keyGranted, nodeGranted, entryGranted, lruGranted, hasValue⟩ := allowed
    have same := grants.all_of_granted keyGranted nodeGranted entryGranted lruGranted
    have reachable : Reachable s 0 path := by
      rintro rfl full
      have empty : s.counterLRU.toInt = 0 := by simpa using follows.counter
      exact absurd (by rw [empty]; decide) full
    rcases follows.sound.set nonempty grants val with ⟨_, missing | blocked⟩ |
      ⟨_, change, t, done, outcome⟩
    · exact absurd missing hasValue
    · exact absurd reachable blocked
    · rw [same] at done
      exact ⟨.status 0, t, _, by simp [exec, done],
        follows.set outcome.changed outcome.inserts outcome.sound⟩
  | get key =>
    obtain ⟨change, value, t, done, outcome⟩ := follows.sound.get allowed
    refine ⟨.value value, t, _, by simp [exec, done],
      follows.get outcome.changed ?_ outcome.sound⟩
    rcases outcome.requests with ⟨isKept, _⟩ | isUsed
    · exact Or.inl isKept
    · exact Or.inr isUsed
  | delete key => exact absurd allowed id

end Steps

/-- The table of cache nodes has one node for each key of the list, which names the
entry before it, and no other node. -/
def Indexed (s : State) (path : List Nat) : Prop :=
  (∀ head prev curr key, s.headLRU = some head → (prev, curr) ∈ links (head :: path) →
    keyIn s.entries curr = some key →
    (tableNodes s.lruHashTab).filter (fun node => node.key = key) = [⟨key, prev⟩]) ∧
  ∀ key, (∀ curr ∈ path, keyIn s.entries curr ≠ some key) →
    (tableNodes s.lruHashTab).filter (fun node => node.key = key) = []

theorem ListSound.indexed {s : State} {head : Nat} {path : List Nat} (sound : ListSound s head path) :
    Indexed s path := by
  constructor
  · intro other prev curr key isHead link named
    cases Option.some.inj (sound.start.symm.trans isHead)
    have held : InTable LRUNode.key s.lruHashTab ⟨key, prev⟩ :=
      (sound.nodes ⟨key, prev⟩).mpr ⟨curr, link, named⟩
    exact sound.table.filter_key held rfl
  · intro key uncached
    exact sound.table.filter_absent (sound.fresh uncached)

/-- After any calls of `kv_set` and `kv_get` the cache is the ideal one. In a full cache
the next `kv_set` of another key drops the least recently used key. -/
theorem cache_is_ideal_lru (memory : LRUEntry) (calls : List Call)
    (allowed : ∀ call ∈ calls, call.Cached) :
    ∃ s events t path, kvInit boot true memory = some s ∧ trace exec s calls = some (events, t) ∧
      Listed t path ∧
      path.map (keyIn t.entries) = (calls.foldl idealCall IdealLru.empty).keys.map some ∧
      t.counterLRU.toInt = path.length ∧ Indexed t path ∧
      ∀ grants key val, (Call.set grants key val).Cached →
        key ∉ (calls.foldl idealCall IdealLru.empty).keys → path.length = 128 →
        ∃ t' path', exec t (.set grants key val) = some (.status 0, t') ∧ Listed t' path' ∧
          path'.map (keyIn t'.entries) =
            ((calls.foldl idealCall IdealLru.empty).keys.tail ++ [key]).map some := by
  have initial : ∃ path, CacheFollows (started memory) path IdealLru.empty :=
    ⟨[], started_sound memory, rfl, rfl⟩
  obtain ⟨events, t, recorded, path, follows⟩ := trace_simulation
    (fun s cache => ∃ path, CacheFollows s path cache) Call.Cached idealCall
    (fun before call cache ⟨_, follows⟩ cached => by
      obtain ⟨reply, after, path, completed, next⟩ := follows.step call cached
      exact ⟨reply, after, completed, path, next⟩)
    calls allowed (started memory) IdealLru.empty initial
  refine ⟨started memory, events, t, path, kvInit_boot memory, recorded,
    follows.sound.cache.list.listed, follows.keys, follows.counter,
    follows.sound.cache.list.indexed, ?_⟩
  intro grants key val cached absent full
  obtain ⟨reply, t', path', completed, next⟩ := follows.step (.set grants key val) cached
  obtain ⟨status, done, sameReply⟩ : ∃ status, exec t (.set grants key val) =
      some (.status status, t') ∧ reply = .status status := by
    obtain ⟨⟨status, other⟩, done, result⟩ := Option.map_eq_some_iff.mp completed
    cases result
    exact ⟨status, completed, rfl⟩
  have named : (Call.set grants key val).key.chars ≠ [] := cached.1
  obtain ⟨change, outcome⟩ := follows.sound.step named done
  have isZero : Reply.status status = .status 0 := outcome.1
  rw [isZero] at done
  refine ⟨t', path', done, next.sound.cache.list.listed, ?_⟩
  have isFull : ¬ (calls.foldl idealCall IdealLru.empty).keys.length < lruCacheSize := by
    rw [← follows.length, full]
    decide
  rw [next.keys, idealCall, IdealLru.use_keys, IdealLru.latest_full absent isFull]

/-- A key of one letter. -/
def letter (c : UInt8) (terminated : 0 ∉ [c]) : CString := ⟨[c], terminated⟩

theorem letter_a : 0 ∉ [(97 : UInt8)] := by decide
theorem letter_b : 0 ∉ [(98 : UInt8)] := by decide
theorem digit_one : 0 ∉ [(49 : UInt8)] := by decide
theorem digit_two : 0 ∉ [(50 : UInt8)] := by decide

/-- Two keys are set and the first one is asked for. -/
def twoKeys : List Call :=
  [.set ⟨true, true, true, true, some 0⟩ (letter 97 letter_a) (letter 49 digit_one),
    .set ⟨true, true, true, true, some 1⟩ (letter 98 letter_b) (letter 50 digit_two),
    .get (letter 97 letter_a)]

theorem twoKeys_cached : ∀ call ∈ twoKeys, call.Cached := by
  simp [twoKeys, Call.Cached, letter]

/-- The key asked for is then the latest. -/
theorem two_keys_in_order : ∃ s events t path,
    kvInit boot true ⟨letter 104 (by decide), 0, none⟩ = some s ∧
      trace exec s twoKeys = some (events, t) ∧ Listed t path ∧
      path.map (keyIn t.entries) = [some (letter 98 (by decide)), some (letter 97 (by decide))] := by
  obtain ⟨s, events, t, path, started, recorded, listed, keys, _⟩ :=
    cache_is_ideal_lru ⟨letter 104 (by decide), 0, none⟩ twoKeys twoKeys_cached
  refine ⟨s, events, t, path, started, recorded, listed, keys.trans ?_⟩
  decide

end Xinu.KeyValueStore
