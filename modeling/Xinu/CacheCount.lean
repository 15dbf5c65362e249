import Xinu.StoreMap

/-!
# The counter of cached keys

`setLRUCache` compares `counterLRU` with the capacity before it adds an entry. The
counter is increased with every entry added, and `delLRUCache` does not decrease it
when it takes an entry off the list. From then on the counter is too large, and an
eviction can happen early or meet an empty list.

The counter is the length of the list in all states of a run exactly if no
`kv_delete` of the run hits a cached key.
-/

namespace Xinu.KeyValueStore

open CIntegers ChainedTable LinkedPath Runs

/-- A key on the list. -/
def Cached (s : State) (key : CString) : Prop :=
  ∃ path, Listed s path ∧ ∃ curr ∈ path, keyIn s.entries curr = some key

/-- The counter is the length of the list. A `kv_set` drops a key only where 128 keys
other than its own are cached, and finds an entry where it evicts. -/
structure CountHolds (s : State) (path : List Nat) : Prop where
  listed : Listed s path
  counter : s.counterLRU.toInt = path.length
  full : ∀ grants key val status t k, key.chars ≠ [] →
    kvSet s grants key val = some (status, t) → Cached s k → ¬ Cached t k →
    path.length = lruCacheSize ∧ ¬ Cached s key
  nonempty : ∀ key, ¬ Cached s key → ¬ s.counterLRU.toInt < lruCacheSize → path ≠ []

/-- A `kv_delete` finds its key uncached. -/
def SparesCached (s : State) : Call → Prop
  | .set _ _ _ | .get _ => True
  | .delete key => ¬ Cached s key

section Steps

variable {s t : State} {head : Nat} {path : List Nat} {key : CString} {change : Change}

theorem ListSound.cached_iff (sound : ListSound s head path) :
    Cached s key ↔ ∃ curr ∈ path, keyIn s.entries curr = some key := by
  constructor
  · rintro ⟨other, listed, named⟩
    rw [sound.listed.unique listed]
    exact named
  · intro named
    exact ⟨path, sound.listed, named⟩

theorem ListSound.uncached_iff (sound : ListSound s head path) :
    Uncached s.entries path key ↔ ¬ Cached s key := by
  rw [sound.cached_iff]
  constructor
  · rintro uncached ⟨curr, member, named⟩
    exact uncached curr member named
  · intro absent curr member named
    exact absent ⟨curr, member, named⟩

/-- A key that `kv_set` drops is the key of the first entry of a full cache. -/
theorem Changed.dropped (changed : Changed s head path key change t) (inserts : change.Inserts)
    (list : ListSound s head path) (next : ListSound t head (change.path s.entries.length path))
    {k : CString} (cached : Cached s k) (dropped : ¬ Cached t k) :
    ∃ first, change = .evicted first := by
  obtain ⟨curr, member, named⟩ := list.cached_iff.mp cached
  have keys := changed.keys
  have allowed := changed.allowed
  have stays : ∀ address ∈ change.path s.entries.length path, keyIn t.entries address ≠ some k :=
    next.uncached_iff.mpr dropped
  cases change with
  | kept => exact absurd inserts id
  | deleted prev address => exact absurd inserts id
  | used prev address =>
    have later : curr ∈ path.erase address ++ [address] := by
      rcases eq_or_ne curr address with rfl | other
      · simp
      · exact List.mem_append_left _ ((List.mem_erase_of_ne other).mpr member)
    exact absurd ((congrFun keys curr).trans named) (stays curr later)
  | added =>
    have other : curr ≠ s.entries.length :=
      (list.allocated curr (List.mem_cons_of_mem _ member)).ne
    refine absurd ?_ (stays curr (List.mem_append_left _ member))
    rw [keys, Change.keys, Function.update_of_ne other, named]
  | evicted first => exact ⟨first, rfl⟩
  | reused address =>
    obtain ⟨rfl, _⟩ := allowed
    cases member

/-- The length of the list after a change that is counted. -/
theorem Changed.counted (changed : Changed s head path key change t)
    (counter : s.counterLRU.toInt = path.length) (spared : ∀ prev curr, change ≠ .deleted prev curr) :
    t.counterLRU.toInt = (change.path s.entries.length path).length := by
  have allowed := changed.allowed
  rw [changed.counter]
  cases change with
  | kept => exact counter
  | used prev curr =>
    have member := links_second _ _ _ allowed.1
    have positive := List.length_pos_of_mem member
    have shorter : (path.erase curr).length = path.length - 1 := List.length_erase_of_mem member
    simp only [Change.counter, Change.path, List.length_append, List.length_singleton]
    lia
  | added =>
    simp only [Change.counter, Change.path, List.length_append, List.length_singleton]
    rw [increased_toInt _ (by omega) allowed.2]
    lia
  | evicted first =>
    have positive := List.length_pos_of_mem (List.mem_of_head? allowed.2.2)
    simp only [Change.counter, Change.path, List.length_append, List.length_singleton,
      List.length_tail]
    omega
  | reused address =>
    obtain ⟨rfl, full, _⟩ := allowed
    rw [counter] at full
    exact absurd (by decide) full
  | deleted prev curr => exact absurd rfl (spared prev curr)

/-- A counter that is the length of the list gives the other two properties. -/
theorem StoreSound.count_holds (sound : StoreSound s head path)
    (counter : s.counterLRU.toInt = path.length) : CountHolds s path := by
  refine ⟨sound.cache.list.listed, counter, ?_, ?_⟩
  · intro grants key val status t k nonempty completed cached dropped
    have done : exec s (.set grants key val) = some (.status status, t) :=
      Option.map_eq_some_iff.mpr ⟨_, completed, rfl⟩
    have named : (Call.set grants key val).key.chars ≠ [] := nonempty
    obtain ⟨change, _, _, outcome⟩ := sound.step named done
    obtain ⟨first, rfl⟩ := outcome.changed.dropped outcome.inserts sound.cache.list
      outcome.sound.cache.list cached dropped
    obtain ⟨uncached, full, _⟩ := outcome.changed.allowed
    have small := sound.cache.small
    refine ⟨by lia, sound.cache.list.uncached_iff.mp uncached⟩
  · rintro key uncached full rfl
    rw [counter] at full
    exact absurd (by decide) full

/-- The list gets shorter exactly where a `kv_delete` hits a cached key. -/
theorem Outcome.deleted_iff {call : Call} {reply : Reply} (sound : StoreSound s head path)
    (outcome : Outcome s head path change t call reply) :
    (∃ prev curr, change = .deleted prev curr) ↔ ¬ SparesCached s call := by
  cases call with
  | set grants key val =>
    obtain ⟨_, _, outcome⟩ := outcome
    refine ⟨?_, fun impossible => absurd trivial impossible⟩
    rintro ⟨prev, curr, rfl⟩
    exact absurd outcome.inserts id
  | get key =>
    obtain ⟨_, _, outcome⟩ := outcome
    refine ⟨?_, fun impossible => absurd trivial impossible⟩
    rintro ⟨prev, curr, rfl⟩
    rcases outcome.requests with ⟨impossible, _⟩ | ⟨_, _, impossible⟩
    · cases impossible
    · cases impossible
  | delete key =>
    obtain ⟨_, _, outcome⟩ := outcome
    constructor
    · rintro ⟨prev, curr, rfl⟩ spared
      obtain ⟨link, named⟩ := outcome.changed.allowed
      exact spared (sound.cache.list.cached_iff.mpr ⟨curr, links_second _ _ _ link, named⟩)
    · intro hit
      rcases outcome.deletes with rfl | deleted
      · exact absurd (sound.cache.list.uncached_iff.mp outcome.changed.allowed) hit
      · exact deleted

/-- A completed call keeps the count exactly if it spares the cached keys. -/
theorem StoreSound.counts_iff {call : Call} {reply : Reply} (sound : StoreSound s head path)
    (counter : s.counterLRU.toInt = path.length)
    (outcome : Outcome s head path change t call reply) :
    t.counterLRU.toInt = (change.path s.entries.length path).length ↔ SparesCached s call := by
  have changed := outcome.changed.1
  constructor
  · intro counted
    by_contra hit
    obtain ⟨prev, curr, rfl⟩ := (outcome.deleted_iff sound).mpr hit
    have member := links_second _ _ _ changed.allowed.1
    have positive := List.length_pos_of_mem member
    have shorter : (path.erase curr).length = path.length - 1 := List.length_erase_of_mem member
    have sameCounter : t.counterLRU = s.counterLRU := changed.counter
    rw [sameCounter] at counted
    simp only [Change.path] at counted
    lia
  · intro spared
    refine changed.counted counter ?_
    rintro prev curr rfl
    exact (outcome.deleted_iff sound).mp ⟨prev, curr, rfl⟩ spared

end Steps

/-- The count holds after all steps of a run from a counted state exactly if all of them
spare the cached keys. -/
theorem counted_run (s last : State) (events : List (Event State Call Reply))
    (run : Run exec s events last) (named : Meets Named events) (head : Nat) (path : List Nat)
    (sound : StoreSound s head path) (counter : s.counterLRU.toInt = path.length) :
    (∀ event ∈ events, ∃ path, CountHolds event.after path) ↔ Meets SparesCached events := by
  induction run generalizing path with
  | done state => simp [Meets]
  | taken before call reply after last events completed tail inductionHypothesis =>
    obtain ⟨here, later⟩ := (meets_cons Named _ _).mp named
    obtain ⟨change, outcome⟩ := sound.step here completed
    have next := outcome.changed.2
    have counts := sound.counts_iff counter outcome
    rw [meets_cons, List.forall_mem_cons]
    constructor
    · rintro ⟨⟨other, holds⟩, rest⟩
      rw [holds.listed.unique next.cache.list.listed] at holds
      exact ⟨counts.mp holds.counter,
        (inductionHypothesis later _ next holds.counter).mp rest⟩
    · rintro ⟨spared, rest⟩
      have counted := counts.mpr spared
      exact ⟨⟨_, next.count_holds counted⟩, (inductionHypothesis later _ next counted).mpr rest⟩

/-- In a run the counter is the length of the list in every state, with what follows for
evictions, exactly if no `kv_delete` hits a cached key. -/
theorem count_holds_iff_cache_spared (memory : LRUEntry) (s : State)
    (events : List (Event State Call Reply)) (run : Run exec (started memory) events s)
    (named : Meets Named events) :
    ((∃ path, CountHolds (started memory) path) ∧
      ∀ event ∈ events, ∃ path, CountHolds event.after path) ↔ Meets SparesCached events := by
  have sound := started_sound memory
  rw [← counted_run _ _ _ run named 0 [] sound rfl]
  exact and_iff_right ⟨[], sound.count_holds rfl⟩

/-- The count holds after one `kv_set`. -/
theorem one_key_is_counted : ∃ s events,
    Run exec (started ⟨letter 104 (by decide), 0, none⟩) events s ∧ events.length = 1 ∧
      ∀ event ∈ events, ∃ path, CountHolds event.after path := by
  obtain ⟨status, s, setDone⟩ := (started_sound ⟨letter 104 (by decide), 0, none⟩).completes
    (.set ⟨true, true, true, true, some 0⟩ (letter 97 (by decide)) (letter 49 (by decide)))
    (by simp [Call.key, letter]) (by simp [Call.Granted]) (fun reads => reads.2.1 (by decide))
  have run := Run.taken _ _ _ _ _ [] setDone (.done s)
  exact ⟨s, _, run, rfl, ((count_holds_iff_cache_spared _ s _ run
    (by simp [Meets, Named, Call.key, letter])).mpr (by simp [Meets, SparesCached])).2⟩

/-- A key is set and deleted. -/
def setAndDelete : List Call :=
  [.set ⟨true, true, true, true, some 0⟩ (letter 97 letter_a) (letter 49 digit_one),
    .delete (letter 97 letter_a)]

/-- The list is empty afterwards and the counter is one. -/
theorem deleted_key_is_counted : ∃ s events,
    Run exec (started ⟨letter 104 (by decide), 0, none⟩) events s ∧
      events.map (fun event => event.call.key.chars) = [[97], [97]] ∧
      Listed s [] ∧ s.counterLRU.toInt = 1 ∧ ¬ ∃ path, CountHolds s path := by
  obtain ⟨events, s, run, passed⟩ := trace_exists exec (started ⟨letter 104 (by decide), 0, none⟩)
    setAndDelete (fun events s => events.map (fun event => event.call.key.chars) = [[97], [97]] ∧
      s.headLRU = some 0 ∧ s.tailLRU = some 0 ∧ s.counterLRU.toInt = 1) (by decide +kernel)
  simp only [decide_eq_true_eq] at passed
  obtain ⟨calls, isHead, isTail, counter⟩ := passed
  have listed : Listed s [] := ⟨0, 0, isHead, isTail, .stop⟩
  refine ⟨s, events, run, calls, listed, counter, ?_⟩
  rintro ⟨path, holds⟩
  have count := holds.counter
  rw [holds.listed.unique listed, counter] at count
  cases count

end Xinu.KeyValueStore
