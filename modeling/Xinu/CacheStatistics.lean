import Xinu.CacheCount

/-!
# The statistics of the cache

`total_accesses` and `total_hits` are meant to count requests. The two counters are
increased in `getLRUCache`, which `setLRUCache` calls as well, so every `kv_set`
counts as an access and every `kv_set` of a cached key as a hit. A `kv_get` that is
answered from the table of key-value nodes is not counted as a hit, and `num_keys` is
not decreased by a deletion.

The number of accesses is the number of all calls of `kv_get` and `kv_set`, modulo the
width of the counter. The statistics are therefore right exactly for the sequences
without a `kv_set` that are short enough for the counter.
-/

namespace Xinu.KeyValueStore

open CIntegers ChainedTable LinkedPath Runs

/-- The string that names a kind. -/
def Kind.text (kind : Kind) : CString := ⟨kind.bytes, by cases kind <;> decide⟩

/-- `get_cache_info` finds the value of the kind it is asked for. -/
theorem getCacheInfo_text (s : State) (kind : Kind) : getCacheInfo s kind.text = s.info kind := by
  have found : [Kind.totalHits, .totalAccesses, .totalSetSuccess, .cacheSize, .numKeys,
      .totalEvictions].find? (fun k => strncmp (kind.text.chars ++ [0]) (k.bytes ++ [0]) 20 = 0) =
      some kind := by
    cases kind <;> decide
  unfold getCacheInfo
  rw [found]

def Call.isSet : Call → Bool
  | .set _ _ _ => true
  | .get _ | .delete _ => false

def Call.isGet : Call → Bool
  | .get _ => true
  | .set _ _ _ | .delete _ => false

/-- A reply with a value. -/
def Reply.isFound : Reply → Bool
  | .value (some _) => true
  | .value none | .status _ => false

/-- The number of calls of `kv_set` and of `kv_get`, and of those `kv_get` that return a
value. -/
def sets (events : List (Event State Call Reply)) : Nat :=
  events.countP fun event => event.call.isSet

def gets (events : List (Event State Call Reply)) : Nat :=
  events.countP fun event => event.call.isGet

theorem sets_cons (event : Event State Call Reply) (events : List (Event State Call Reply)) :
    sets (event :: events) = sets events + event.call.isSet.toNat := by
  cases here : event.call.isSet <;> simp [sets, here]

theorem gets_cons (event : Event State Call Reply) (events : List (Event State Call Reply)) :
    gets (event :: events) = gets events + event.call.isGet.toNat := by
  cases here : event.call.isGet <;> simp [gets, here]

def found (events : List (Event State Call Reply)) : Nat :=
  events.countP fun event => event.call.isGet && event.reply.isFound

/-- The number of keys that a step displaces from the cache. -/
noncomputable def displaced (event : Event State Call Reply) : Nat :=
  {key | Cached event.before key ∧ ¬ Cached event.after key}.ncard

/-- The statistics say what their names say. -/
structure StatisticsHold (events : List (Event State Call Reply)) (s : State) : Prop where
  accesses : getCacheInfo s Kind.totalAccesses.text = gets events
  hits : getCacheInfo s Kind.totalHits.text = found events
  successes : getCacheInfo s Kind.totalSetSuccess.text = sets events
  keys : ∀ path, Listed s path → getCacheInfo s Kind.numKeys.text = path.length
  evictions : getCacheInfo s Kind.totalEvictions.text =
    ((events.filter fun event => event.call.isSet).map displaced).sum

/-- The counter after one more call is the number of calls modulo its width. -/
theorem increased_ofInt (count : Nat) :
    increased (Int32.ofInt count) = Int32.ofInt ((count + 1 : Nat) : Int) := by
  unfold increased
  rw [Int32.ofInt_add, Int32.ofInt_toInt, Nat.cast_add, Int32.ofInt_add]
  rfl

/-- The two counters that every run determines. -/
theorem run_counters (first s : State) (events : List (Event State Call Reply))
    (run : Run exec first events s) (named : Meets Named events) (head : Nat) (path : List Nat)
    (sound : StoreSound first head path) (accesses successes : Nat)
    (accessed : first.totalAccesses = Int32.ofInt accesses)
    (succeeded : first.totalSetSuccess = Int32.ofInt successes) :
    s.totalAccesses = Int32.ofInt ((accesses + gets events + sets events : Nat) : Int) ∧
      s.totalSetSuccess = Int32.ofInt ((successes + sets events : Nat) : Int) := by
  induction run generalizing path accesses successes with
  | done state => exact ⟨accessed, succeeded⟩
  | taken before call reply after last events completed tail inductionHypothesis =>
    obtain ⟨here, later⟩ := (meets_cons Named _ _).mp named
    obtain ⟨change, outcome⟩ := sound.step here completed
    have next := outcome.changed.2
    cases call with
    | set grants key val =>
      obtain ⟨_, _, outcome⟩ := outcome
      obtain ⟨all, successful⟩ := inductionHypothesis later _ next (accesses + 1) (successes + 1)
        (by rw [outcome.accesses, accessed, increased_ofInt])
        (by rw [outcome.sets, succeeded, increased_ofInt])
      rw [all, successful, gets_cons, sets_cons]
      simp only [Call.isGet, Call.isSet, Bool.toNat_false, Bool.toNat_true]
      constructor
      · congr 2
        lia
      · congr 2
        lia
    | get key =>
      obtain ⟨_, _, outcome⟩ := outcome
      obtain ⟨all, successful⟩ := inductionHypothesis later _ next (accesses + 1) successes
        (by rw [outcome.accesses, accessed, increased_ofInt]) (by rw [outcome.sets, succeeded])
      rw [all, successful, gets_cons, sets_cons]
      simp only [Call.isGet, Call.isSet, Bool.toNat_false, Bool.toNat_true]
      constructor
      · congr 2
        lia
      · congr 2
    | delete key =>
      obtain ⟨_, _, outcome⟩ := outcome
      obtain ⟨all, successful⟩ := inductionHypothesis later _ next accesses successes
        (by rw [outcome.accesses, accessed]) (by rw [outcome.sets, succeeded])
      rw [all, successful, gets_cons, sets_cons]
      exact ⟨rfl, rfl⟩

/-- A store without keys, as it is before the first `kv_set`. -/
structure Untouched (s : State) : Prop where
  sound : ∃ head, StoreSound s head []
  empty : ∀ key val, ¬ Stores s.kvHashTab key val
  counter : s.counterLRU = 0
  hits : s.totalHits = 0
  evictions : s.totalEvictions = 0

/-- No step of the kind `kv_set`. -/
def SetsNothing (_ : State) (call : Call) : Prop := call.key.chars ≠ [] ∧ call.isSet = false

/-- Requests and deletions leave a store without keys as it is, and find nothing. -/
theorem Untouched.step {s t : State} {call : Call} {reply : Reply} (untouched : Untouched s)
    (nothing : SetsNothing s call) (completed : exec s call = some (reply, t)) :
    Untouched t ∧ reply.isFound = false := by
  obtain ⟨head, sound⟩ := untouched.sound
  obtain ⟨change, outcome⟩ := sound.step nothing.1 completed
  cases call with
  | set grants key val => cases nothing.2
  | get key =>
    obtain ⟨value, rfl, outcome⟩ := outcome
    rcases outcome.requests with ⟨rfl, hits⟩ | ⟨prev, curr, rfl⟩
    · refine ⟨⟨⟨head, outcome.sound⟩, ?_, outcome.changed.counter.trans untouched.counter,
        hits.trans untouched.hits, outcome.changed.evictions.trans untouched.evictions⟩, ?_⟩
      · intro k b stored
        exact untouched.empty k b ((outcome.stores k b).mp stored)
      · cases value with
        | none => rfl
        | some b => exact absurd ((outcome.value b).mp rfl) (untouched.empty key b)
    · exact absurd outcome.changed.allowed.1 (by simp [links])
  | delete key =>
    obtain ⟨status, rfl, outcome⟩ := outcome
    rcases outcome.deletes with rfl | ⟨prev, curr, rfl⟩
    · refine ⟨⟨⟨head, outcome.sound⟩, ?_, outcome.changed.counter.trans untouched.counter,
        outcome.hits.trans untouched.hits, outcome.changed.evictions.trans untouched.evictions⟩, rfl⟩
      intro k b stored
      exact untouched.empty k b ((outcome.stores k b).mp stored).2
    · exact absurd outcome.changed.allowed.1 (by simp [links])

/-- Two counters that agree with their counts leave no room for a `kv_set`. -/
theorem counts_exact (accesses successes : Nat)
    (accessed : (Int32.ofInt ((accesses + successes : Nat) : Int)).toInt = accesses)
    (succeeded : (Int32.ofInt (successes : Int)).toInt = successes) :
    successes = 0 ∧ accesses < 2 ^ 31 := by
  rw [Int32.toInt_ofInt] at accessed succeeded
  have accessBound := Int.bmod_lt (x := ((accesses + successes : Nat) : Int)) (m := Int32.size)
    (by decide)
  have successBound := Int.bmod_lt (x := (successes : Int)) (m := Int32.size) (by decide)
  have remainder := Int.bmod_emod (x := ((accesses + successes : Nat) : Int)) (m := Int32.size)
  rw [accessed] at accessBound remainder
  rw [succeeded] at successBound
  simp only [Int32.size] at accessBound successBound remainder
  omega

/-- After a run the statistics are right exactly if the run has no `kv_set` and fewer than
2^31 `kv_get`. -/
theorem statistics_hold_iff (memory : LRUEntry) (s : State) (events : List (Event State Call Reply))
    (run : Run exec (started memory) events s) (named : Meets Named events) :
    StatisticsHold events s ↔ sets events = 0 ∧ gets events < 2 ^ 31 := by
  obtain ⟨accessed, succeeded⟩ := run_counters _ _ _ run named 0 [] (started_sound memory) 0 0 rfl rfl
  rw [Nat.zero_add] at accessed succeeded
  constructor
  · intro holds
    have accesses := holds.accesses
    have successes := holds.successes
    rw [getCacheInfo_text] at accesses successes
    simp only [State.info, accessed, succeeded] at accesses successes
    exact counts_exact _ _ accesses successes
  · rintro ⟨noSets, few⟩
    have nothing : Meets SetsNothing events := by
      intro event member
      refine ⟨named event member, ?_⟩
      rw [sets, List.countP_eq_zero] at noSets
      simpa using noSets event member
    have start : Untouched (started memory) :=
      ⟨⟨0, started_sound memory⟩, stores_started memory, rfl, rfl, rfl⟩
    have untouched := invariant_last Untouched SetsNothing
      (fun _ _ _ _ before met completed => (before.step met completed).1) _ _ _ run start nothing
    have steps := invariant_events Untouched SetsNothing
      (fun _ _ _ _ before met completed => (before.step met completed).1) _ _ _ run start nothing
    refine ⟨?_, ?_, ?_, ?_, ?_⟩
    · rw [getCacheInfo_text, State.info, accessed, noSets, Nat.add_zero]
      exact Int32.toInt_ofInt_of_le (by lia) (by omega)
    · have none : found events = 0 := by
        rw [found, List.countP_eq_zero]
        intro event member
        obtain ⟨before, _, completed⟩ := steps event member
        simp [(before.step (nothing event member) completed).2]
      rw [getCacheInfo_text, State.info, untouched.hits, none]
      rfl
    · rw [getCacheInfo_text, State.info, succeeded, noSets]
      rfl
    · intro path listed
      obtain ⟨head, sound⟩ := untouched.sound
      rw [getCacheInfo_text, State.info, untouched.counter, listed.unique sound.cache.list.listed]
      rfl
    · have none : events.filter (fun event => event.call.isSet) = [] := by
        rw [List.filter_eq_nil_iff]
        intro event member
        simp [(nothing event member).2]
      rw [getCacheInfo_text, State.info, untouched.evictions, none]
      rfl

/-- One `kv_get` of a key that is not stored. -/
theorem statistics_of_one_request : ∃ s events,
    Run exec (started ⟨letter 104 (by decide), 0, none⟩) events s ∧ gets events = 1 ∧
      StatisticsHold events s := by
  obtain ⟨reply, s, getDone⟩ := (started_sound ⟨letter 104 (by decide), 0, none⟩).completes
    (.get (letter 97 (by decide))) (by simp [Call.key, letter]) trivial id
  have run := Run.taken _ _ _ _ _ [] getDone (.done s)
  exact ⟨s, _, run, rfl, (statistics_hold_iff _ s _ run
    (by simp [Meets, Named, Call.key, letter])).mpr ⟨rfl, (by decide : 1 < 2 ^ 31)⟩⟩

/-- One `kv_set` is counted as an access. -/
theorem set_is_an_access : ∃ s events,
    Run exec (started ⟨letter 104 (by decide), 0, none⟩) events s ∧
      events.map (fun event => event.call.key.chars) = [[97]] ∧ gets events = 0 ∧
      getCacheInfo s Kind.totalAccesses.text = 1 ∧ ¬ StatisticsHold events s := by
  obtain ⟨events, s, run, passed⟩ := trace_exists exec (started ⟨letter 104 (by decide), 0, none⟩)
    [.set ⟨true, true, true, true, some 0⟩ (letter 97 (by decide)) (letter 49 (by decide))]
    (fun events s => events.map (fun event => event.call.key.chars) = [[97]] ∧ gets events = 0 ∧
      getCacheInfo s Kind.totalAccesses.text = 1) (by decide +kernel)
  simp only [decide_eq_true_eq] at passed
  obtain ⟨calls, noGets, one⟩ := passed
  refine ⟨s, events, run, calls, noGets, one, ?_⟩
  intro holds
  have accesses := holds.accesses
  rw [one, noGets] at accesses
  cases accesses

end Xinu.KeyValueStore
