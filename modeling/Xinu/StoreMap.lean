import Xinu.LruRefinement

/-!
# The store is a map

A value pointer of the store leads to the text that was last set for its key. The
cache and the table hold the same pointers, so it does not matter which of them
answers a `kv_get`, nor how often a key was evicted, deleted or set again.

A new value is written into the buffer that `xmalloc` answers with. The allocator
does not hand out a buffer that is in use, and the buffers in use are those of the
stored keys; the buffer of the key itself has just been given back.
-/

namespace Xinu.KeyValueStore

open CIntegers ChainedTable LinkedPath Runs

/-- `xmalloc` answers a `kv_set` with a buffer that no other key has. -/
def Fresh (s : State) : Call → Prop
  | .set grants key _ => ∃ buffer, grants.value = some buffer ∧
    ∀ k, k ≠ key → ¬ Stores s.kvHashTab k buffer
  | .get _ | .delete _ => True

/-- What a call means for the map. -/
def mapCall (map : CString → Option CString) : Call → CString → Option CString
  | .set _ key val => Function.update map key (some val)
  | .get _ => map
  | .delete key => Function.update map key none

/-- The value of the last `kv_set` of each key that no `kv_delete` followed. -/
def lastSet (calls : List Call) : CString → Option CString := calls.foldl mapCall fun _ => none

/-- The stored pointers lead to the texts of the map, and no two keys share one. -/
structure MapFollows (s : State) (map : CString → Option CString) : Prop where
  sound : ∃ head path, StoreSound s head path
  texts : ∀ k b, Stores s.kvHashTab k b → map k = some (s.buffers b)
  present : ∀ k text, map k = some text → ∃ b, Stores s.kvHashTab k b
  apart : ∀ k l b, Stores s.kvHashTab k b → Stores s.kvHashTab l b → k = l

section Steps

variable {s t : State} {map : CString → Option CString} {key : CString}

/-- A new text for a key in a buffer that no other key has. -/
theorem MapFollows.set (follows : MapFollows s map) (val : CString) {buffer : Nat}
    (fresh : ∀ k, k ≠ key → ¬ Stores s.kvHashTab k buffer)
    (sound : ∃ head path, StoreSound t head path)
    (stores : ∀ k c, Stores t.kvHashTab k c ↔ if k = key then c = buffer else Stores s.kvHashTab k c)
    (buffers : t.buffers = Function.update s.buffers buffer val) :
    MapFollows t (Function.update map key (some val)) := by
  refine ⟨sound, ?_, ?_, ?_⟩
  · intro k b stored
    have here := (stores k b).mp stored
    rcases eq_or_ne k key with rfl | other
    · rw [if_pos rfl] at here
      rw [Function.update_self, buffers, here, Function.update_self]
    · rw [if_neg other] at here
      have different : b ≠ buffer := by
        rintro rfl
        exact fresh k other here
      rw [Function.update_of_ne other, buffers, Function.update_of_ne different]
      exact follows.texts k b here
  · intro k text mapped
    rcases eq_or_ne k key with rfl | other
    · exact ⟨buffer, (stores k buffer).mpr (by rw [if_pos rfl])⟩
    · rw [Function.update_of_ne other] at mapped
      obtain ⟨b, stored⟩ := follows.present k text mapped
      exact ⟨b, (stores k b).mpr (by rw [if_neg other]; exact stored)⟩
  · intro k l b left right
    have leftHere := (stores k b).mp left
    have rightHere := (stores l b).mp right
    rcases eq_or_ne k key with rfl | leftOther
    · rcases eq_or_ne l k with rfl | rightOther
      · rfl
      · rw [if_pos rfl] at leftHere
        rw [if_neg rightOther, leftHere] at rightHere
        exact absurd rightHere (fresh l rightOther)
    · rw [if_neg leftOther] at leftHere
      rcases eq_or_ne l key with rfl | rightOther
      · rw [if_pos rfl] at rightHere
        rw [rightHere] at leftHere
        exact absurd leftHere (fresh k leftOther)
      · rw [if_neg rightOther] at rightHere
        exact follows.apart k l b leftHere rightHere

/-- The stored pointers after a key is deleted. -/
theorem MapFollows.delete (follows : MapFollows s map) (sound : ∃ head path, StoreSound t head path)
    (stores : ∀ k b, Stores t.kvHashTab k b ↔ k ≠ key ∧ Stores s.kvHashTab k b)
    (buffers : t.buffers = s.buffers) : MapFollows t (Function.update map key none) := by
  refine ⟨sound, ?_, ?_, ?_⟩
  · intro k b stored
    obtain ⟨other, here⟩ := (stores k b).mp stored
    rw [Function.update_of_ne other, buffers]
    exact follows.texts k b here
  · intro k text mapped
    rcases eq_or_ne k key with rfl | other
    · rw [Function.update_self] at mapped
      cases mapped
    · rw [Function.update_of_ne other] at mapped
      obtain ⟨b, stored⟩ := follows.present k text mapped
      exact ⟨b, (stores k b).mpr ⟨other, stored⟩⟩
  · intro k l b left right
    exact follows.apart k l b ((stores k b).mp left).2 ((stores l b).mp right).2

/-- Every completed call follows the map. -/
theorem MapFollows.step (follows : MapFollows s map) {call : Call} {reply : Reply}
    (nonempty : call.key.chars ≠ []) (fresh : Fresh s call)
    (completed : exec s call = some (reply, t)) : MapFollows t (mapCall map call) := by
  obtain ⟨head, path, sound⟩ := follows.sound
  obtain ⟨change, outcome⟩ := sound.step nonempty completed
  have next : ∃ head path, StoreSound t head path := ⟨head, _, outcome.changed.2⟩
  cases call with
  | set grants key val =>
    obtain ⟨buffer, given, unused⟩ := fresh
    obtain ⟨_, _, outcome⟩ := outcome
    obtain ⟨b, stores, written⟩ := outcome.stores
    obtain ⟨rfl, buffers⟩ := written buffer given
    exact follows.set val unused next stores buffers
  | get key =>
    obtain ⟨_, _, outcome⟩ := outcome
    refine ⟨next, ?_, ?_, ?_⟩
    · intro k b stored
      rw [outcome.buffers]
      exact follows.texts k b ((outcome.stores k b).mp stored)
    · intro k text mapped
      obtain ⟨b, stored⟩ := follows.present k text mapped
      exact ⟨b, (outcome.stores k b).mpr stored⟩
    · intro k l b left right
      exact follows.apart k l b ((outcome.stores k b).mp left) ((outcome.stores l b).mp right)
  | delete key =>
    obtain ⟨_, _, outcome⟩ := outcome
    exact follows.delete next outcome.stores outcome.buffers

/-- The pointers stored for a key when the map has a text for it, or none. -/
theorem MapFollows.absent (follows : MapFollows s map) :
    map key = none ↔ ∀ b, ¬ Stores s.kvHashTab key b := by
  constructor
  · intro missing b stored
    rw [follows.texts key b stored] at missing
    cases missing
  · intro unstored
    cases mapped : map key with
    | none => rfl
    | some text =>
      obtain ⟨b, stored⟩ := follows.present key text mapped
      exact absurd stored (unstored b)

end Steps

/-- The store starts as the empty map. -/
theorem started_follows (memory : LRUEntry) : MapFollows (started memory) fun _ => none := by
  refine ⟨⟨0, [], started_sound memory⟩, ?_, ?_, ?_⟩
  · intro k b stored
    exact absurd stored (stores_started memory k b)
  · intro k text mapped
    cases mapped
  · intro k l b stored
    exact absurd stored (stores_started memory k b)

/-- What the map says about the reply to a call. -/
def Replies (map : CString → Option CString) (t : State) : Call → Reply → Prop
  | .set _ _ _, reply => reply = .status 0
  | .get key, reply => ∃ buffer, reply = .value buffer ∧ buffer.map t.buffers = map key
  | .delete key, reply => reply = .status (if map key = none then 1 else 0)

/-- A completed call is answered from the map. -/
theorem MapFollows.replies {s t : State} {map : CString → Option CString} {call : Call} {reply : Reply}
    (follows : MapFollows s map) (nonempty : call.key.chars ≠ [])
    (completed : exec s call = some (reply, t)) : Replies map t call reply := by
  obtain ⟨head, path, sound⟩ := follows.sound
  obtain ⟨change, outcome⟩ := sound.step nonempty completed
  cases call with
  | set grants key val => exact outcome.1
  | get key =>
    obtain ⟨value, rfl, outcome⟩ := outcome
    refine ⟨value, rfl, ?_⟩
    cases value with
    | none =>
      rw [Option.map_none]
      refine (follows.absent.mpr ?_).symm
      intro b stored
      cases (outcome.value b).mpr stored
    | some b =>
      rw [Option.map_some, outcome.buffers]
      exact (follows.texts key b ((outcome.value b).mp rfl)).symm
  | delete key =>
    obtain ⟨status, rfl, outcome⟩ := outcome
    rcases outcome.status with ⟨rfl, b, stored⟩ | ⟨rfl, missing⟩
    · have isSome : map key ≠ none := fun absent => follows.absent.mp absent b stored
      show Reply.status 0 = .status (if map key = none then 1 else 0)
      rw [if_neg isSome]
    · show Reply.status 1 = .status (if map key = none then 1 else 0)
      rw [if_pos (follows.absent.mpr missing)]

/-- The allocations of a call succeed. -/
def Call.Granted : Call → Prop
  | .set grants _ _ => grants.key = true ∧ grants.kvNode = true ∧ grants.lruEntry = true ∧
    grants.lruNode = true ∧ grants.value ≠ none
  | .get _ | .delete _ => True

/-- A `kv_set` may evict from an empty list, whose head leads nowhere. -/
def ReadsNull (s : State) : Call → Prop
  | .set _ _ _ => Listed s [] ∧ ¬ s.counterLRU.toInt < lruCacheSize ∧
    ∃ head, s.headLRU = some head ∧ nextIn s.entries head = none
  | .get _ | .delete _ => False

/-- Every other call completes. -/
theorem StoreSound.completes {s : State} {head : Nat} {path : List Nat}
    (sound : StoreSound s head path) (call : Call) (nonempty : call.key.chars ≠ [])
    (granted : call.Granted) (readable : ¬ ReadsNull s call) :
    ∃ reply t, exec s call = some (reply, t) := by
  cases call with
  | set grants key val =>
    obtain ⟨keyGranted, nodeGranted, entryGranted, lruGranted, hasValue⟩ := granted
    have same := grants.all_of_granted keyGranted nodeGranted entryGranted lruGranted
    rcases sound.set nonempty grants val with ⟨_, missing | blocked⟩ | ⟨_, change, t, done, _⟩
    · exact absurd missing hasValue
    · unfold Reachable at blocked
      push Not at blocked
      obtain ⟨rfl, full, leads⟩ := blocked
      exact absurd ⟨sound.cache.list.listed, not_lt.mpr full, head, sound.cache.list.start, leads⟩
        readable
    · rw [same] at done
      exact ⟨.status 0, t, Option.map_eq_some_iff.mpr ⟨_, done, rfl⟩⟩
  | get key =>
    obtain ⟨_, value, t, done, _⟩ := sound.get nonempty
    exact ⟨.value value, t, Option.map_eq_some_iff.mpr ⟨_, done, rfl⟩⟩
  | delete key =>
    obtain ⟨_, status, t, done, _⟩ := sound.delete nonempty
    exact ⟨.status status, t, Option.map_eq_some_iff.mpr ⟨_, done, rfl⟩⟩

end Xinu.KeyValueStore
