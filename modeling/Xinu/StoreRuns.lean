import Xinu.StoreInvariants

/-!
# Runs of the store

A run starts with the state that `kv_init` leaves. Every completed call keeps the
invariant and makes one of the changes to the cache.

The statements about the cache speak about the list that a reader of the program
sees: the entries met by following `next` from the head until the tail.
-/

namespace Xinu.KeyValueStore

open CIntegers ChainedTable LinkedPath Runs

/-- The state after `kv_init`, with the memory that the head entry got. -/
def started (memory : LRUEntry) : State where
  kvHashTab := fun _ => some []
  lruHashTab := fun _ => some []
  entries := [memory]
  headLRU := some 0
  tailLRU := some 0
  counterLRU := 0
  totalHits := 0
  totalAccesses := 0
  totalSetSuccess := 0
  totalEvictions := 0
  buffers := fun _ => ⟨[], empty_text⟩
  freed := []

theorem kvInit_boot (memory : LRUEntry) : kvInit boot true memory = some (started memory) := rfl

/-- No key is stored after `kv_init`. -/
theorem stores_started (memory : LRUEntry) (key : CString) (val : Nat) :
    ¬ Stores (started memory).kvHashTab key val := by
  rintro ⟨node, held, _⟩
  exact inTable_empty node held

theorem started_sound (memory : LRUEntry) : StoreSound (started memory) 0 [] := by
  have first : ∀ address entry, address ≠ 0 → (started memory).entries[address]? = some entry →
      entry.key.chars ≠ [] := by
    intro address entry other here
    have inside := List.getElem?_eq_some_iff.mp here
    have length : (started memory).entries.length = 1 := rfl
    obtain ⟨below, _⟩ := inside
    lia
  have list : ListSound (started memory) 0 [] := by
    refine ⟨rfl, rfl, ?_, by simp, ?_, first, by simp, tableSound_empty, ?_⟩
    · intro link member
      cases member
    · intro address member
      rw [List.mem_singleton.mp member]
      exact Nat.zero_lt_one
    · intro node
      constructor
      · intro held
        exact absurd held (inTable_empty node)
      · rintro ⟨address, link, _⟩
        cases link
  have counter : (started memory).counterLRU.toInt = 0 := rfl
  refine ⟨⟨list, ?_, counter.ge, by rw [counter]; decide⟩, tableSound_empty, by simp⟩
  intro address next begun leads
  rcases eq_or_ne address 0 with rfl | other
  · exact absurd (begun rfl) counter.not_gt
  · have outside : (started memory).entries[address]? = none := by
      rw [List.getElem?_eq_none_iff]
      exact Nat.one_le_iff_ne_zero.mpr other
    simp [nextIn, outside] at leads

/-- The key of a call. -/
def Call.key : Call → CString
  | .set _ key _ => key
  | .get key => key
  | .delete key => key

/-- What a completed call does. -/
def Outcome (s : State) (head : Nat) (path : List Nat) (change : Change) (t : State) :
    Call → Reply → Prop
  | .set grants key val, reply =>
    reply = .status 0 ∧ Reachable s head path ∧ SetOutcome s head path grants key val change t
  | .get key, reply =>
    ∃ value, reply = .value value ∧ GetOutcome s head path key change value t
  | .delete key, reply =>
    ∃ status, reply = .status status ∧ DeleteOutcome s head path key change status t

section Steps

variable {s t : State} {head : Nat} {path : List Nat} {call : Call} {reply : Reply}
  {change : Change}

/-- Every completed call has one of the outcomes. -/
theorem StoreSound.step (sound : StoreSound s head path) (nonempty : call.key.chars ≠ [])
    (completed : exec s call = some (reply, t)) :
    ∃ change, Outcome s head path change t call reply := by
  cases call with
  | set grants key val =>
    obtain ⟨⟨status, final⟩, done, result⟩ := Option.map_eq_some_iff.mp completed
    have granted := kvSet_granted s val _ done
    rcases sound.set nonempty grants val with ⟨missing, _⟩ | ⟨reachable, change, next, setDone, outcome⟩
    · cases missing.symm.trans granted
    · cases Option.some.inj (setDone.symm.trans granted)
      cases result
      exact ⟨change, rfl, reachable, outcome⟩
  | get key =>
    obtain ⟨⟨value, final⟩, done, result⟩ := Option.map_eq_some_iff.mp completed
    obtain ⟨change, other, next, getDone, outcome⟩ := sound.get nonempty
    cases Option.some.inj (getDone.symm.trans done)
    cases result
    exact ⟨change, value, rfl, outcome⟩
  | delete key =>
    obtain ⟨⟨status, final⟩, done, result⟩ := Option.map_eq_some_iff.mp completed
    obtain ⟨change, other, next, deleteDone, outcome⟩ := sound.delete nonempty
    cases Option.some.inj (deleteDone.symm.trans done)
    cases result
    exact ⟨change, status, rfl, outcome⟩

/-- Every outcome changes the cache and keeps the invariant. -/
theorem Outcome.changed (outcome : Outcome s head path change t call reply) :
    Changed s head path call.key change t ∧
      StoreSound t head (change.path s.entries.length path) := by
  cases call with
  | set grants key val => exact ⟨outcome.2.2.changed, outcome.2.2.sound⟩
  | get key =>
    obtain ⟨_, _, outcome⟩ := outcome
    exact ⟨outcome.changed, outcome.sound⟩
  | delete key =>
    obtain ⟨_, _, outcome⟩ := outcome
    exact ⟨outcome.changed, outcome.sound⟩

end Steps

/-- A call on a key that is not empty. -/
def Named (_ : State) (call : Call) : Prop := call.key.chars ≠ []

/-- The invariant holds in every state of a run. -/
theorem run_sound (memory : LRUEntry) (s : State) (events : List (Event State Call Reply))
    (run : Run exec (started memory) events s) (named : Meets Named events) :
    ∃ head path, StoreSound s head path := by
  refine invariant_last (fun s => ∃ head path, StoreSound s head path) Named ?_ _ _ _ run
    ⟨0, [], started_sound memory⟩ named
  rintro before call reply after ⟨head, path, sound⟩ nonempty completed
  obtain ⟨change, outcome⟩ := sound.step nonempty completed
  exact ⟨head, _, outcome.changed.2⟩

/-- The entries met by following `next` from an address until the tail. -/
inductive Walk (entries : List LRUEntry) (tail : Nat) : Nat → List Nat → Prop where
  | stop : Walk entries tail tail []
  | follow (address next : Nat) (rest : List Nat) (notTail : address ≠ tail)
      (leads : nextIn entries address = some next) (later : Walk entries tail next rest) :
      Walk entries tail address (next :: rest)

/-- The list from `headLRU->next` to `tailLRU`. -/
def Listed (s : State) (path : List Nat) : Prop :=
  ∃ head tail, s.headLRU = some head ∧ s.tailLRU = some tail ∧ Walk s.entries tail head path

/-- The walk along a linked list without repetitions visits it. -/
theorem walk_linked (entries : List LRUEntry) (tail head : Nat) (path : List Nat)
    (linked : Linked (nextIn entries) (head :: path)) (distinct : (head :: path).Nodup)
    (last : (head :: path).getLast? = some tail) : Walk entries tail head path := by
  induction path generalizing head with
  | nil =>
    cases Option.some.inj last
    exact .stop
  | cons next rest inductionHypothesis =>
    have tailIn : tail ∈ next :: rest := List.mem_of_getLast? (by simpa using last)
    have notTail : head ≠ tail := by
      rintro rfl
      exact (List.nodup_cons.mp distinct).1 tailIn
    refine .follow head next rest notTail (linked (head, next) List.mem_cons_self) ?_
    exact inductionHypothesis next (fun link member => linked link (List.mem_cons_of_mem _ member))
      (List.nodup_cons.mp distinct).2 (by simpa using last)

/-- There is one list. -/
theorem walk_unique (entries : List LRUEntry) (tail head : Nat) (left right : List Nat)
    (first : Walk entries tail head left) (second : Walk entries tail head right) : left = right := by
  induction first generalizing right with
  | stop =>
    cases second with
    | stop => rfl
    | follow _ _ _ notTail => exact absurd rfl notTail
  | follow address next rest notTail leads later inductionHypothesis =>
    cases second with
    | stop => exact absurd rfl notTail
    | follow _ other otherRest _ otherLeads otherLater =>
      cases Option.some.inj (leads.symm.trans otherLeads)
      rw [inductionHypothesis otherRest otherLater]

theorem ListSound.listed {s : State} {head : Nat} {path : List Nat} (sound : ListSound s head path) :
    Listed s path := by
  obtain ⟨tail, isTail⟩ := sound.has_tail
  exact ⟨head, tail, sound.start, isTail, walk_linked _ _ _ _ sound.linked sound.distinct
    (sound.tail.symm.trans isTail)⟩

theorem Listed.unique {s : State} {left right : List Nat} (first : Listed s left)
    (second : Listed s right) : left = right := by
  obtain ⟨head, tail, isHead, isTail, walk⟩ := first
  obtain ⟨otherHead, otherTail, isOtherHead, isOtherTail, otherWalk⟩ := second
  cases Option.some.inj (isHead.symm.trans isOtherHead)
  cases Option.some.inj (isTail.symm.trans isOtherTail)
  exact walk_unique _ _ _ _ _ walk otherWalk

end Xinu.KeyValueStore
