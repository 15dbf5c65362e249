import Xinu.HashIndices

/-!
# No access outside of the hash tables

The keys that the store hashes are the key of the call and keys of entries behind the head. An invariant of
these entries is kept by every call, by `kv_reset` and by another `kv_init`, whatever the head's memory held
before: their keys are not empty, and their pointers and those of the cache nodes lead to such entries. With
an empty key, the hash code is -1, and the first access of the call is outside of its table.
-/

namespace Xinu.KeyValueStore

open CIntegers ChainedTable LoggedSteps Runs

/-- The indices of the tables. -/
def Inside (hashCode : Int) : Prop := 0 ≤ hashCode ∧ hashCode < 512

theorem inside_hash_iff (key : CString) : Inside (hashFunc key) ↔ key.chars ≠ [] := by
  constructor
  · rintro ⟨low, _⟩ isEmpty
    simp [hashFunc, isEmpty] at low
  · exact hashFunc_range key

/-- The store has a list. Entries behind its head have keys and lead to one another; the pointer of the head
counts once a key was added. -/
structure Active (s : State) (head : Nat) : Prop where
  start : s.headLRU = some head
  allocated : head < s.entries.length
  named : ∀ address entry, head < address → s.entries[address]? = some entry → entry.key.chars ≠ []
  leads : ∀ address next, head ≤ address → (address = head → 0 < s.counterLRU.toInt) →
    nextIn s.entries address = some next → head < next
  tail : ∀ tail, s.tailLRU = some tail → head ≤ tail ∧ (s.counterLRU.toInt ≤ 0 → tail = head)
  nodes : ∀ i chain node, s.lruHashTab i = some chain → node ∈ chain →
    head ≤ node.prev ∧ 0 < s.counterLRU.toInt
  counter : 0 ≤ s.counterLRU.toInt

/-- Before `kv_init` and after `kv_reset` there are no chains of cache nodes. -/
def Inactive (s : State) : Prop := ∀ i, s.lruHashTab i = none

def Prepared (s : State) : Prop := Inactive s ∨ ∃ head, Active s head

section Primitives

variable {s t : State} {head address : Nat}

/-- The invariant looks at five fields of the state. -/
theorem Active.congr (active : Active s head) (sameHead : t.headLRU = s.headLRU)
    (sameTail : t.tailLRU = s.tailLRU) (sameEntries : t.entries = s.entries)
    (sameTable : t.lruHashTab = s.lruHashTab) (sameCounter : t.counterLRU = s.counterLRU) :
    Active t head := by
  obtain ⟨start, allocated, named, leads, tail, nodes, counter⟩ := active
  constructor
  · exact sameHead.trans start
  · simpa only [sameEntries] using allocated
  · simpa only [sameEntries] using named
  · simpa only [sameEntries, sameCounter] using leads
  · simpa only [sameTail, sameCounter] using tail
  · simpa only [sameTable, sameCounter] using nodes
  · simpa only [sameCounter] using counter

theorem Active.next (active : Active s head) {entry : LRUEntry} {next : Nat} (listed : head ≤ address)
    (begun : 0 < s.counterLRU.toInt) (here : s.entries[address]? = some entry)
    (leads : entry.next = some next) : head < next :=
  active.leads address next listed (fun _ => begun) (by simp [nextIn, here, leads])

/-- Another chain of cache nodes, all of which name entries of the list. -/
theorem Active.setLruChain (active : Active s head) {i : Fin 512} {chain : List LRUNode}
    (listed : ∀ node ∈ chain, head ≤ node.prev ∧ 0 < s.counterLRU.toInt) :
    Active (s.setLruChain i chain) head := by
  obtain ⟨start, allocated, named, leads, tail, nodes, counter⟩ := active
  refine ⟨start, allocated, named, leads, tail, ?_, counter⟩
  intro j other node isChain member
  by_cases same : j = i
  · subst same
    simp only [State.setLruChain, Function.update_self, Option.some.injEq] at isChain
    exact listed node (isChain ▸ member)
  · simp only [State.setLruChain, Function.update_of_ne same] at isChain
    exact nodes j other node isChain member

/-- A field of an entry is changed. -/
theorem Active.changed (active : Active s head) {change : LRUEntry → LRUEntry}
    (done : s.changeEntry address change = some t)
    (named : ∀ entry, entry.key.chars ≠ [] → (change entry).key.chars ≠ [])
    (leads : ∀ entry next, s.entries[address]? = some entry → (change entry).next = some next →
      entry.next = some next ∨ head < next) : Active t head := by
  obtain ⟨entry, here, isNext⟩ := Option.bind_eq_some_iff.mp done
  cases isNext
  have inside := (List.getElem?_eq_some_iff.mp here).1
  obtain ⟨start, allocated, olderNamed, olderLeads, tail, nodes, counter⟩ := active
  refine ⟨start, ?_, ?_, ?_, tail, nodes, counter⟩
  · simpa only [List.length_set] using allocated
  · intro place other behind there
    by_cases same : place = address
    · subst same
      simp only [List.getElem?_set_self inside, Option.some.injEq] at there
      subst there
      exact named entry (olderNamed place entry behind here)
    · simp only [List.getElem?_set_ne (Ne.symm same)] at there
      exact olderNamed place other behind there
  · intro place next listed begun follows
    by_cases same : place = address
    · subst same
      simp only [nextIn, List.getElem?_set_self inside, Option.bind_some] at follows
      rcases leads entry next here follows with older | behind
      · exact olderLeads place next listed begun (by simp [nextIn, here, older])
      · exact behind
    · simp only [nextIn, List.getElem?_set_ne (Ne.symm same)] at follows
      exact olderLeads place next listed begun follows

/-- A pointer of an entry is set to nothing or to an entry behind the head. -/
theorem Active.setNext (active : Active s head) {next : Option Nat} (done : s.setNext address next = some t)
    (behind : ∀ target, next = some target → head < target) : Active t head :=
  active.changed done (fun _ unchanged => unchanged) fun _ target _ isNext => Or.inr (behind target isNext)

/-- What does not change where only key-value nodes and values change. -/
theorem Prepared.congr (prepared : Prepared s)
    (same : t.headLRU = s.headLRU ∧ t.tailLRU = s.tailLRU ∧ t.entries = s.entries ∧
      t.lruHashTab = s.lruHashTab ∧ t.counterLRU = s.counterLRU) : Prepared t := by
  obtain ⟨sameHead, sameTail, sameEntries, sameTable, sameCounter⟩ := same
  rcases prepared with inactive | ⟨head, active⟩
  · exact Or.inl fun i => (congrFun sameTable i).trans (inactive i)
  · exact Or.inr ⟨head, active.congr sameHead sameTail sameEntries sameTable sameCounter⟩

/-- A node of a chain in which the first match was changed. -/
theorem mem_replaceFirst {ν : Type} {test : ν → Bool} {change : ν → ν} {chain : List ν} {node : ν}
    (member : node ∈ replaceFirst test change chain) : node ∈ chain ∨ ∃ older ∈ chain, node = change older := by
  induction chain with
  | nil => cases member
  | cons first rest inductionHypothesis =>
    unfold replaceFirst at member
    by_cases matches_ : test first = true
    · rw [if_pos matches_] at member
      rcases List.mem_cons.mp member with rfl | later
      · exact Or.inr ⟨first, List.mem_cons_self, rfl⟩
      · exact Or.inl (List.mem_cons_of_mem _ later)
    · rw [if_neg matches_] at member
      rcases List.mem_cons.mp member with rfl | later
      · exact Or.inl List.mem_cons_self
      · rcases inductionHypothesis later with older | ⟨older, inChain, isChange⟩
        · exact Or.inl (List.mem_cons_of_mem _ older)
        · exact Or.inr ⟨older, List.mem_cons_of_mem _ inChain, isChange⟩

end Primitives

namespace Recorded

open LoggedSteps.Logged

section Tables

variable {s : State} {key val : CString} {head prev : Nat} {grants : Grants} (nonempty : key.chars ≠ [])

include nonempty in
theorem tableAt_meets : (tableAt key).Meets Inside fun _ => True :=
  Meets.entry (hashFunc_range key nonempty) fun _ _ => trivial

include nonempty in
theorem kvChain_meets : (kvChain s key).Meets Inside fun _ => True :=
  (tableAt_meets nonempty).bind fun _ _ => Meets.bind (Meets.lift fun _ _ => trivial) fun _ _ =>
    Meets.pure trivial

include nonempty in
theorem lruChain_meets : (lruChain s key).Meets Inside fun found => s.lruHashTab found.1 = some found.2 :=
  (tableAt_meets nonempty).bind fun _ _ => Meets.bind (Meets.lift fun _ here => here) fun _ here =>
    Meets.pure here

include nonempty in
/-- A node that was found has the key that was looked for. -/
theorem getKVHashTab_meets : (getKVHashTab s key).Meets Inside fun found =>
    ∀ node, found = some node → node.key = key := by
  apply Meets.bind (kvChain_meets nonempty)
  rintro ⟨i, chain⟩ _
  apply Meets.pure
  intro node found
  have same := List.find?_some found
  rw [sameKey_eq] at same
  exact of_decide_eq_true same

include nonempty in
theorem changeKVNode_meets {change : KVNode → KVNode} : (changeKVNode s key change).Meets Inside fun t =>
    t.headLRU = s.headLRU ∧ t.tailLRU = s.tailLRU ∧ t.entries = s.entries ∧
      t.lruHashTab = s.lruHashTab ∧ t.counterLRU = s.counterLRU := by
  apply Meets.bind (kvChain_meets nonempty)
  rintro ⟨i, chain⟩ _
  exact Meets.pure ⟨rfl, rfl, rfl, rfl, rfl⟩

include nonempty in
theorem setKVHashTab_meets (prepared : Prepared s) : (setKVHashTab s grants key val).Meets Inside fun result =>
    (∀ node, result.1 = some node → node.key = key) ∧ Prepared result.2 := by
  apply Meets.bind (getKVHashTab_meets nonempty)
  intro found _
  cases found with
  | some old =>
    have updated : (updateKVNode (s.xfree old.val) grants key val).Meets Inside Prepared := by
      unfold updateKVNode
      cases grants.value with
      | none => exact Meets.pure (prepared.congr ⟨rfl, rfl, rfl, rfl, rfl⟩)
      | some buffer => exact (changeKVNode_meets nonempty).mono fun t same => prepared.congr same
    apply updated.bind
    intro t later
    apply Meets.bind (getKVHashTab_meets nonempty)
    intro node sameKeys
    exact Meets.pure ⟨sameKeys, later⟩
  | none =>
    have created : (lift (createKVNode s grants key val) : Recording _).Meets Inside fun result =>
        (∀ node, result.1 = some node → node.key = key) ∧ Prepared result.2 := by
      apply Meets.lift
      intro result done
      unfold createKVNode at done
      split at done
      case isFalse => cases done
      case isTrue =>
        split at done
        case h_1 =>
          cases done
          refine ⟨fun node impossible => ?_, prepared⟩
          cases impossible
        case h_2 =>
          split at done
          case isFalse => cases done
          case isTrue =>
            cases done
            refine ⟨fun node isNode => ?_, prepared.congr ⟨rfl, rfl, rfl, rfl, rfl⟩⟩
            cases isNode
            rfl
    apply created.bind
    rintro ⟨node, t⟩ ⟨sameKeys, later⟩
    apply Meets.bind (kvChain_meets nonempty)
    rintro ⟨i, chain⟩ _
    cases node with
    | none => exact Meets.pure ⟨sameKeys, later⟩
    | some node => exact Meets.pure ⟨sameKeys, later.congr ⟨rfl, rfl, rfl, rfl, rfl⟩⟩

include nonempty in
theorem delKVHashTab_meets (prepared : Prepared s) :
    (delKVHashTab s key).Meets Inside fun result => Prepared result.2 := by
  apply Meets.bind (kvChain_meets nonempty)
  rintro ⟨i, chain⟩ _
  dsimp only
  cases chain.find? fun node => sameKey key node.key with
  | none => exact Meets.pure prepared
  | some node => exact Meets.pure (prepared.congr ⟨rfl, rfl, rfl, rfl, rfl⟩)

include nonempty in
/-- A search for a cache node ends in an active store only. -/
theorem getLRUHashTab_meets (prepared : Prepared s) : (getLRUHashTab s key).Meets Inside fun found =>
    ∃ head, Active s head ∧ ∀ node, found = some node → head ≤ node.prev ∧ 0 < s.counterLRU.toInt := by
  apply Meets.bind (lruChain_meets nonempty)
  rintro ⟨i, chain⟩ here
  apply Meets.pure
  rcases prepared with inactive | ⟨head, active⟩
  · rw [inactive i] at here
    cases here
  · exact ⟨head, active, fun node found => active.nodes i chain node here (List.mem_of_find?_eq_some found)⟩

include nonempty in
theorem setPrev_meets (active : Active s head) (listed : head ≤ prev) (begun : 0 < s.counterLRU.toInt) :
    (setPrev s key prev).Meets Inside fun t => Active t head ∧ ∃ i chain, t = s.setLruChain i chain := by
  apply Meets.bind (lruChain_meets nonempty)
  rintro ⟨i, chain⟩ here
  apply Meets.bind (Meets.lift fun _ _ => trivial)
  intro _ _
  refine Meets.pure ⟨active.setLruChain ?_, i, _, rfl⟩
  intro node member
  rcases mem_replaceFirst member with older | ⟨older, _, rfl⟩
  · exact active.nodes i chain node here older
  · exact ⟨listed, begun⟩

include nonempty in
theorem setLRUHashTab_meets (active : Active s head) (listed : head ≤ prev) (begun : 0 < s.counterLRU.toInt) :
    (setLRUHashTab s grants key prev).Meets Inside fun t =>
      Active t head ∧ ∃ i chain, t = s.setLruChain i chain := by
  apply Meets.bind (getLRUHashTab_meets nonempty (Or.inr ⟨head, active⟩))
  intro found _
  cases found with
  | some node => exact setPrev_meets nonempty active listed begun
  | none =>
    by_cases granted : grants.lruNode = true
    · simp only [granted, if_true]
      apply Meets.bind (lruChain_meets nonempty)
      rintro ⟨i, chain⟩ here
      refine Meets.pure ⟨active.setLruChain ?_, i, _, rfl⟩
      intro node member
      rcases List.mem_append.mp member with older | added
      · exact active.nodes i chain node here older
      · cases List.mem_singleton.mp added
        exact ⟨listed, begun⟩
    · simp only [granted, Bool.false_eq_true, if_false]
      exact Meets.lift fun _ impossible => by cases impossible

include nonempty in
theorem delLRUHashTab_meets (active : Active s head) : (delLRUHashTab s key).Meets Inside fun t =>
    Active t head ∧ ∃ i chain, t = s.setLruChain i chain := by
  apply Meets.bind (lruChain_meets nonempty)
  rintro ⟨i, chain⟩ here
  exact Meets.pure ⟨active.setLruChain fun node member =>
    active.nodes i chain node here (List.mem_of_mem_eraseP member), i, _, rfl⟩

end Tables

section Lists

variable {s : State} {key : CString} {head prev val : Nat} {grants : Grants}

/-- The entry behind `prev` is moved. Its key and the key of the entry behind it are hashed. -/
theorem movLRUCache_meets (active : Active s head) (listed : head ≤ prev) (begun : 0 < s.counterLRU.toInt) :
    (movLRUCache s prev).Meets Inside fun t => Active t head := by
  apply Meets.bind (Meets.lift fun _ here => here)
  intro before here
  by_cases atTail : before.next = s.tailLRU
  · simp only [atTail, if_true]
    exact Meets.pure active
  simp only [if_neg atTail]
  apply Meets.bind (Meets.lift fun _ isCurr => isCurr)
  intro curr isCurr
  have currBehind := active.next listed begun here isCurr
  apply Meets.bind (Meets.lift fun _ here => here)
  intro moved movedHere
  refine Meets.bind (show Logged.Meets _ _ fun t => Active t head ∧ t.tailLRU = s.tailLRU ∧ t.counterLRU = s.counterLRU from ?_) ?_
  · apply Meets.lift
    intro t done
    refine ⟨active.setNext done fun next isNext => active.next currBehind.le begun movedHere isNext, ?_⟩
    obtain ⟨entry, _, isNext⟩ := Option.bind_eq_some_iff.mp done
    cases isNext
    exact ⟨rfl, rfl⟩
  rintro unlinked ⟨unlinkedActive, sameTail, sameCounter⟩
  apply Meets.bind (Meets.lift fun _ isTail => isTail)
  intro tail isTail
  have tailListed := (unlinkedActive.tail tail isTail).1
  refine Meets.bind (show Logged.Meets _ _ fun t => Active t head ∧ t.counterLRU = s.counterLRU from ?_) ?_
  · apply Meets.lift
    intro t done
    refine ⟨unlinkedActive.setNext done fun next isNext => ?_, ?_⟩
    · cases isNext
      exact currBehind
    · obtain ⟨entry, _, isNext⟩ := Option.bind_eq_some_iff.mp done
      cases isNext
      exact sameCounter
  rintro linked ⟨linkedActive, sameCounter⟩
  have stillBegun : 0 < linked.counterLRU.toInt := sameCounter ▸ begun
  apply Meets.bind (Meets.lift fun _ here => here)
  intro first firstHere
  apply Meets.bind (Meets.lift fun _ isNext => isNext)
  intro next isNext
  have nextBehind := linkedActive.next listed stillBegun firstHere isNext
  apply Meets.bind (Meets.lift fun _ here => here)
  intro behind behindHere
  apply Meets.bind (setPrev_meets (linkedActive.named next behind nextBehind behindHere) linkedActive listed
    stillBegun)
  rintro renamed ⟨renamedActive, i, chain, rfl⟩
  apply Meets.bind (Meets.lift fun _ here => here)
  intro last lastHere
  apply Meets.bind (setPrev_meets (renamedActive.named curr last currBehind lastHere) renamedActive tailListed
    stillBegun)
  rintro final ⟨finalActive, j, other, rfl⟩
  apply Meets.pure
  obtain ⟨start, allocated, named, leads, _, nodes, counter⟩ := finalActive
  refine ⟨start, allocated, named, leads, ?_, nodes, counter⟩
  intro tail isTail
  cases isTail
  exact ⟨currBehind.le, fun none_ => absurd stillBegun (not_lt.mpr none_)⟩

theorem countKVNode_meets (nonempty : key.chars ≠ []) (prepared : Prepared s) :
    (countKVNode s key).Meets Inside Prepared := by
  apply Meets.bind (getKVHashTab_meets nonempty)
  intro found _
  cases found with
  | none => exact Meets.pure prepared
  | some node => exact (changeKVNode_meets nonempty).mono fun t same => prepared.congr same

/-- After a search in the cache the store is known to be active. -/
theorem getLRUCache_meets (nonempty : key.chars ≠ []) (prepared : Prepared s) :
    (getLRUCache s key).Meets Inside fun result => ∃ head, Active result.2 head := by
  have accessed : Prepared s.countAccess := prepared.congr ⟨rfl, rfl, rfl, rfl, rfl⟩
  apply Meets.bind (countKVNode_meets nonempty accessed)
  intro counted later
  apply Meets.bind (getLRUHashTab_meets nonempty later)
  rintro found ⟨head, active, listed⟩
  cases found with
  | none => exact Meets.pure ⟨head, active⟩
  | some node =>
    obtain ⟨isListed, begun⟩ := listed node rfl
    have hit : Active counted.countHit head := active.congr rfl rfl rfl rfl rfl
    exact Meets.bind (movLRUCache_meets hit isListed begun) fun t moved => Meets.pure ⟨head, moved⟩

/-- A new entry at the tail. The first one sets the pointer of the head. -/
theorem appendLRUEntry_meets (nonempty : key.chars ≠ []) (active : Active s head)
    (room : s.counterLRU.toInt < lruCacheSize) :
    (appendLRUEntry s grants key val).Meets Inside fun t => Active t head := by
  have counted : (increased s.counterLRU).toInt = s.counterLRU.toInt + 1 := increased_toInt _ active.counter room
  have positive : 0 < (increased s.counterLRU).toInt := by
    have low := active.counter
    omega
  refine Meets.bind (show Logged.Meets _ _ fun result => result.1 = s.entries.length ∧
    result.2 = { s.countKey with entries := s.entries ++ [⟨key, val, none⟩] } from ?_) ?_
  · apply Meets.lift
    intro result done
    unfold createLRUEntry at done
    split at done
    case isTrue =>
      cases done
      exact ⟨rfl, rfl⟩
    case isFalse => cases done
  rintro ⟨curr, created⟩ ⟨isCurr, isCreated⟩
  dsimp only at isCurr isCreated
  subst isCurr isCreated
  apply Meets.bind (Meets.lift fun _ isTail => isTail)
  intro tail isTail
  obtain ⟨tailListed, fresh⟩ := active.tail tail isTail
  have listed := active.allocated
  refine Meets.bind (show Logged.Meets _ _ fun t => Active t head ∧ 0 < t.counterLRU.toInt from ?_) ?_
  · apply Meets.lift
    intro t done
    obtain ⟨last, lastHere, isNext⟩ := Option.bind_eq_some_iff.mp done
    cases isNext
    have tailInside := (List.getElem?_eq_some_iff.mp lastHere).1
    have named : ∀ address entry, head < address →
        (s.entries ++ [⟨key, val, none⟩])[address]? = some entry → entry.key.chars ≠ [] := by
      intro address entry behind here
      by_cases old : address < s.entries.length
      · simp only [List.getElem?_append_left old] at here
        exact active.named address entry behind here
      · have isLast := List.mem_of_getElem? here
        simp only [List.getElem?_append_right (not_lt.mp old)] at here
        cases List.mem_singleton.mp (List.mem_of_getElem? here)
        exact nonempty
    refine ⟨⟨active.start, ?_, ?_, ?_, ?_, ?_, positive.le⟩, positive⟩
    · simp only [List.length_set, List.length_append, List.length_singleton]
      lia
    · intro address entry behind here
      by_cases same : address = tail
      · subst same
        simp only [List.getElem?_set_self tailInside, Option.some.injEq] at here
        subst here
        exact named address last behind lastHere
      · simp only [List.getElem?_set_ne (Ne.symm same)] at here
        exact named address entry behind here
    · intro address next isListed _ follows
      by_cases same : address = tail
      · subst same
        simp only [nextIn, List.getElem?_set_self tailInside, Option.bind_some, Option.some.injEq] at follows
        exact follows ▸ listed
      · simp only [nextIn, List.getElem?_set_ne (Ne.symm same)] at follows
        have older : nextIn s.entries address = some next := by
          rw [← nextIn_append s.entries key val]
          exact follows
        refine active.leads address next isListed (fun atHead => ?_) older
        by_contra notBegun
        exact same (atHead.trans (fresh (not_lt.mp notBegun)).symm)
    · intro other isOther
      cases isTail.symm.trans isOther
      exact ⟨tailListed, fun none_ => absurd positive (not_lt.mpr none_)⟩
    · intro i chain node here member
      exact ⟨(active.nodes i chain node here member).1, positive⟩
  rintro linked ⟨linkedActive, begun⟩
  apply Meets.bind (setLRUHashTab_meets nonempty linkedActive tailListed begun)
  rintro final ⟨finalActive, i, chain, rfl⟩
  apply Meets.pure
  obtain ⟨start, allocated, named, leads, _, nodes, counter⟩ := finalActive
  refine ⟨start, allocated, named, leads, ?_, nodes, counter⟩
  intro other isOther
  cases isOther
  exact ⟨listed.le, fun none_ => absurd begun (not_lt.mpr none_)⟩

/-- The first entry is taken over. Its old key and the new one are hashed. -/
theorem evictLRUEntry_meets (nonempty : key.chars ≠ []) (active : Active s head)
    (begun : 0 < s.counterLRU.toInt) : (evictLRUEntry s grants key val).Meets Inside fun t => Active t head := by
  apply Meets.bind (Meets.lift fun _ isHead => isHead)
  intro start isStart
  obtain rfl : head = start := Option.some.inj (active.start.symm.trans isStart)
  apply Meets.bind (Meets.lift fun _ here => here)
  intro first firstHere
  apply Meets.bind (Meets.lift fun _ isNext => isNext)
  intro next isNext
  have behind := active.next (le_refl _) begun firstHere isNext
  apply Meets.bind (Meets.lift fun _ here => here)
  intro evicted evictedHere
  apply Meets.bind (delLRUHashTab_meets (active.named next evicted behind evictedHere) active)
  rintro forgotten ⟨forgottenActive, i, chain, rfl⟩
  refine Meets.bind (show Logged.Meets _ _ fun t => Active t head ∧ 0 < t.counterLRU.toInt from ?_) ?_
  · apply Meets.lift
    intro t done
    refine ⟨forgottenActive.changed done (fun _ _ => nonempty) fun _ _ _ same => Or.inl same, ?_⟩
    obtain ⟨entry, _, isNext⟩ := Option.bind_eq_some_iff.mp done
    cases isNext
    exact begun
  rintro taken ⟨takenActive, stillBegun⟩
  apply Meets.bind (setLRUHashTab_meets nonempty takenActive (le_refl _) stillBegun)
  rintro renamed ⟨renamedActive, j, other, rfl⟩
  apply Meets.bind (movLRUCache_meets renamedActive (le_refl _) stillBegun)
  intro moved movedActive
  exact Meets.pure (movedActive.congr rfl rfl rfl rfl rfl)

theorem setLRUCache_meets (nonempty : key.chars ≠ []) (prepared : Prepared s) :
    (setLRUCache s grants key val).Meets Inside Prepared := by
  have counted : Prepared s.countSet := prepared.congr ⟨rfl, rfl, rfl, rfl, rfl⟩
  apply Meets.bind (getLRUCache_meets nonempty counted)
  rintro ⟨curr, looked⟩ ⟨head, active⟩
  cases curr with
  | some curr =>
    apply Meets.lift
    intro t done
    exact Or.inr ⟨head, Active.changed active done (fun _ named => named) fun _ _ _ same => Or.inl same⟩
  | none =>
    dsimp only
    by_cases room : looked.counterLRU.toInt < lruCacheSize
    · simp only [room, if_true]
      exact (appendLRUEntry_meets nonempty active room).mono fun t later => Or.inr ⟨head, later⟩
    · simp only [room, if_false]
      have begun : 0 < looked.counterLRU.toInt := lt_of_lt_of_le (by decide) (not_lt.mp room)
      exact (evictLRUEntry_meets nonempty active begun).mono fun t later => Or.inr ⟨head, later⟩

/-- The entry behind the one that is deleted is made to name the entry before it. -/
theorem leaveTail_meets (active : Active s head) (listed : head ≤ prev) (begun : 0 < s.counterLRU.toInt)
    {curr : Option Nat} (behind : ∀ address, curr = some address → head < address) :
    (leaveTail s prev curr).Meets Inside fun t => Active t head ∧ t.counterLRU = s.counterLRU ∧
      t.entries = s.entries := by
  unfold leaveTail
  by_cases atTail : curr = s.tailLRU
  · simp only [atTail, if_true]
    apply Meets.pure
    obtain ⟨start, allocated, named, leads, _, nodes, counter⟩ := active
    refine ⟨⟨start, allocated, named, leads, ?_, nodes, counter⟩, rfl, rfl⟩
    intro tail isTail
    cases isTail
    exact ⟨listed, fun none_ => absurd begun (not_lt.mpr none_)⟩
  · simp only [atTail, if_false]
    apply Meets.bind (Meets.lift fun _ isCurr => isCurr)
    intro address isCurr
    apply Meets.bind (Meets.lift fun _ here => here)
    intro left leftHere
    apply Meets.bind (Meets.lift fun _ isNext => isNext)
    intro next isNext
    have nextBehind := active.next (behind address isCurr).le begun leftHere isNext
    apply Meets.bind (Meets.lift fun _ here => here)
    intro other otherHere
    refine (setPrev_meets (active.named next other nextBehind otherHere) active listed begun).mono ?_
    rintro t ⟨later, i, chain, rfl⟩
    exact ⟨later, rfl, rfl⟩

theorem delLRUCache_meets (nonempty : key.chars ≠ []) (prepared : Prepared s) :
    (delLRUCache s key).Meets Inside Prepared := by
  apply Meets.bind (getLRUHashTab_meets nonempty prepared)
  rintro found ⟨head, active, listed⟩
  cases found with
  | none => exact Meets.pure prepared
  | some node =>
    obtain ⟨isListed, begun⟩ := listed node rfl
    apply Meets.bind (Meets.lift fun _ here => here)
    intro before here
    have behind : ∀ address, before.next = some address → head < address :=
      fun address isNext => active.next isListed begun here isNext
    apply Meets.bind (leaveTail_meets active isListed begun behind)
    rintro left ⟨leftActive, sameCounter, sameEntries⟩
    apply Meets.bind (delLRUHashTab_meets nonempty leftActive)
    rintro forgotten ⟨forgottenActive, i, chain, rfl⟩
    apply Meets.bind (Meets.lift fun _ isCurr => isCurr)
    intro curr isCurr
    apply Meets.bind (Meets.lift fun _ here => here)
    intro last lastHere
    apply Meets.lift
    intro t done
    have stillBegun : 0 < (left.setLruChain i chain).counterLRU.toInt := sameCounter ▸ begun
    exact Or.inr ⟨head, forgottenActive.setNext done fun next isNext =>
      forgottenActive.next (behind curr isCurr).le stillBegun lastHere isNext⟩

end Lists

/-- Every index of a call on a key that is not empty is inside of the tables. -/
theorem exec_meets {s : State} (prepared : Prepared s) (call : Call) (nonempty : call.key.chars ≠ []) :
    (exec s call).Meets Inside fun result => Prepared result.2 := by
  cases call with
  | set grants key val =>
    have set_ : (kvSet s grants key val).Meets Inside fun result => Prepared result.2 := by
      apply Meets.bind (setKVHashTab_meets nonempty prepared)
      rintro ⟨found, t⟩ ⟨sameKeys, later⟩
      apply Meets.bind (Meets.lift fun _ isNode => isNode)
      intro node isNode
      have named : node.key.chars ≠ [] := sameKeys node isNode ▸ nonempty
      exact Meets.bind (setLRUCache_meets named later) fun final last => Meets.pure last
    exact Meets.bind set_ fun result later => Meets.pure later
  | get key =>
    have get_ : (kvGet s key).Meets Inside fun result => Prepared result.2 := by
      apply Meets.bind (getLRUCache_meets nonempty prepared)
      rintro ⟨entry, t⟩ ⟨head, active⟩
      have later : Prepared t := Or.inr ⟨head, active⟩
      cases entry with
      | some entry =>
        exact Meets.bind (Meets.lift fun _ _ => trivial) fun _ _ => Meets.pure later
      | none => exact Meets.bind (getKVHashTab_meets nonempty) fun _ _ => Meets.pure later
    exact Meets.bind get_ fun result later => Meets.pure later
  | delete key =>
    have delete_ : (kvDelete s key).Meets Inside fun result => Prepared result.2 :=
      Meets.bind (delLRUCache_meets nonempty prepared) fun t later => delKVHashTab_meets nonempty later
    exact Meets.bind delete_ fun result later => Meets.pure later

/-- Every call starts with an access for its own key. -/
theorem mem_exec_log (s : State) (call : Call) : hashFunc call.key ∈ (exec s call).log := by
  have here : ∀ key, hashFunc key ∈ (tableAt key).log := fun key => List.mem_singleton.mpr rfl
  have kv : ∀ (s : State) key, hashFunc key ∈ (getKVHashTab s key).log := fun s key =>
    mem_log_bind (mem_log_bind (here key))
  have lru : ∀ (s : State) key, hashFunc key ∈ (getLRUHashTab s key).log := fun s key =>
    mem_log_bind (mem_log_bind (here key))
  cases call with
  | set grants key val => exact mem_log_bind (mem_log_bind (mem_log_bind (kv s key)))
  | get key => exact mem_log_bind (mem_log_bind (mem_log_bind (mem_log_bind (kv _ key))))
  | delete key => exact mem_log_bind (mem_log_bind (mem_log_bind (lru s key)))

end Recorded

/-- `kv_init`, `kv_reset`, and the calls between them. -/
inductive Move where
  | init (granted : Bool) (memory : LRUEntry)
  | reset (turns : Nat)
  | call (call : Call)

/-- One move. -/
def move (s : State) : Move → Option (Reply × State)
  | .init granted memory => (kvInit s granted memory).map fun s => (.status 0, s)
  | .reset turns => (kvReset s turns).map fun s => (.status 0, s)
  | .call call => exec s call

/-- A call on the empty key does not complete: what it reads in front of a table is not a chain. -/
theorem exec_unnamed (s : State) (call : Call) (isEmpty : call.key.chars = []) : exec s call = none := by
  have noIndex : tableIndex (hashFunc call.key) = none := by simp [hashFunc, isEmpty, tableIndex]
  cases call with
  | set grants key val =>
    have noChain : s.kvChain key = none := by
      simp only [State.kvChain, show tableIndex (hashFunc key) = none from noIndex, Option.bind_eq_bind,
        Option.bind_none]
    simp [exec, kvSet, setKVHashTab, getKVHashTab, noChain]
  | get key =>
    have noChain : s.countAccess.kvChain key = none := by
      simp only [State.kvChain, show tableIndex (hashFunc key) = none from noIndex, Option.bind_eq_bind,
        Option.bind_none]
    simp [exec, kvGet, getLRUCache, countKVNode, getKVHashTab, noChain]
  | delete key =>
    have noChain : s.lruChain key = none := by
      simp only [State.lruChain, show tableIndex (hashFunc key) = none from noIndex, Option.bind_eq_bind,
        Option.bind_none]
    simp [exec, kvDelete, delLRUCache, getLRUHashTab, noChain]

/-- The store is prepared before and after every move. -/
theorem move_prepared {s t : State} {reply : Reply} (prepared : Prepared s) (made : Move)
    (completed : move s made = some (reply, t)) : Prepared t := by
  cases made with
  | init granted memory =>
    obtain ⟨next, done, same⟩ := Option.map_eq_some_iff.mp completed
    cases same
    unfold kvInit at done
    split at done
    case isFalse => cases done
    case isTrue =>
      cases done
      refine Or.inr ⟨s.entries.length, rfl, ?_, ?_, ?_, ?_, ?_, le_refl _⟩
      · simp
      · intro address entry behind here
        have inside := (List.getElem?_eq_some_iff.mp here).1
        simp only [List.length_append, List.length_singleton] at inside
        omega
      · intro address next listed begun follows
        by_cases atHead : address = s.entries.length
        · exact absurd (begun atHead) (lt_irrefl 0)
        · have outside : (s.entries ++ [memory])[address]? = none := by
            simp only [List.getElem?_eq_none_iff, List.length_append, List.length_singleton]
            lia
          simp [nextIn, outside] at follows
      · intro tail isTail
        cases isTail
        exact ⟨le_refl _, fun _ => rfl⟩
      · intro i chain node here member
        cases here
        cases member
  | reset turns =>
    obtain ⟨next, done, same⟩ := Option.map_eq_some_iff.mp completed
    cases same
    obtain ⟨_, _, isNext⟩ := Option.bind_eq_some_iff.mp done
    cases isNext
    exact Or.inl fun _ => rfl
  | call call =>
    by_cases isEmpty : call.key.chars = []
    · cases (exec_unnamed s call isEmpty).symm.trans completed
    · have logged : (Recorded.exec s call).outcome = some (reply, t) := (Recorded.exec_outcome call).trans completed
      exact (Recorded.exec_meets prepared call isEmpty).outcome _ logged

/-- The hash code of a key is an index of the tables unless the key is empty. In every state that the store
reaches, a call looks into the tables at indices only unless its key is empty. -/
theorem indices_stay_inside_iff (s : State) (events : List (Event State Move Reply))
    (run : Run move boot events s) (call : Call) :
    (Recorded.exec s call).outcome = exec s call ∧
    (Inside (hashFunc call.key) ↔ call.key.chars ≠ []) ∧
    ((∀ hashCode ∈ (Recorded.exec s call).log, Inside hashCode) ↔ call.key.chars ≠ []) := by
  have start : Prepared boot := Or.inl fun _ => rfl
  have prepared : Prepared s := by
    refine invariant_last Prepared (fun _ _ => True) ?_ _ _ _ run start fun _ _ => trivial
    intro before made reply after prepared _ completed
    exact move_prepared prepared made completed
  refine ⟨Recorded.exec_outcome call, inside_hash_iff call.key, ?_, ?_⟩
  · intro inside
    exact (inside_hash_iff call.key).mp (inside _ (Recorded.mem_exec_log s call))
  · intro nonempty
    exact (Recorded.exec_meets prepared call nonempty).log

/-- The memory that the head of the list gets. -/
def blankEntry : LRUEntry := ⟨⟨[], empty_text⟩, 0, none⟩

/-- After `kv_init`, a `kv_get` of a key of one letter looks into the tables at indices. -/
theorem letter_stays_inside : ∃ s events, Run move boot events s ∧
    (Recorded.exec s (.get ⟨[97], by decide⟩)).log ≠ [] ∧
    ∀ hashCode ∈ (Recorded.exec s (.get ⟨[97], by decide⟩)).log, Inside hashCode := by
  have run : Run move boot _ (started blankEntry) :=
    .taken boot (.init true blankEntry) (.status 0) _ _ [] rfl (.done _)
  obtain ⟨_, _, inside⟩ := indices_stay_inside_iff _ _ run (.get ⟨[97], by decide⟩)
  exact ⟨_, _, run, List.ne_nil_of_mem (Recorded.mem_exec_log _ _), inside.mpr (by simp [Call.key])⟩

/-- After `kv_init`, a `kv_get` of the empty key looks in front of a table. -/
theorem empty_key_looks_in_front : ¬ ∀ s events, Run move boot events s → ∀ call,
    Inside (hashFunc call.key) ∧ ∀ hashCode ∈ (Recorded.exec s call).log, Inside hashCode := by
  intro safe
  have run : Run move boot _ (started blankEntry) :=
    .taken boot (.init true blankEntry) (.status 0) _ _ [] rfl (.done _)
  have inside := (safe _ _ run (.get ⟨[], empty_text⟩)).1
  exact (inside_hash_iff ⟨[], empty_text⟩).mp inside rfl

end Xinu.KeyValueStore
