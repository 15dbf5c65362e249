import Xinu.StoreMap

/-!
# Resetting the store

The first loop of `kv_reset` follows `next` from the head until the null pointer. It
passes the list and goes on behind the tail, where `movLRUCache` leaves the old
successor of the moved entry. That successor is still on the list, so from then on
the loop runs in a circle; only a new entry at the tail ends the circle.

The other two loops walk along finite chains. Each value pointer of the table is
given to `xfree` once, unless two keys have the same pointer. That needs a `kv_set`
that overwrites a value and finds no buffer for the new one: the node keeps the
pointer it has given back, and `xmalloc` may hand it out again.
-/

namespace Xinu.KeyValueStore

open CIntegers ChainedTable LinkedPath Runs

/-- `kv_reset` returns, has given back the pointer of every key once, and no key is stored
any more. -/
def ResetHolds (s : State) : Prop :=
  ∃ turns t given, kvReset s turns = some t ∧ t.freed = s.freed ++ given ∧
    (∀ key val, Stores s.kvHashTab key val → given.count val = 1) ∧
    ∀ key val, ¬ Stores t.kvHashTab key val

/-- The `next` field of the tail is the null pointer. -/
def TailEnds (s : State) : Prop := ∃ tail, s.tailLRU = some tail ∧ nextIn s.entries tail = none

/-- No two keys have the same value pointer. -/
def ValuesApart (s : State) : Prop :=
  ∀ k l val, Stores s.kvHashTab k val → Stores s.kvHashTab l val → k = l

/-- A set of entries around the head that `next` does not leave. -/
def Trapped (s : State) (head : Nat) : Prop :=
  ∃ cells : Set Nat, head ∈ cells ∧ ∀ cell ∈ cells, cell < s.entries.length →
    ∃ after ∈ cells, nextIn s.entries cell = some after

section Loop

variable {s t : State} {head : Nat} {path : List Nat} {key : CString} {change : Change}

/-- The loop does not get out of a trap. -/
theorem Trapped.never (trapped : Trapped s head) (turns : Nat) :
    followToNull s turns (some head) = none := by
  obtain ⟨cells, inside, closed⟩ := trapped
  induction turns generalizing head with
  | zero => rfl
  | succ turns inductionHypothesis =>
    cases here : s.entries[head]? with
    | none => simp [followToNull, here]
    | some entry =>
      obtain ⟨after, inCells, leads⟩ := closed head inside (List.getElem?_eq_some_iff.mp here).1
      have field : entry.next = some after := by simpa [nextIn, here] using leads
      simp only [followToNull, here, Option.bind_eq_bind, Option.bind_some, field]
      exact inductionHypothesis inCells

/-- The loop passes a list that ends. -/
theorem follow_linked (s : State) (tail : Nat) (first : Nat) (rest : List Nat)
    (linked : Linked (nextIn s.entries) (first :: rest))
    (allocated : ∀ cell ∈ first :: rest, cell < s.entries.length)
    (last : (first :: rest).getLast? = some tail) (ends : nextIn s.entries tail = none) :
    followToNull s (rest.length + 1) (some first) = some () := by
  induction rest generalizing first with
  | nil =>
    obtain rfl : first = tail := by simpa using last
    have here := List.getElem?_eq_getElem (allocated first List.mem_cons_self)
    simp only [nextIn, here, Option.bind_some] at ends
    simp [followToNull, here, ends]
  | cons second rest inductionHypothesis =>
    have here := List.getElem?_eq_getElem (allocated first List.mem_cons_self)
    have leads := linked (first, second) List.mem_cons_self
    simp only [nextIn, here, Option.bind_some] at leads
    simp only [List.length_cons, followToNull, here, Option.bind_eq_bind, Option.bind_some, leads]
    exact inductionHypothesis second (fun link member => linked link (List.mem_cons_of_mem _ member))
      (fun cell member => allocated cell (List.mem_cons_of_mem _ member)) (by simpa using last)

/-- The first loop ends exactly if the tail ends the list. -/
theorem follow_iff (sound : ListSound s head path) (looped : TailEnds s ∨ Trapped s head) :
    (∃ turns, followToNull s turns s.headLRU = some ()) ↔ TailEnds s := by
  rw [sound.start]
  constructor
  · rintro ⟨turns, done⟩
    rcases looped with ends | trapped
    · exact ends
    · cases (trapped.never turns).symm.trans done
  · rintro ⟨tail, isTail, ends⟩
    exact ⟨_, follow_linked s tail head path sound.linked sound.allocated
      (sound.tail.symm.trans isTail) ends⟩

/-- An entry moved to the tail of a longer list closes a circle. -/
theorem trapped_moved {prev curr tail : Nat} (list : ListSound s head path)
    (next : ListSound t head (path.erase curr ++ [curr]))
    (link : (prev, curr) ∈ links (head :: path)) (isTail : s.tailLRU = some tail)
    (inner : curr ≠ tail)
    (nexts : nextIn t.entries = Change.moved (nextIn s.entries) prev curr tail) : Trapped t head := by
  refine ⟨{cell | cell ∈ head :: (path.erase curr ++ [curr])}, List.mem_cons_self, ?_⟩
  intro cell member _
  rcases eq_or_ne cell curr with rfl | other
  · have inList : cell ∈ head :: path := (links_member _ _ link).2
    have notPrev : cell ≠ prev := by
      rintro rfl
      obtain ⟨front, back, split⟩ := links_split _ _ link
      have distinct := list.distinct
      rw [split] at distinct
      exact (List.nodup_cons.mp (List.nodup_append.mp distinct).2.1).1 List.mem_cons_self
    obtain ⟨after, inPath, leads⟩ := list.linked.successor (list.tail.symm.trans isTail) inList inner
    refine ⟨after, ?_, ?_⟩
    · apply List.mem_cons_of_mem
      rcases eq_or_ne after cell with rfl | different
      · simp
      · exact List.mem_append_left _ ((List.mem_erase_of_ne different).mpr inPath)
    · rw [nexts, Change.moved, if_neg inner, Function.update_of_ne inner, Function.update_of_ne notPrev,
        leads]
  · have last : (head :: (path.erase curr ++ [curr])).getLast? = some curr := by
      rw [← List.cons_append, List.getLast?_concat]
    obtain ⟨after, inPath, leads⟩ := next.linked.successor last member other
    exact ⟨after, List.mem_cons_of_mem _ inPath, leads⟩

/-- The tail after an entry is bypassed. -/
theorem tailEnds_deleted {prev curr tail : Nat} (list : ListSound s head path)
    (next : ListSound t head (path.erase curr)) (link : (prev, curr) ∈ links (head :: path))
    (isTail : s.tailLRU = some tail) (ends : nextIn s.entries tail = none)
    (nexts : nextIn t.entries = Function.update (nextIn s.entries) prev (nextIn s.entries curr)) :
    TailEnds t := by
  obtain ⟨front, back, split⟩ := links_split _ _ link
  have erased := erase_split split list.distinct
  rcases List.eq_nil_or_concat' back with rfl | ⟨middle, last, rfl⟩
  · have same := list.tail_split (front ++ [prev]) curr (by rw [split]; simp)
    cases Option.some.inj (isTail.symm.trans same)
    refine ⟨prev, next.tail_split front prev erased, ?_⟩
    rw [nexts, Function.update_self, ends]
  · have same := list.tail_split (front ++ prev :: curr :: middle) last (by rw [split]; simp)
    cases Option.some.inj (isTail.symm.trans same)
    refine ⟨tail, next.tail_split (front ++ prev :: middle) tail (by rw [erased]; simp), ?_⟩
    have notPrev : tail ≠ prev := by
      rintro rfl
      cases ends.symm.trans (list.linked _ link)
    rw [nexts, Function.update_of_ne notPrev, ends]

/-- A trap around a bypassed entry stays one. -/
theorem Trapped.deleted {prev curr : Nat} (list : ListSound s head path)
    (trapped : Trapped s head) (link : (prev, curr) ∈ links (head :: path))
    (nexts : nextIn t.entries = Function.update (nextIn s.entries) prev (nextIn s.entries curr))
    (length : t.entries.length = s.entries.length) : Trapped t head := by
  obtain ⟨cells, inside, closed⟩ := trapped
  refine ⟨cells, inside, ?_⟩
  intro cell member allocated
  rw [length] at allocated
  obtain ⟨after, inCells, leads⟩ := closed cell member allocated
  rcases eq_or_ne cell prev with rfl | other
  · cases Option.some.inj (leads.symm.trans (list.linked _ link))
    obtain ⟨second, secondIn, secondLeads⟩ := closed curr inCells
      (list.allocated curr (links_member _ _ link).2)
    exact ⟨second, secondIn, by rw [nexts, Function.update_self, secondLeads]⟩
  · exact ⟨after, inCells, by rw [nexts, Function.update_of_ne other, leads]⟩

/-- Every change leaves a list that ends at the tail or a trap. -/
theorem looped_changed (list : ListSound s head path) (changed : Changed s head path key change t)
    (next : ListSound t head (change.path s.entries.length path))
    (looped : TailEnds s ∨ Trapped s head) : TailEnds t ∨ Trapped t head := by
  obtain ⟨tail, isTail⟩ := list.has_tail
  have nexts := changed.nexts tail isTail
  have length := changed.allocated
  have allowed := changed.allowed
  have unmoved : nextIn t.entries = nextIn s.entries → t.entries.length = s.entries.length →
      t.tailLRU = some tail → TailEnds t ∨ Trapped t head := by
    intro sameNexts sameLength sameTail
    rcases looped with ⟨other, isOther, ends⟩ | ⟨cells, inside, closed⟩
    · cases Option.some.inj (isTail.symm.trans isOther)
      exact Or.inl ⟨tail, sameTail, by rw [sameNexts, ends]⟩
    · exact Or.inr ⟨cells, inside, by rw [sameNexts, sameLength]; exact closed⟩
  have movedTo : ∀ prev curr, (prev, curr) ∈ links (head :: path) →
      ListSound t head (path.erase curr ++ [curr]) → t.entries.length = s.entries.length →
      nextIn t.entries = Change.moved (nextIn s.entries) prev curr tail →
      TailEnds t ∨ Trapped t head := by
    intro prev curr link listNext sameLength movedNexts
    by_cases inner : curr = tail
    · subst inner
      refine unmoved ?_ sameLength ?_
      · rw [movedNexts, Change.moved, if_pos rfl]
      · rw [listNext.tail, ← List.cons_append, List.getLast?_concat]
    · exact Or.inr (trapped_moved list listNext link isTail inner movedNexts)
  cases change with
  | kept => exact unmoved nexts length (by rw [next.tail, ← isTail, list.tail]; rfl)
  | used prev curr => exact movedTo prev curr allowed.1 next length nexts
  | added =>
    have notTail : s.entries.length ≠ tail := by
      rintro rfl
      have tailIn := List.mem_of_getLast? (list.tail.symm.trans isTail)
      exact lt_irrefl _ (list.allocated _ tailIn)
    refine Or.inl ⟨s.entries.length, ?_, ?_⟩
    · rw [next.tail, Change.path, ← List.cons_append, List.getLast?_concat]
    · rw [nexts, Change.next, Function.update_of_ne notTail]
      simp [nextIn]
  | evicted first =>
    obtain ⟨rest, rfl⟩ : ∃ rest, path = first :: rest := by
      cases path with
      | nil => cases allowed.2.2
      | cons other rest =>
        cases Option.some.inj allowed.2.2
        exact ⟨rest, rfl⟩
    refine movedTo head first List.mem_cons_self ?_ length nexts
    rw [List.erase_cons_head]
    exact next
  | reused outside =>
    obtain ⟨rfl, _, leads⟩ := allowed
    rcases looped with ⟨other, isOther, ends⟩ | ⟨cells, inside, closed⟩
    · cases Option.some.inj (list.tail.symm.trans isOther)
      cases leads.symm.trans ends
    · refine Or.inr ⟨cells, inside, ?_⟩
      rw [show nextIn t.entries = nextIn s.entries from nexts,
        show t.entries.length = s.entries.length from length]
      exact closed
  | deleted prev curr =>
    rcases looped with ⟨other, isOther, ends⟩ | trapped
    · exact Or.inl (tailEnds_deleted list next allowed.1 isOther ends nexts)
    · exact Or.inr (trapped.deleted list allowed.1 nexts length)

end Loop

/-- The table of key-value nodes gives each of its pointers once exactly if they are
different. -/
theorem values_once_iff (s : State) (kv : TableSound KVNode.key s.kvHashTab) :
    (∀ key val, Stores s.kvHashTab key val →
      ((tableNodes s.kvHashTab).map KVNode.val).count val = 1) ↔ ValuesApart s := by
  constructor
  · intro once k l val left right
    have distinct : ((tableNodes s.kvHashTab).map KVNode.val).Nodup := by
      rw [List.nodup_iff_count_le_one]
      intro other
      by_cases member : other ∈ (tableNodes s.kvHashTab).map KVNode.val
      · obtain ⟨node, inNodes, rfl⟩ := List.mem_map.mp member
        exact (once node.key node.val ⟨node, (kv.mem_nodes node).mp inNodes, rfl, rfl⟩).le
      · rw [List.count_eq_zero_of_not_mem member]
        exact Nat.zero_le 1
    obtain ⟨node, held, rfl, rfl⟩ := left
    obtain ⟨other, otherHeld, rfl, same⟩ := right
    rw [List.inj_on_of_nodup_map distinct ((kv.mem_nodes node).mpr held)
      ((kv.mem_nodes other).mpr otherHeld) same.symm]
  · intro apart key val stored
    have nodesDistinct : (tableNodes s.kvHashTab).Nodup := kv.nodes_distinct.of_map
    have distinct : ((tableNodes s.kvHashTab).map KVNode.val).Nodup := by
      refine List.Nodup.map_on ?_ nodesDistinct
      intro left leftIn right rightIn same
      have leftHeld := (kv.mem_nodes left).mp leftIn
      have rightHeld := (kv.mem_nodes right).mp rightIn
      exact kv.unique leftHeld rightHeld
        (apart left.key right.key left.val ⟨left, leftHeld, rfl, rfl⟩
          ⟨right, rightHeld, rfl, same.symm⟩)
    obtain ⟨node, held, rfl, rfl⟩ := stored
    exact List.count_eq_one_of_mem distinct (List.mem_map_of_mem ((kv.mem_nodes node).mpr held))

/-- What `kv_reset` gives to `xfree`. -/
theorem reset_given (s t : State) (turns : Nat) (done : kvReset s turns = some t) :
    followToNull s turns s.headLRU = some () ∧
      t.freed = s.freed ++ (tableNodes s.kvHashTab).map KVNode.val ∧ t.kvHashTab = fun _ => none := by
  obtain ⟨_, followed, rest⟩ := Option.bind_eq_some_iff.mp done
  cases Option.some.inj rest
  refine ⟨followed, ?_, rfl⟩
  rw [tableNodes, List.map_flatMap]

theorem reset_done (s : State) (turns : Nat) (followed : followToNull s turns s.headLRU = some ()) :
    ∃ t, kvReset s turns = some t := by
  unfold kvReset
  rw [followed]
  exact ⟨_, rfl⟩

/-- The invariant of the runs. -/
def ResetSound (s : State) : Prop :=
  ∃ head path, StoreSound s head path ∧ (TailEnds s ∨ Trapped s head)

/-- The memory of the head entry ends the list or leads into a trap. -/
theorem started_looped (memory : LRUEntry) :
    TailEnds (started memory) ∨ Trapped (started memory) 0 := by
  cases leads : memory.next with
  | none => exact Or.inl ⟨0, rfl, leads⟩
  | some after =>
    refine Or.inr ⟨{0, after}, Set.mem_insert 0 _, ?_⟩
    intro cell _ allocated
    have isHead : cell = 0 := Nat.lt_one_iff.mp allocated
    subst isHead
    exact ⟨after, Set.mem_insert_of_mem _ rfl, leads⟩

/-- In every state of a run, `kv_reset` returns with every pointer given back once and no
key left exactly if the tail ends the list and no two keys have the same pointer. -/
theorem reset_holds_iff (memory : LRUEntry) (s : State) (events : List (Event State Call Reply))
    (run : Run exec (started memory) events s) (named : Meets Named events) :
    ResetHolds s ↔ TailEnds s ∧ ValuesApart s := by
  obtain ⟨head, path, sound, looped⟩ : ResetSound s := by
    refine invariant_last ResetSound Named ?_ _ _ _ run
      ⟨0, [], started_sound memory, started_looped memory⟩ named
    rintro before call reply after ⟨head, path, sound, looped⟩ nonempty completed
    obtain ⟨change, outcome⟩ := sound.step nonempty completed
    obtain ⟨changed, next⟩ := outcome.changed
    exact ⟨head, _, next, looped_changed sound.cache.list changed next.cache.list looped⟩
  rw [← follow_iff sound.cache.list looped, ← values_once_iff s sound.kv]
  constructor
  · rintro ⟨turns, t, given, done, freed, once, _⟩
    obtain ⟨followed, all, _⟩ := reset_given s t turns done
    have same : given = (tableNodes s.kvHashTab).map KVNode.val :=
      List.append_cancel_left (freed.symm.trans all)
    rw [same] at once
    exact ⟨⟨turns, followed⟩, once⟩
  · rintro ⟨⟨turns, followed⟩, once⟩
    obtain ⟨t, done⟩ := reset_done s turns followed
    obtain ⟨_, freed, empty⟩ := reset_given s t turns done
    refine ⟨turns, t, _, done, freed, once, ?_⟩
    rintro key val ⟨node, ⟨chain, here, _⟩, _⟩
    rw [empty] at here
    cases here

/-- One key is set. -/
def oneKey : Call :=
  .set ⟨true, true, true, true, some 0⟩ (letter 97 letter_a) (letter 49 digit_one)

/-- The store can be reset after one `kv_set`. -/
theorem reset_after_one_key : ∃ s events,
    Run exec (started ⟨letter 104 (by decide), 0, none⟩) events s ∧ events.length = 1 ∧
      ResetHolds s := by
  have passed : (exec (started ⟨letter 104 (by decide), 0, none⟩) oneKey).any (fun result =>
      decide (result.2.tailLRU = some 1 ∧ nextIn result.2.entries 1 = none)) = true := by
    decide +kernel
  obtain ⟨⟨status, s⟩, setDone, checked⟩ := (Option.any_eq_true _ _).mp passed
  obtain ⟨isTail, ends⟩ := of_decide_eq_true checked
  have named : oneKey.key.chars ≠ [] := by simp [oneKey, Call.key, letter]
  have fresh : Fresh (started ⟨letter 104 (by decide), 0, none⟩) oneKey :=
    ⟨0, rfl, fun k _ => stores_started _ k 0⟩
  have follows := (started_follows _).step named fresh setDone
  have run := Run.taken _ _ _ _ _ [] setDone (.done s)
  exact ⟨s, _, run, rfl, (reset_holds_iff _ s _ run
    (by simpa [Meets, Named] using named)).mpr ⟨⟨1, isTail, ends⟩, follows.apart⟩⟩

/-- After two keys are set and the first one is asked for, the loop never ends. -/
theorem reset_never_returns : ∃ s events,
    Run exec (started ⟨letter 104 (by decide), 0, none⟩) events s ∧
      events.map (fun event => event.call.key.chars) = [[97], [98], [97]] ∧
      (∀ turns, kvReset s turns = none) ∧ ¬ ResetHolds s := by
  obtain ⟨events, s, run, passed⟩ := trace_exists exec (started ⟨letter 104 (by decide), 0, none⟩)
    twoKeys (fun events s => events.map (fun event => event.call.key.chars) = [[97], [98], [97]] ∧
      s.headLRU = some 0 ∧ nextIn s.entries 0 = some 2 ∧ nextIn s.entries 1 = some 2 ∧
      nextIn s.entries 2 = some 1) (by decide +kernel)
  simp only [decide_eq_true_eq] at passed
  obtain ⟨calls, isHead, fromHead, fromFirst, fromSecond⟩ := passed
  have trapped : Trapped s 0 := by
    refine ⟨{0, 1, 2}, Set.mem_insert 0 _, ?_⟩
    rintro cell (rfl | rfl | rfl) _
    · exact ⟨2, by simp, fromHead⟩
    · exact ⟨2, by simp, fromFirst⟩
    · exact ⟨1, by simp, fromSecond⟩
  have never : ∀ turns, kvReset s turns = none := by
    intro turns
    unfold kvReset
    rw [isHead, trapped.never turns]
    rfl
  refine ⟨s, events, run, calls, never, ?_⟩
  rintro ⟨turns, t, _, done, _⟩
  cases (never turns).symm.trans done

end Xinu.KeyValueStore
