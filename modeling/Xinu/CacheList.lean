import Xinu.LinkedPath
import Xinu.StoreTables

/-!
# The list of cache entries

The entries between `headLRU` and `tailLRU` form a path through the `next` fields,
and the table of cache nodes names the predecessor of every entry on it. Entries
off the path keep old keys and old pointers, and the `next` field of the tail may
be stale; neither is read while the path is walked.

Each operation of the cache changes the path in one way: an entry added at the
tail, an entry moved to the tail, an entry bypassed, the first entry taken over.
-/

namespace Xinu.KeyValueStore

open CIntegers ChainedTable LinkedPath

/-- The `next` field at an address, and the key and value found there. -/
def nextIn (entries : List LRUEntry) (address : Nat) : Option Nat :=
  entries[address]?.bind LRUEntry.next

def dataIn (entries : List LRUEntry) (address : Nat) : Option (CString × Nat) :=
  entries[address]?.map fun entry => (entry.key, entry.val)

def keyIn (entries : List LRUEntry) (address : Nat) : Option CString :=
  entries[address]?.map LRUEntry.key

theorem keyIn_data (entries : List LRUEntry) (address : Nat) :
    keyIn entries address = (dataIn entries address).map Prod.fst := by
  unfold keyIn dataIn
  rw [Option.map_map]
  rfl

theorem keyIn_congr {left right : List LRUEntry} (same : dataIn left = dataIn right) :
    keyIn left = keyIn right := by
  funext address
  rw [keyIn_data, keyIn_data, same]

theorem allocated_congr {left right : List LRUEntry} (same : dataIn left = dataIn right) :
    left.length = right.length := by
  apply le_antisymm
  · have missing : dataIn left right.length = none := by rw [same]; simp [dataIn]
    simpa [dataIn] using missing
  · have missing : dataIn right left.length = none := by rw [← same]; simp [dataIn]
    simpa [dataIn] using missing

/-- Entries with the same data sit at the same addresses. -/
theorem entry_congr {left right : List LRUEntry} (same : dataIn left = dataIn right)
    {address : Nat} {entry : LRUEntry} (here : right[address]? = some entry) :
    ∃ other, left[address]? = some other ∧ other.key = entry.key ∧ other.val = entry.val ∧
      other.next = nextIn left address := by
  have data : dataIn left address = some (entry.key, entry.val) := by
    rw [same]
    simp [dataIn, here]
  obtain ⟨other, otherHere, sameData⟩ := Option.map_eq_some_iff.mp data
  obtain ⟨sameKey, sameVal⟩ := Prod.mk.inj sameData
  exact ⟨other, otherHere, sameKey, sameVal, by simp [nextIn, otherHere]⟩

/-- A store into the `next` field of an allocated entry. -/
theorem setNext_done (s : State) (address : Nat) (next : Option Nat)
    (allocated : address < s.entries.length) :
    ∃ entries, s.setNext address next = some (s.relinked entries s.lruHashTab s.tailLRU) ∧
      nextIn entries = Function.update (nextIn s.entries) address next ∧
      dataIn entries = dataIn s.entries := by
  have here := List.getElem?_eq_getElem allocated
  refine ⟨s.entries.set address { s.entries[address] with next := next }, ?_, ?_, ?_⟩
  · simp only [State.setNext, State.changeEntry, here, Option.bind_eq_bind, Option.bind_some]
    rfl
  · funext other
    rcases eq_or_ne other address with rfl | apart
    · simp [nextIn, allocated]
    · simp [nextIn, List.getElem?_set_ne (Ne.symm apart), Function.update_of_ne apart]
  · funext other
    rcases eq_or_ne other address with rfl | apart
    · simp [dataIn, allocated]
    · simp [dataIn, List.getElem?_set_ne (Ne.symm apart)]

/-- A store of a key and a value into an allocated entry. -/
theorem changeData_done (s : State) (address : Nat) (key : CString) (val : Nat)
    (allocated : address < s.entries.length) :
    ∃ entries, s.changeEntry address (fun entry => { entry with key := key, val := val }) =
        some (s.relinked entries s.lruHashTab s.tailLRU) ∧
      nextIn entries = nextIn s.entries ∧
      dataIn entries = Function.update (dataIn s.entries) address (some (key, val)) := by
  have here := List.getElem?_eq_getElem allocated
  refine ⟨s.entries.set address { s.entries[address] with key := key, val := val }, ?_, ?_, ?_⟩
  · simp only [State.changeEntry, here, Option.bind_eq_bind, Option.bind_some]
    rfl
  · funext other
    rcases eq_or_ne other address with rfl | apart
    · simp [nextIn, allocated]
    · simp [nextIn, List.getElem?_set_ne (Ne.symm apart)]
  · funext other
    rcases eq_or_ne other address with rfl | apart
    · simp [dataIn, allocated]
    · simp [dataIn, List.getElem?_set_ne (Ne.symm apart), Function.update_of_ne apart]

/-- A new entry is found at the next address and leads nowhere. -/
theorem dataIn_append (entries : List LRUEntry) (key : CString) (val : Nat) :
    dataIn (entries ++ [⟨key, val, none⟩]) =
      Function.update (dataIn entries) entries.length (some (key, val)) := by
  funext address
  rcases lt_trichotomy address entries.length with below | rfl | above
  · simp [dataIn, List.getElem?_append_left below, below.ne]
  · simp [dataIn]
  · simp [dataIn, List.getElem?_eq_none_iff.mpr (le_of_lt above), above.ne',
      List.getElem?_append_right (le_of_lt above), Nat.sub_ne_zero_of_lt above]

theorem nextIn_append (entries : List LRUEntry) (key : CString) (val : Nat) :
    nextIn (entries ++ [⟨key, val, none⟩]) = nextIn entries := by
  funext address
  rcases lt_trichotomy address entries.length with below | rfl | above
  · simp [nextIn, List.getElem?_append_left below]
  · simp [nextIn]
  · simp [nextIn, List.getElem?_eq_none_iff.mpr (le_of_lt above),
      List.getElem?_append_right (le_of_lt above), Nat.sub_ne_zero_of_lt above]

/-- The list of entries and the table of its nodes. -/
structure ListSound (s : State) (head : Nat) (path : List Nat) : Prop where
  start : s.headLRU = some head
  tail : s.tailLRU = (head :: path).getLast?
  linked : Linked (nextIn s.entries) (head :: path)
  distinct : (head :: path).Nodup
  allocated : ∀ address ∈ head :: path, address < s.entries.length
  named : ∀ address entry, address ≠ head → s.entries[address]? = some entry →
    entry.key.chars ≠ []
  keys : ∀ left ∈ path, ∀ right ∈ path, keyIn s.entries left = keyIn s.entries right → left = right
  table : TableSound LRUNode.key s.lruHashTab
  nodes : ∀ node, s.HasLru node ↔
    ∃ address, (node.prev, address) ∈ links (head :: path) ∧
      keyIn s.entries address = some node.key

theorem ListSound.has_tail {s : State} {head : Nat} {path : List Nat}
    (sound : ListSound s head path) : ∃ tail, s.tailLRU = some tail := by
  rw [sound.tail]
  exact ⟨_, List.getLast?_cons⟩

/-- The invariant looks at four fields of the state. -/
theorem ListSound.congr {s t : State} {head : Nat} {path : List Nat} (sound : ListSound s head path)
    (sameHead : t.headLRU = s.headLRU) (sameTail : t.tailLRU = s.tailLRU)
    (sameEntries : t.entries = s.entries) (sameTable : t.lruHashTab = s.lruHashTab) :
    ListSound t head path where
  start := sameHead.trans sound.start
  tail := sameTail.trans sound.tail
  linked := by rw [sameEntries]; exact sound.linked
  distinct := sound.distinct
  allocated := by rw [sameEntries]; exact sound.allocated
  named := by rw [sameEntries]; exact sound.named
  keys := by rw [sameEntries]; exact sound.keys
  table := by rw [sameTable]; exact sound.table
  nodes := by
    rw [sameEntries]
    unfold State.HasLru
    rw [sameTable]
    exact sound.nodes

section Path

variable {s : State} {head : Nat} {path : List Nat} (sound : ListSound s head path)

include sound in
/-- An entry of the list with its key. -/
theorem ListSound.entry {address : Nat} (member : address ∈ path) :
    ∃ entry, s.entries[address]? = some entry ∧ entry.key.chars ≠ [] := by
  have inside := sound.allocated address (List.mem_cons_of_mem _ member)
  have apart : address ≠ head := by
    rintro rfl
    exact (List.nodup_cons.mp sound.distinct).1 member
  exact ⟨_, List.getElem?_eq_getElem inside, sound.named address _ apart
    (List.getElem?_eq_getElem inside)⟩

include sound in
/-- The key of a cached entry has the node that names its predecessor. -/
theorem ListSound.node {prev address : Nat} {entry : LRUEntry}
    (link : (prev, address) ∈ links (head :: path)) (here : s.entries[address]? = some entry) :
    s.HasLru ⟨entry.key, prev⟩ :=
  (sound.nodes ⟨entry.key, prev⟩).mpr ⟨address, link, by simp [keyIn, here]⟩

/-- The nodes when the entry behind `prev` is bypassed, less the node of that
entry. `tab` is the table in which its successor already names `prev`. -/
theorem bypass_nodes {front back : List Nat} {prev curr : Nat} {entry : LRUEntry}
    {tab : Fin 512 → Option (List LRUNode)} (sound : ListSound s head path)
    (split : head :: path = front ++ prev :: curr :: back)
    (here : s.entries[curr]? = some entry)
    (renamed : ∀ node, InTable LRUNode.key tab node ↔
      (s.HasLru node ∧ ∀ after, back.head? = some after → keyIn s.entries after ≠ some node.key) ∨
        ∃ after, back.head? = some after ∧ node.prev = prev ∧
          keyIn s.entries after = some node.key) (node : LRUNode) :
    InTable LRUNode.key tab node ∧ node.key ≠ entry.key ↔
      ∃ address, (node.prev, address) ∈ links (front ++ prev :: back) ∧
        keyIn s.entries address = some node.key := by
  have distinct := sound.distinct
  rw [split] at distinct
  have hereKey : keyIn s.entries curr = some entry.key := by simp [keyIn, here]
  have member : ∀ address, (∃ before, (before, address) ∈ links (head :: path)) → address ∈ path :=
    fun address ⟨_, link⟩ => links_second _ _ _ link
  have currLink : (prev, curr) ∈ links (head :: path) := by
    rw [split, links_append]
    exact List.mem_append_right _ List.mem_cons_self
  have afterLink : ∀ after, back.head? = some after → (curr, after) ∈ links (head :: path) := by
    intro after first
    cases back with
    | nil => cases first
    | cons other rest =>
      cases Option.some.inj first
      rw [split, links_append]
      exact List.mem_append_right _ (List.mem_cons_of_mem _ List.mem_cons_self)
  constructor
  · rintro ⟨inTable, otherKey⟩
    rcases (renamed node).mp inTable with ⟨held, notAfter⟩ | ⟨after, first, samePrev, key⟩
    · obtain ⟨address, link, key⟩ := (sound.nodes node).mp held
      refine ⟨address, (mem_links_removed front back prev curr distinct _).mpr
        (Or.inl ⟨split ▸ link, ?_, ?_⟩), key⟩
      · rintro same
        have step := sound.linked _ link
        rw [same] at step
        cases back with
        | nil =>
          have begins := links_first (front ++ [prev]) curr (node.prev, address)
            (by simpa [split] using link)
          rw [same] at begins
          exact (List.disjoint_of_nodup_append (by simpa using distinct :
            ((front ++ [prev]) ++ [curr]).Nodup)) begins (List.mem_singleton.mpr rfl)
        | cons after rest =>
          have other := sound.linked _ (afterLink after rfl)
          rw [step] at other
          have sameCell : address = after := Option.some.inj other
          exact notAfter after rfl (sameCell ▸ key)
      · rintro same
        have sameKey : some entry.key = some node.key := by
          rw [← hereKey, ← key]
          exact congrArg _ same.symm
        exact otherKey (Option.some.inj sameKey).symm
    · exact ⟨after, (mem_links_removed front back prev curr distinct _).mpr
        (Or.inr ⟨after, first, by rw [samePrev]⟩), key⟩
  · rintro ⟨address, link, key⟩
    rcases (mem_links_removed front back prev curr distinct _).mp link with
      ⟨old, notFirst, notSecond⟩ | ⟨after, first, isAcross⟩
    · rw [← split] at old
      have inPath := member address ⟨_, old⟩
      refine ⟨(renamed node).mpr (Or.inl ⟨(sound.nodes node).mpr ⟨address, old, key⟩, ?_⟩), ?_⟩
      · intro after first sameKey
        have afterIn := member after ⟨_, afterLink after first⟩
        have same := sound.keys after afterIn address inPath (sameKey.trans key.symm)
        exact notFirst (links_before_unique _ sound.distinct _ _ _ (same ▸ old)
          (afterLink after first))
      · intro sameKey
        have currIn := member curr ⟨_, currLink⟩
        exact notSecond (sound.keys address inPath curr currIn (by rw [key, hereKey, sameKey]))
    · obtain ⟨samePrev, sameAddress⟩ := Prod.mk.inj isAcross
      refine ⟨(renamed node).mpr (Or.inr ⟨after, first, samePrev, sameAddress ▸ key⟩), ?_⟩
      intro sameKey
      have afterIn := member after ⟨_, afterLink after first⟩
      have currIn := member curr ⟨_, currLink⟩
      have same := sound.keys after afterIn curr currIn
        (by rw [← sameAddress, key, hereKey, sameKey])
      have step := afterLink after first
      rw [same] at step
      obtain ⟨left, right, loop⟩ := links_split _ _ step
      have repeated := sound.distinct
      rw [loop] at repeated
      exact absurd List.mem_cons_self (List.nodup_cons.mp (List.nodup_append.mp repeated).2.1).1

/-- The node of an entry added behind the last one. -/
theorem nodes_appended {front : List Nat} {last cell : Nat} {key : CString}
    {names : Nat → Option CString} {old : Prop} {node : LRUNode} (named : names cell = some key)
    (before : old ↔ ∃ address, (node.prev, address) ∈ links (front ++ [last]) ∧
      names address = some node.key) :
    old ∨ node = ⟨key, last⟩ ↔ ∃ address, (node.prev, address) ∈ links (front ++ [last, cell]) ∧
      names address = some node.key := by
  simp only [mem_links_appended, before]
  constructor
  · rintro (⟨address, link, name⟩ | rfl)
    · exact ⟨address, Or.inl link, name⟩
    · exact ⟨cell, Or.inr rfl, named⟩
  · rintro ⟨address, link | added, name⟩
    · exact Or.inl ⟨address, link, name⟩
    · obtain ⟨samePrev, rfl⟩ := Prod.mk.inj added
      right
      cases node
      cases samePrev
      cases Option.some.inj (named.symm.trans name)
      rfl

include sound in
/-- The tail is the last entry of the list, or the head of an empty one. -/
theorem ListSound.tail_split (front : List Nat) (last : Nat)
    (split : head :: path = front ++ [last]) : s.tailLRU = some last := by
  rw [sound.tail, split]
  simp

/-- The successor of a bypassed entry is made to name the entry before it. -/
theorem renamed_done {front back : List Nat} {prev curr after : Nat} {entry : LRUEntry}
    (sound : ListSound s head path)
    (split : head :: path = front ++ prev :: curr :: after :: back)
    (here : s.entries[after]? = some entry) (entries : List LRUEntry) (tail : Option Nat) :
    ∃ tab, setPrev (s.relinked entries s.lruHashTab tail) entry.key prev =
        some (s.relinked entries tab tail) ∧ TableSound LRUNode.key tab ∧
      ∀ node, InTable LRUNode.key tab node ↔
        (s.HasLru node ∧ ∀ first, (after :: back).head? = some first →
          keyIn s.entries first ≠ some node.key) ∨
        ∃ first, (after :: back).head? = some first ∧ node.prev = prev ∧
          keyIn s.entries first = some node.key := by
  have link : (curr, after) ∈ links (head :: path) := by
    rw [split, links_append]
    exact List.mem_append_right _ (List.mem_cons_of_mem _ List.mem_cons_self)
  have key : keyIn s.entries after = some entry.key := by simp [keyIn, here]
  obtain ⟨other, otherHere, nonempty⟩ := sound.entry (links_second _ _ _ link)
  cases Option.some.inj (here.symm.trans otherHere)
  obtain ⟨tab, done, table, members⟩ := setPrev_done
    (s := s.relinked entries s.lruHashTab tail) nonempty sound.table ⟨entry.key, curr⟩
    (sound.node link here) rfl prev
  refine ⟨tab, done, table, ?_⟩
  intro node
  rw [members]
  simp only [List.head?_cons, Option.some.injEq, forall_eq', exists_eq_left', key]
  constructor
  · rintro (⟨held, different⟩ | rfl)
    · exact Or.inl ⟨held, fun same => different (Option.some.inj same).symm⟩
    · exact Or.inr ⟨rfl, rfl⟩
  · rintro (⟨held, different⟩ | ⟨samePrev, sameKey⟩)
    · exact Or.inl ⟨held, fun same => different (congrArg some same.symm)⟩
    · right
      cases node
      cases samePrev
      cases sameKey
      rfl

include sound in
/-- The fields that depend on the addresses and the data only. -/
theorem ListSound.kept {entries : List LRUEntry} (data : dataIn entries = dataIn s.entries)
    {shorter : List Nat} (inside : ∀ address ∈ shorter, address ∈ path) :
    (∀ address ∈ head :: shorter, address < entries.length) ∧
      (∀ address entry, address ≠ head → entries[address]? = some entry → entry.key.chars ≠ []) ∧
      ∀ left ∈ shorter, ∀ right ∈ shorter, keyIn entries left = keyIn entries right →
        left = right := by
  refine ⟨?_, ?_, ?_⟩
  · intro address member
    rw [allocated_congr data]
    apply sound.allocated
    rcases List.mem_cons.mp member with rfl | later
    · exact List.mem_cons_self
    · exact List.mem_cons_of_mem _ (inside address later)
  · intro address entry apart here
    obtain ⟨other, otherHere, sameKey, _⟩ := entry_congr data.symm here
    rw [← sameKey]
    exact sound.named address other apart otherHere
  · intro left leftIn right rightIn same
    rw [keyIn_congr data] at same
    exact sound.keys left (inside left leftIn) right (inside right rightIn) same

include sound in
/-- `movLRUCache` moves the entry behind `prev` to the tail. The `next` fields are
as before if it is the tail already. -/
theorem ListSound.moved {prev curr tail : Nat} (link : (prev, curr) ∈ links (head :: path))
    (isTail : s.tailLRU = some tail) :
    ∃ entries tab, movLRUCache s prev = some (s.relinked entries tab (some curr)) ∧
      dataIn entries = dataIn s.entries ∧
      nextIn entries = (if curr = tail then nextIn s.entries else Function.update
        (Function.update (nextIn s.entries) prev (nextIn s.entries curr)) tail (some curr)) ∧
      ListSound (s.relinked entries tab (some curr)) head (path.erase curr ++ [curr]) := by
  obtain ⟨front, back, split⟩ :
    ∃ front back, head :: path = front ++ prev :: curr :: back := links_split _ _ link
  have erased := erase_split split sound.distinct
  have currIn : curr ∈ path := links_second _ _ _ link
  have prevInside := sound.allocated prev (by rw [split]; simp)
  have prevHere := List.getElem?_eq_getElem prevInside
  have prevNext : s.entries[prev].next = some curr := by
    have step := sound.linked _ link
    simpa [nextIn, prevHere] using step
  rcases List.eq_nil_or_concat' back with rfl | ⟨middle, last, rfl⟩
  · have same : s.tailLRU = some curr := sound.tail_split (front ++ [prev]) curr
      (by rw [split]; simp)
    have unchanged : s.relinked s.entries s.lruHashTab (some curr) = s := by
      rw [← same, relinked_self]
    have samePath : path.erase curr ++ [curr] = path := by
      have cells : head :: (path.erase curr ++ [curr]) = head :: path := by
        rw [← List.cons_append, erased, split]
        simp
      exact (List.cons.inj cells).2
    refine ⟨s.entries, s.lruHashTab, ?_, rfl, ?_, ?_⟩
    · simp only [movLRUCache, prevHere, Option.bind_eq_bind, Option.bind_some, prevNext, same,
        if_true, unchanged]
    · rw [if_pos (Option.some.inj (same.symm.trans isTail))]
    · rw [unchanged, samePath]
      exact sound
  · have lastTail := sound.tail_split (front ++ prev :: curr :: middle) last
      (by rw [split]; simp)
    obtain rfl : last = tail := Option.some.inj (lastTail.symm.trans isTail)
    have distinct := sound.distinct
    rw [split] at distinct
    have currApart : curr ≠ last := by
      rintro rfl
      simp [List.nodup_append] at distinct
    have prevApart : prev ≠ last := by
      rintro rfl
      simp [List.nodup_append] at distinct
    obtain ⟨after, rest, backSplit⟩ : ∃ after rest, middle ++ [last] = after :: rest := by
      cases middle with
      | nil => exact ⟨last, [], rfl⟩
      | cons after middle => exact ⟨after, middle ++ [last], rfl⟩
    have afterLink : (curr, after) ∈ links (head :: path) := by
      rw [split, backSplit, links_append]
      exact List.mem_append_right _ (List.mem_cons_of_mem _ List.mem_cons_self)
    have afterIn : after ∈ path := links_second _ _ _ afterLink
    have currNext : nextIn s.entries curr = some after := sound.linked _ afterLink
    obtain ⟨currEntry, currHere, currNonempty⟩ := sound.entry currIn
    obtain ⟨afterEntry, afterHere, _⟩ := sound.entry afterIn
    have currField : currEntry.next = some after := by simpa [nextIn, currHere] using currNext
    have currApartAfter : after ≠ curr := by
      rintro rfl
      rw [backSplit] at distinct
      simp [List.nodup_append] at distinct
    obtain ⟨bypassed, bypassDone, bypassNext, bypassData⟩ := setNext_done s prev (some after)
      prevInside
    obtain ⟨entries, appendDone, appendNext, appendData⟩ := setNext_done
      (s.relinked bypassed s.lruHashTab s.tailLRU) last (some curr) (by
        rw [relinked_entries, allocated_congr bypassData]
        exact sound.allocated last (by rw [split]; simp))
    rw [relinked_entries] at appendNext appendData
    rw [relinked_relinked, relinked_lruHashTab, relinked_tailLRU] at appendDone
    have data : dataIn entries = dataIn s.entries := appendData.trans bypassData
    have nexts : nextIn entries = Function.update
        (Function.update (nextIn s.entries) prev (some after)) last (some curr) := by
      rw [appendNext, bypassNext]
    obtain ⟨prevNow, prevNowHere, _, _, prevField⟩ := entry_congr data prevHere
    obtain ⟨afterNow, afterNowHere, afterKey, _⟩ := entry_congr data afterHere
    obtain ⟨currNow, currNowHere, currKey, _⟩ := entry_congr data currHere
    have prevNowNext : prevNow.next = some after := by
      rw [prevField, nexts, Function.update_of_ne prevApart, Function.update_self]
    obtain ⟨renamed, renameDone, renamedTable, renamedNodes⟩ := renamed_done sound
      (split.trans (by rw [backSplit])) afterHere entries s.tailLRU
    rw [← backSplit] at renamedNodes
    have bypassNodes := bypass_nodes sound split currHere renamedNodes
    have currRenamed : InTable LRUNode.key renamed ⟨currEntry.key, prev⟩ := by
      refine (renamedNodes _).mpr (Or.inl ⟨sound.node link currHere, ?_⟩)
      intro first isFirst same
      rw [backSplit] at isFirst
      cases Option.some.inj isFirst
      exact currApartAfter (sound.keys after afterIn curr currIn
        (by rw [same]; simp [keyIn, currHere]))
    obtain ⟨tab, tailDone, table, nodes⟩ := setPrev_done
      (s := s.relinked entries renamed s.tailLRU) currNonempty renamedTable
      ⟨currEntry.key, prev⟩ currRenamed rfl last
    refine ⟨entries, tab, ?_, data, ?_, ?_⟩
    · rw [isTail] at bypassDone appendDone renameDone tailDone
      simp only [movLRUCache, prevHere, Option.bind_eq_bind, Option.bind_some, prevNext, isTail,
        Option.some.injEq, currApart, if_false, currHere, currField, bypassDone, relinked_tailLRU,
        appendDone, relinked_entries, prevNowHere, prevNowNext, afterNowHere, afterKey, renameDone,
        currNowHere, currKey, tailDone]
      rfl
    · rw [if_neg currApart, nexts, currNext]
    · have order : head :: (path.erase curr ++ [curr]) =
          front ++ prev :: (middle ++ [last, curr]) := by
        rw [← List.cons_append, erased]
        simp
      have shape : front ++ prev :: (middle ++ [last, curr]) =
          (front ++ prev :: middle) ++ [last, curr] := by simp
      have members : (path.erase curr ++ [curr]).Perm path :=
        (List.perm_append_singleton curr _).trans (List.perm_cons_erase currIn).symm
      obtain ⟨allocated, named, keys⟩ := sound.kept data (fun address => (members.mem_iff).mp)
      refine ⟨sound.start, ?_, ?_, ?_, allocated, named, keys, table, ?_⟩
      · rw [relinked_tailLRU, ← List.cons_append, List.getLast?_concat]
      · rw [order, relinked_entries, nexts, ← currNext]
        exact (split ▸ sound.linked).moved distinct
      · exact (members.cons head).nodup_iff.mpr sound.distinct
      · intro node
        rw [order, shape, relinked_entries, keyIn_congr data, State.HasLru, relinked_lruHashTab, nodes]
        apply nodes_appended
        · simp [keyIn, currHere]
        · rw [← show front ++ prev :: (middle ++ [last]) = (front ++ prev :: middle) ++ [last] by simp]
          exact bypassNodes node

include sound in
/-- The head of the list is not one of its entries. -/
theorem ListSound.apart {address : Nat} (member : address ∈ path) : address ≠ head := by
  rintro rfl
  exact (List.nodup_cons.mp sound.distinct).1 member

include sound in
/-- A key that no entry of the list has, has no node either. -/
theorem ListSound.fresh {key : CString}
    (uncached : ∀ address ∈ path, keyIn s.entries address ≠ some key) (node : LRUNode)
    (held : s.HasLru node) : node.key ≠ key := by
  obtain ⟨address, link, name⟩ := (sound.nodes node).mp held
  rintro rfl
  exact uncached address (links_second _ _ _ link) name

include sound in
/-- Every entry but the head has a key after the data of one entry is written. -/
theorem ListSound.named_update {entries : List LRUEntry} {address : Nat} {key : CString} {val : Nat}
    (data : dataIn entries = Function.update (dataIn s.entries) address (some (key, val)))
    (nonempty : key.chars ≠ []) (other : Nat) (entry : LRUEntry) (apart : other ≠ head)
    (here : entries[other]? = some entry) : entry.key.chars ≠ [] := by
  have found : dataIn entries other = some (entry.key, entry.val) := by simp [dataIn, here]
  rw [data] at found
  rcases eq_or_ne other address with rfl | different
  · rw [Function.update_self] at found
    cases Option.some.inj found
    exact nonempty
  · rw [Function.update_of_ne different] at found
    obtain ⟨older, olderHere, same⟩ := Option.map_eq_some_iff.mp found
    rw [← (Prod.mk.inj same).1]
    exact sound.named other older apart olderHere

include sound in
/-- A new entry behind the tail. -/
theorem ListSound.appended {grants : Grants} {key : CString} (val : Nat) {tail : Nat}
    (entryGranted : grants.lruEntry = true) (nodeGranted : grants.lruNode = true)
    (nonempty : key.chars ≠ []) (isTail : s.tailLRU = some tail)
    (uncached : ∀ address ∈ path, keyIn s.entries address ≠ some key) :
    ∃ entries tab, appendLRUEntry s grants key val =
        some (s.countKey.relinked entries tab (some s.entries.length)) ∧
      dataIn entries = Function.update (dataIn s.entries) s.entries.length (some (key, val)) ∧
      nextIn entries = Function.update (nextIn s.entries) tail (some s.entries.length) ∧
      ListSound (s.countKey.relinked entries tab (some s.entries.length)) head
        (path ++ [s.entries.length]) := by
  obtain ⟨front, last, split⟩ : ∃ front last, head :: path = front ++ [last] := by
    rcases List.eq_nil_or_concat' (head :: path) with impossible | found
    · cases impossible
    · exact found
  obtain rfl : last = tail := Option.some.inj ((sound.tail_split _ _ split).symm.trans isTail)
  have lastInside : last < s.entries.length := sound.allocated last (by rw [split]; simp)
  obtain ⟨entries, linkDone, linkNext, linkData⟩ := setNext_done
    (s.countKey.relinked (s.entries ++ [⟨key, val, none⟩]) s.lruHashTab s.tailLRU) last
    (some s.entries.length)
    (by rw [relinked_entries, List.length_append]; exact Nat.lt_add_right 1 lastInside)
  rw [relinked_entries] at linkNext linkData
  rw [relinked_relinked, relinked_lruHashTab, relinked_tailLRU] at linkDone
  rw [nextIn_append] at linkNext
  rw [dataIn_append] at linkData
  obtain ⟨tab, nodeDone, table, nodes⟩ := setLRUHashTab_done
    (s := s.countKey.relinked entries s.lruHashTab s.tailLRU) nonempty sound.table grants
    nodeGranted (sound.fresh uncached) last
  have newOutside : s.entries.length ∉ head :: path :=
    fun member => lt_irrefl _ (sound.allocated _ member)
  have newKey : keyIn entries s.entries.length = some key := by
    rw [keyIn_data, linkData, Function.update_self]
    rfl
  have oldKey : ∀ address ∈ path, keyIn entries address = keyIn s.entries address := by
    intro address member
    have different : address ≠ s.entries.length :=
      (sound.allocated address (List.mem_cons_of_mem _ member)).ne
    rw [keyIn_data, linkData, Function.update_of_ne different, ← keyIn_data]
  have length : entries.length = s.entries.length + 1 := by
    have same := allocated_congr (linkData.trans (dataIn_append s.entries key val).symm)
    rw [same, List.length_append]
    rfl
  refine ⟨entries, tab, ?_, linkData, linkNext, ?_⟩
  · have created : createLRUEntry s.countKey grants key val = some (s.entries.length,
        s.countKey.relinked (s.entries ++ [⟨key, val, none⟩]) s.lruHashTab s.tailLRU) := by
      rw [createLRUEntry, if_pos entryGranted]
      rfl
    rw [isTail] at created linkDone nodeDone
    simp only [appendLRUEntry, created, Option.bind_eq_bind, Option.bind_some, relinked_tailLRU,
      linkDone, nodeDone]
    rfl
  · refine ⟨sound.start, ?_, ?_, ?_, ?_, ?_, ?_, table, ?_⟩
    · rw [relinked_tailLRU, ← List.cons_append, List.getLast?_concat]
    · rw [← List.cons_append, split, relinked_entries, linkNext, List.append_assoc]
      exact (split ▸ sound.linked).appended (split ▸ sound.distinct) _
    · rw [← List.cons_append, List.nodup_append]
      refine ⟨sound.distinct, by simp, ?_⟩
      intro address member other new same
      exact newOutside (List.mem_singleton.mp new ▸ same ▸ member)
    · intro address member
      rw [relinked_entries, length]
      rw [← List.cons_append] at member
      rcases List.mem_append.mp member with old | new
      · exact Nat.lt_succ_of_lt (sound.allocated address old)
      · rw [List.mem_singleton.mp new]
        exact Nat.lt_succ_self _
    · exact sound.named_update linkData nonempty
    · intro left leftIn right rightIn same
      rw [relinked_entries] at same
      rcases List.mem_append.mp leftIn with leftOld | leftNew <;>
        rcases List.mem_append.mp rightIn with rightOld | rightNew
      · rw [oldKey left leftOld, oldKey right rightOld] at same
        exact sound.keys left leftOld right rightOld same
      · rw [List.mem_singleton.mp rightNew, newKey, oldKey left leftOld] at same
        exact absurd same (uncached left leftOld)
      · rw [List.mem_singleton.mp leftNew, newKey, oldKey right rightOld] at same
        exact absurd same.symm (uncached right rightOld)
      · rw [List.mem_singleton.mp leftNew, List.mem_singleton.mp rightNew]
    · intro node
      rw [← List.cons_append, split, relinked_entries, List.append_assoc, State.HasLru,
        relinked_lruHashTab, nodes]
      apply nodes_appended newKey
      rw [← split]
      refine (sound.nodes node).trans ?_
      constructor
      · rintro ⟨address, link, name⟩
        exact ⟨address, link, by rw [oldKey address (links_second _ _ _ link)]; exact name⟩
      · rintro ⟨address, link, name⟩
        exact ⟨address, link, by rw [← oldKey address (links_second _ _ _ link)]; exact name⟩

/-- The data of one entry replaced: keys elsewhere stay. -/
theorem keyIn_update {entries old : List LRUEntry} {address : Nat} {key : CString} {val : Nat}
    (data : dataIn entries = Function.update (dataIn old) address (some (key, val))) (other : Nat) :
    keyIn entries other = if other = address then some key else keyIn old other := by
  rw [keyIn_data, data]
  split
  case isTrue same =>
    rw [same, Function.update_self]
    rfl
  case isFalse different => rw [Function.update_of_ne different, keyIn_data]

/-- Replacing the data of one entry allocates nothing. -/
theorem allocated_update {entries old : List LRUEntry} {address : Nat} {value : CString × Nat}
    (data : dataIn entries = Function.update (dataIn old) address (some value))
    (inside : address < old.length) : entries.length = old.length := by
  have iff : ∀ other, (dataIn entries other).isSome ↔ (dataIn old other).isSome := by
    intro other
    rw [data]
    rcases eq_or_ne other address with rfl | different
    · simp [dataIn, inside]
    · rw [Function.update_of_ne different]
  apply le_antisymm
  · by_contra large
    have present := (iff old.length).mp (by simp [dataIn]; omega)
    simp [dataIn] at present
  · by_contra large
    have present := (iff entries.length).mpr (by simp [dataIn]; omega)
    simp [dataIn] at present

include sound in
/-- The first entry taken over by an uncached key, still at its place. -/
theorem ListSound.takenOver {first : Nat} {rest : List Nat} (isFirst : path = first :: rest)
    {grants : Grants} {key : CString} (val : Nat) {entry : LRUEntry}
    (granted : grants.lruNode = true) (nonempty : key.chars ≠ [])
    (uncached : ∀ address ∈ path, keyIn s.entries address ≠ some key)
    (here : s.entries[first]? = some entry) :
    ∃ removed entries tab,
      delLRUHashTab s entry.key = some (s.relinked s.entries removed s.tailLRU) ∧
      (s.relinked s.entries removed s.tailLRU).changeEntry first
        (fun entry => { entry with key := key, val := val }) =
          some (s.relinked entries removed s.tailLRU) ∧
      setLRUHashTab (s.relinked entries removed s.tailLRU) grants key head =
        some (s.relinked entries tab s.tailLRU) ∧
      nextIn entries = nextIn s.entries ∧
      dataIn entries = Function.update (dataIn s.entries) first (some (key, val)) ∧
      ListSound (s.relinked entries tab s.tailLRU) head path := by
  subst isFirst
  have firstIn : first ∈ first :: rest := List.mem_cons_self
  have link : (head, first) ∈ links (head :: first :: rest) := List.mem_cons_self
  obtain ⟨other, otherHere, entryNonempty⟩ := sound.entry firstIn
  cases Option.some.inj (here.symm.trans otherHere)
  have inside := sound.allocated first (List.mem_cons_of_mem _ firstIn)
  obtain ⟨removed, removeDone, removedTable, removedNodes⟩ := delLRUHashTab_done entryNonempty
    sound.table
  obtain ⟨entries, changeDone, nexts, data⟩ := changeData_done
    (s.relinked s.entries removed s.tailLRU) first key val inside
  rw [relinked_entries] at nexts data
  rw [relinked_relinked, relinked_lruHashTab, relinked_tailLRU] at changeDone
  have fresh : ∀ node, InTable LRUNode.key removed node → node.key ≠ key :=
    fun node held => sound.fresh uncached node ((removedNodes node).mp held).1
  obtain ⟨tab, addDone, table, nodes⟩ := setLRUHashTab_done
    (s := s.relinked entries removed s.tailLRU) nonempty removedTable grants granted fresh head
  have keys := keyIn_update data
  have firstKey : keyIn s.entries first = some entry.key := by simp [keyIn, here]
  refine ⟨removed, entries, tab, removeDone, changeDone, addDone, nexts, data, ?_⟩
  refine ⟨sound.start, sound.tail, ?_, sound.distinct, ?_, ?_, ?_, table, ?_⟩
  · rw [relinked_entries, nexts]
    exact sound.linked
  · rw [relinked_entries, allocated_update data inside]
    exact sound.allocated
  · exact sound.named_update data nonempty
  · intro left leftIn right rightIn same
    rw [relinked_entries, keys, keys] at same
    split at same
    case isTrue isLeft =>
      split at same
      case isTrue isRight => rw [isLeft, isRight]
      case isFalse => exact absurd same.symm (uncached right rightIn)
    case isFalse =>
      split at same
      case isTrue isRight => exact absurd same (uncached left leftIn)
      case isFalse => exact sound.keys left leftIn right rightIn same
  · intro node
    rw [State.HasLru, relinked_lruHashTab, nodes, relinked_entries]
    constructor
    · rintro (held | rfl)
      · obtain ⟨old, different⟩ := (removedNodes node).mp held
        obtain ⟨address, oldLink, name⟩ := (sound.nodes node).mp old
        refine ⟨address, oldLink, ?_⟩
        rw [keys, if_neg, name]
        rintro rfl
        exact different (Option.some.inj (name.symm.trans firstKey))
      · exact ⟨first, link, by rw [keys, if_pos rfl]⟩
    · rintro ⟨address, oldLink, name⟩
      rw [keys] at name
      split at name
      case isTrue isFirst =>
        right
        subst isFirst
        have samePrev := links_before_unique _ sound.distinct _ _ _ oldLink link
        cases node
        cases samePrev
        cases Option.some.inj name
        rfl
      case isFalse different =>
        left
        refine (removedNodes node).mpr ⟨(sound.nodes node).mpr ⟨address, oldLink, name⟩, ?_⟩
        intro sameKey
        exact different (sound.keys address (links_second _ _ _ oldLink) first firstIn
          (by rw [name, firstKey, sameKey]))

include sound in
/-- The eviction of the first entry of a list. -/
theorem ListSound.evicted {first : Nat} {rest : List Nat} (isFirst : path = first :: rest)
    {grants : Grants} {key : CString} (val : Nat) {tail : Nat} (granted : grants.lruNode = true)
    (nonempty : key.chars ≠ []) (isTail : s.tailLRU = some tail)
    (uncached : ∀ address ∈ path, keyIn s.entries address ≠ some key) :
    ∃ entries tab, evictLRUEntry s grants key val =
        some (s.relinked entries tab (some first)).countEviction ∧
      dataIn entries = Function.update (dataIn s.entries) first (some (key, val)) ∧
      nextIn entries = (if first = tail then nextIn s.entries else Function.update
        (Function.update (nextIn s.entries) head (nextIn s.entries first)) tail (some first)) ∧
      ListSound (s.relinked entries tab (some first)) head (rest ++ [first]) := by
  have link : (head, first) ∈ links (head :: path) := by
    rw [isFirst]
    exact List.mem_cons_self
  have headInside := sound.allocated head List.mem_cons_self
  have headHere := List.getElem?_eq_getElem headInside
  have headNext : s.entries[head].next = some first := by
    have step := sound.linked _ link
    simpa [nextIn, headHere] using step
  obtain ⟨entry, here, _⟩ := sound.entry (links_second _ _ _ link)
  obtain ⟨removed, changed, added, removeDone, changeDone, addDone, changedNext, changedData,
    changedSound⟩ := sound.takenOver isFirst val granted nonempty uncached here
  obtain ⟨entries, tab, moveDone, sameData, nexts, movedSound⟩ := changedSound.moved link isTail
  rw [relinked_entries] at sameData nexts
  rw [relinked_relinked] at moveDone movedSound
  have order : path.erase first ++ [first] = rest ++ [first] := by rw [isFirst, List.erase_cons_head]
  rw [order] at movedSound
  refine ⟨entries, tab, ?_, sameData.trans changedData, by rw [nexts, changedNext], movedSound⟩
  have here : s.entries[first]? = some entry := here
  simp only [evictLRUEntry, sound.start, Option.bind_eq_bind, Option.bind_some, headHere, headNext,
    here, removeDone, changeDone, addDone, moveDone]

/-- An empty list with one entry put into it. -/
theorem ListSound.singleton (sound : ListSound s head []) {stale val : Nat} {key : CString}
    {entries : List LRUEntry} {tab : Fin 512 → Option (List LRUNode)}
    (leads : nextIn entries head = some stale)
    (data : dataIn entries = Function.update (dataIn s.entries) stale (some (key, val)))
    (nonempty : key.chars ≠ []) (apart : stale ≠ head) (inside : stale < entries.length)
    (headInside : head < entries.length) (table : TableSound LRUNode.key tab)
    (only : ∀ node, InTable LRUNode.key tab node ↔ node = ⟨key, head⟩) :
    ListSound (s.relinked entries tab (some stale)) head [stale] := by
  have oneLink : ∀ link : Nat × Nat, link ∈ links [head, stale] ↔ link = (head, stale) := by
    intro link
    simp [links]
  refine ⟨sound.start, rfl, ?_, ?_, ?_, sound.named_update data nonempty, ?_, table, ?_⟩
  · intro link member
    rw [(oneLink link).mp member]
    exact leads
  · simpa using Ne.symm apart
  · intro address member
    rcases List.mem_cons.mp member with rfl | isStale
    · exact headInside
    · rw [List.mem_singleton.mp isStale]
      exact inside
  · intro left leftIn right rightIn _
    rw [List.mem_singleton.mp leftIn, List.mem_singleton.mp rightIn]
  · intro node
    have staleName : keyIn entries stale = some key := by rw [keyIn_update data, if_pos rfl]
    rw [State.HasLru, relinked_lruHashTab, relinked_entries, only]
    constructor
    · rintro rfl
      exact ⟨stale, (oneLink _).mpr rfl, staleName⟩
    · rintro ⟨address, link, name⟩
      obtain ⟨samePrev, rfl⟩ := Prod.mk.inj ((oneLink _).mp link)
      rw [staleName] at name
      cases node
      cases samePrev
      cases Option.some.inj name
      rfl

/-- The eviction from an empty list whose head still leads to an entry: that entry
becomes the list, and no `next` field changes. -/
theorem evicted_empty (sound : ListSound s head []) {stale : Nat} {grants : Grants} {key : CString}
    (val : Nat) (granted : grants.lruNode = true) (nonempty : key.chars ≠ [])
    (leads : nextIn s.entries head = some stale) (apart : stale ≠ head)
    (inside : stale < s.entries.length) :
    ∃ entries tab, evictLRUEntry s grants key val =
        some (s.relinked entries tab (some stale)).countEviction ∧
      dataIn entries = Function.update (dataIn s.entries) stale (some (key, val)) ∧
      nextIn entries = nextIn s.entries ∧
      ListSound (s.relinked entries tab (some stale)) head [stale] := by
  have isTail : s.tailLRU = some head := sound.tail
  have noNodes : ∀ node, ¬ s.HasLru node := by
    intro node held
    obtain ⟨_, link, _⟩ := (sound.nodes node).mp held
    cases link
  have headInside := sound.allocated head List.mem_cons_self
  have headHere := List.getElem?_eq_getElem headInside
  have staleHere := List.getElem?_eq_getElem inside
  have headNext : s.entries[head].next = some stale := by simpa [nextIn, headHere] using leads
  have staleNonempty := sound.named stale _ apart staleHere
  obtain ⟨removed, removeDone, removedTable, removedNodes⟩ := delLRUHashTab_done staleNonempty
    sound.table
  obtain ⟨changed, changeDone, changedNext, changedData⟩ := changeData_done
    (s.relinked s.entries removed s.tailLRU) stale key val inside
  rw [relinked_entries] at changedNext changedData
  rw [relinked_relinked, relinked_lruHashTab, relinked_tailLRU] at changeDone
  have fresh : ∀ node, InTable LRUNode.key removed node → node.key ≠ key :=
    fun node held => absurd ((removedNodes node).mp held).1 (noNodes node)
  obtain ⟨added, addDone, addedTable, addedNodes⟩ := setLRUHashTab_done
    (s := s.relinked changed removed s.tailLRU) nonempty removedTable grants granted fresh head
  rw [relinked_relinked, relinked_entries, relinked_tailLRU] at addDone
  have addedNode : InTable LRUNode.key added ⟨key, head⟩ := (addedNodes _).mpr (Or.inr rfl)
  have length : changed.length = s.entries.length := allocated_update changedData inside
  have headChanged := List.getElem?_eq_getElem (l := changed) (i := head) (by lia)
  have staleChanged := List.getElem?_eq_getElem (l := changed) (i := stale) (by lia)
  have headChangedNext : changed[head].next = some stale := by
    have step : nextIn changed head = some stale := by rw [changedNext, leads]
    simpa [nextIn, headChanged] using step
  obtain ⟨bypassed, bypassDone, bypassNext, bypassData⟩ := setNext_done
    (s.relinked changed added (some head)) head changed[stale].next (by rw [relinked_entries]; omega)
  rw [relinked_entries] at bypassNext bypassData
  rw [relinked_relinked, relinked_lruHashTab, relinked_tailLRU] at bypassDone
  obtain ⟨entries, appendDone, appendNext, appendData⟩ := setNext_done
    (s.relinked bypassed added (some head)) head (some stale)
    (by rw [relinked_entries, allocated_congr bypassData]; omega)
  rw [relinked_entries] at appendNext appendData
  rw [relinked_relinked, relinked_lruHashTab, relinked_tailLRU] at appendDone
  have data : dataIn entries = Function.update (dataIn s.entries) stale (some (key, val)) :=
    (appendData.trans bypassData).trans changedData
  have nexts : nextIn entries = nextIn s.entries := by
    rw [appendNext, bypassNext, changedNext, Function.update_idem, ← leads, Function.update_eq_self]
  obtain ⟨headNow, headNowHere, _, _, headField⟩ :=
    entry_congr (appendData.trans bypassData) headChanged
  obtain ⟨staleNow, staleNowHere, _⟩ := entry_congr (appendData.trans bypassData) staleChanged
  have headNowNext : headNow.next = some stale := by rw [headField, nexts, leads]
  have staleKey : staleNow.key = key := by
    have named := keyIn_update data stale
    rw [if_pos rfl] at named
    simpa [keyIn, staleNowHere] using named
  obtain ⟨first, firstDone, firstTable, firstNodes⟩ := setPrev_done
    (s := s.relinked entries added (some head)) nonempty addedTable ⟨key, head⟩ addedNode rfl head
  rw [relinked_relinked, relinked_entries, relinked_tailLRU] at firstDone
  obtain ⟨tab, secondDone, table, nodes⟩ := setPrev_done
    (s := s.relinked entries first (some head)) nonempty firstTable ⟨key, head⟩
    ((firstNodes _).mpr (Or.inr rfl)) rfl head
  rw [relinked_relinked, relinked_entries, relinked_tailLRU] at secondDone
  have only : ∀ node, InTable LRUNode.key tab node ↔ node = ⟨key, head⟩ := by
    intro node
    rw [nodes]
    constructor
    · rintro (⟨held, different⟩ | rfl)
      · rcases (firstNodes node).mp held with ⟨older, _⟩ | rfl
        · rcases (addedNodes node).mp older with old | rfl
          · exact absurd ((removedNodes node).mp old).1 (noNodes node)
          · exact absurd rfl different
        · exact absurd rfl different
      · rfl
    · exact Or.inr
  have differs : (some stale : Option Nat) ≠ some head := fun same => apart (Option.some.inj same)
  have moveDone : movLRUCache (s.relinked changed added (some head)) head =
      some (s.relinked entries tab (some stale)) := by
    simp only [movLRUCache, relinked_entries, headChanged, Option.bind_eq_bind, Option.bind_some,
      headChangedNext, relinked_tailLRU, differs, if_false, staleChanged, bypassDone, appendDone,
      headNowHere, headNowNext, staleNowHere, staleKey, firstDone, secondDone]
    rfl
  refine ⟨entries, tab, ?_, data, nexts, ?_⟩
  · rw [isTail] at removeDone changeDone addDone
    simp only [evictLRUEntry, sound.start, Option.bind_eq_bind, Option.bind_some, headHere, headNext,
      staleHere, removeDone, changeDone, addDone, moveDone]
  · have length : entries.length = s.entries.length := allocated_update data inside
    exact sound.singleton (nexts ▸ leads) data nonempty apart (length ▸ inside) (length ▸ headInside)
      table only

/-- What the test for the tail leaves behind, on an entry of the list. -/
theorem leaveTail_done {front back : List Nat} {prev curr : Nat} (sound : ListSound s head path)
    (split : head :: path = front ++ prev :: curr :: back) :
    ∃ tab tail, leaveTail s prev (some curr) = some (s.relinked s.entries tab tail) ∧
      tail = (front ++ prev :: back).getLast? ∧ TableSound LRUNode.key tab ∧
      ∀ node, InTable LRUNode.key tab node ↔
        (s.HasLru node ∧ ∀ after, back.head? = some after → keyIn s.entries after ≠ some node.key) ∨
          ∃ after, back.head? = some after ∧ node.prev = prev ∧
            keyIn s.entries after = some node.key := by
  cases back with
  | nil =>
    have isTail : s.tailLRU = some curr := sound.tail_split (front ++ [prev]) curr
      (by rw [split]; simp)
    refine ⟨s.lruHashTab, some prev, ?_, by simp, sound.table, ?_⟩
    · rw [leaveTail, if_pos isTail.symm]
      rfl
    · intro node
      rw [show InTable LRUNode.key s.lruHashTab node = s.HasLru node from rfl]
      simp
  | cons after rest =>
    have afterLink : (curr, after) ∈ links (head :: path) := by
      rw [split, links_append]
      exact List.mem_append_right _ (List.mem_cons_of_mem _ List.mem_cons_self)
    have currInside := sound.allocated curr (links_member _ _ afterLink).1
    have currHere := List.getElem?_eq_getElem currInside
    have currNext : s.entries[curr].next = some after := by
      have step := sound.linked _ afterLink
      simpa [nextIn, currHere] using step
    obtain ⟨entry, here, _⟩ := sound.entry (links_second _ _ _ afterLink)
    obtain ⟨tab, done, table, members⟩ := renamed_done sound split here s.entries s.tailLRU
    rw [relinked_self] at done
    have notTail : some curr ≠ s.tailLRU := by
      intro same
      rw [sound.tail, split] at same
      have isLast : curr ∈ after :: rest := by
        have last : (front ++ prev :: curr :: after :: rest).getLast? = (after :: rest).getLast? := by
          simp [List.getLast?_append, List.getLast?_cons]
        rw [last] at same
        exact List.mem_of_getLast? same.symm
      have distinct := sound.distinct
      rw [split] at distinct
      have later := (List.nodup_cons.mp (List.nodup_append.mp distinct).2.1).2
      exact (List.nodup_cons.mp later).1 isLast
    refine ⟨tab, s.tailLRU, ?_, ?_, table, members⟩
    · rw [leaveTail, if_neg notTail]
      simp only [currHere, Option.bind_eq_bind, Option.bind_some, currNext, here, done]
    · rw [sound.tail, split]
      simp [List.getLast?_append]

include sound in
/-- `delLRUCache` bypasses the entry of a cached key. The list is one shorter and the
counter is not touched. -/
theorem ListSound.deleted {curr : Nat} {entry : LRUEntry} (member : curr ∈ path)
    (here : s.entries[curr]? = some entry) :
    ∃ entries tab tail prev, delLRUCache s entry.key = some (s.relinked entries tab tail) ∧
      (prev, curr) ∈ links (head :: path) ∧
      dataIn entries = dataIn s.entries ∧
      nextIn entries = Function.update (nextIn s.entries) prev (nextIn s.entries curr) ∧
      ListSound (s.relinked entries tab tail) head (path.erase curr) := by
  obtain ⟨front, prev, back, split⟩ := links_exists head path curr member
  have link : (prev, curr) ∈ links (head :: path) := by
    rw [split, links_append]
    exact List.mem_append_right _ List.mem_cons_self
  have erased := erase_split split sound.distinct
  have prevInside := sound.allocated prev (by rw [split]; simp)
  have prevHere := List.getElem?_eq_getElem prevInside
  have prevNext : s.entries[prev].next = some curr := by
    have step := sound.linked _ link
    simpa [nextIn, prevHere] using step
  obtain ⟨other, otherHere, nonempty⟩ := sound.entry member
  cases Option.some.inj (here.symm.trans otherHere)
  obtain ⟨found, got, found_iff, _⟩ := getLRUHashTab_done nonempty sound.table
  rw [(found_iff ⟨entry.key, prev⟩).mpr ⟨sound.node link here, rfl⟩] at got
  obtain ⟨renamed, tail, leaveDone, isTail, renamedTable, renamedNodes⟩ := leaveTail_done sound split
  obtain ⟨tab, removeDone, table, nodes⟩ := delLRUHashTab_done
    (s := s.relinked s.entries renamed tail) nonempty renamedTable
  rw [relinked_relinked, relinked_entries, relinked_tailLRU] at removeDone
  obtain ⟨entries, linkDone, nexts, data⟩ := setNext_done (s.relinked s.entries tab tail) prev
    entry.next (by rw [relinked_entries]; exact prevInside)
  rw [relinked_relinked, relinked_lruHashTab, relinked_tailLRU] at linkDone
  rw [relinked_entries] at nexts data
  have currNext : nextIn s.entries curr = entry.next := by simp [nextIn, here]
  refine ⟨entries, tab, tail, prev, ?_, link, data, by rw [nexts, currNext], ?_⟩
  · simp only [delLRUCache, got, Option.bind_eq_bind, Option.bind_some, prevHere, prevNext,
      leaveDone, removeDone, relinked_entries, here, linkDone]
  · have fewer : ∀ address ∈ path.erase curr, address ∈ path := fun _ => List.mem_of_mem_erase
    obtain ⟨allocated, named, keys⟩ := sound.kept data fewer
    refine ⟨sound.start, ?_, ?_, ?_, allocated, named, keys, table, ?_⟩
    · rw [relinked_tailLRU, erased, isTail]
    · rw [erased, relinked_entries, nexts, ← currNext]
      exact (split ▸ sound.linked).removed (split ▸ sound.distinct)
    · exact sound.distinct.sublist ((List.erase_sublist).cons_cons head)
    · intro node
      rw [erased, relinked_entries, keyIn_congr data, State.HasLru, relinked_lruHashTab, nodes]
      exact bypass_nodes sound split here renamedNodes node

include sound in
/-- A key that is not cached is not looked for in the list. -/
theorem ListSound.deleted_uncached {key : CString} (nonempty : key.chars ≠ [])
    (uncached : ∀ address ∈ path, keyIn s.entries address ≠ some key) :
    delLRUCache s key = some s := by
  obtain ⟨found, got, _, isNone⟩ := getLRUHashTab_done nonempty sound.table
  rw [isNone.mpr (sound.fresh uncached)] at got
  simp only [delLRUCache, got, Option.bind_eq_bind, Option.bind_some]

end Path

end Xinu.KeyValueStore
