import Xinu.DoublyLinked
import Xinu.ProcessPlaces

/-!
# The queue table holds the queues

The pointers of the table link the processes of every queue between its head and its tail.
Each function of the queue code changes one queue: it finds two neighbours, or a process
and its neighbours, and redirects their pointers. The other queues are disjoint from that
one and stay linked.

The keys of all tails are below every priority, so the search of `insert` stops. The loops
take at most one turn for each process of the queue.
-/

namespace Xinu.Processes

open DoublyLinked DeltaList

/-- The three columns of the table. -/
def Kernel.nexts (k : Kernel) : Int → Int := fun index => (k.queuetab index).qnext

def Kernel.prevs (k : Kernel) : Int → Int := fun index => (k.queuetab index).qprev

def Kernel.keys (k : Kernel) : Int → Int32 := fun index => (k.queuetab index).qkey

section Columns

variable (k : Kernel) (index value : Int) (key : Int32)

@[simp] theorem setNext_nexts : (k.setNext index value).nexts =
    Function.update k.nexts index value := by
  funext other
  rcases eq_or_ne other index with rfl | apart
  · simp [Kernel.nexts, Kernel.setNext]
  · simp [Kernel.nexts, Kernel.setNext, apart]

@[simp] theorem setNext_prevs : (k.setNext index value).prevs = k.prevs := by
  funext other
  rcases eq_or_ne other index with rfl | apart
  · simp [Kernel.prevs, Kernel.setNext]
  · simp [Kernel.prevs, Kernel.setNext, apart]

@[simp] theorem setNext_keys : (k.setNext index value).keys = k.keys := by
  funext other
  rcases eq_or_ne other index with rfl | apart
  · simp [Kernel.keys, Kernel.setNext]
  · simp [Kernel.keys, Kernel.setNext, apart]

@[simp] theorem setPrev_nexts : (k.setPrev index value).nexts = k.nexts := by
  funext other
  rcases eq_or_ne other index with rfl | apart
  · simp [Kernel.nexts, Kernel.setPrev]
  · simp [Kernel.nexts, Kernel.setPrev, apart]

@[simp] theorem setPrev_prevs : (k.setPrev index value).prevs =
    Function.update k.prevs index value := by
  funext other
  rcases eq_or_ne other index with rfl | apart
  · simp [Kernel.prevs, Kernel.setPrev]
  · simp [Kernel.prevs, Kernel.setPrev, apart]

@[simp] theorem setPrev_keys : (k.setPrev index value).keys = k.keys := by
  funext other
  rcases eq_or_ne other index with rfl | apart
  · simp [Kernel.keys, Kernel.setPrev]
  · simp [Kernel.keys, Kernel.setPrev, apart]

@[simp] theorem setKey_nexts : (k.setKey index key).nexts = k.nexts := by
  funext other
  rcases eq_or_ne other index with rfl | apart
  · simp [Kernel.nexts, Kernel.setKey]
  · simp [Kernel.nexts, Kernel.setKey, apart]

@[simp] theorem setKey_prevs : (k.setKey index key).prevs = k.prevs := by
  funext other
  rcases eq_or_ne other index with rfl | apart
  · simp [Kernel.prevs, Kernel.setKey]
  · simp [Kernel.prevs, Kernel.setKey, apart]

@[simp] theorem setKey_keys : (k.setKey index key).keys = Function.update k.keys index key := by
  funext other
  rcases eq_or_ne other index with rfl | apart
  · simp [Kernel.keys, Kernel.setKey]
  · simp [Kernel.keys, Kernel.setKey, apart]

end Columns

/-- A queue with its head and its tail. -/
def path (queues : Int → List Int) (q : Int) : List Int := q :: queues q ++ [q + 1]

/-- The pointers link every queue, and the tails have the smallest key. -/
structure Threaded (nexts prevs : Int → Int) (keys : Int → Int32) (queues : Int → List Int) :
    Prop where
  linked : ∀ q, IsQueue q → Linked nexts prevs (path queues q)
  tails : ∀ q, IsQueue q → keys (q + 1) = minkey

section Paths

variable {proctab : Int → Procent} {queues : Int → List Int} {pid q other : Int} {queue : List Int}

theorem IsQueue.above (isQueue : IsQueue q) : nproc ≤ q := by
  obtain ⟨index, low, _, rfl⟩ := isQueue
  lia

theorem IsQueue.good (isQueue : IsQueue q) : isbadqid q = false := by
  obtain ⟨index, low, high, rfl⟩ := isQueue
  refine decide_eq_false ?_
  simp only [nqent, nsem, nproc] at *
  lia

/-- Two queues have different heads and tails. -/
theorem IsQueue.ends_apart (isQueue : IsQueue q) (otherIsQueue : IsQueue other) :
    q ≠ other + 1 ∧ (q + 1 = other + 1 → q = other) := by
  obtain ⟨index, _, _, rfl⟩ := isQueue
  obtain ⟨otherIndex, _, _, rfl⟩ := otherIsQueue
  lia

theorem mem_path : pid ∈ path queues q ↔ pid = q ∨ pid ∈ queues q ∨ pid = q + 1 := by
  simp [path]

theorem InRange.ne_head (range : InRange pid) (isQueue : IsQueue q) : pid ≠ q := by
  have := range.2
  have := isQueue.above
  omega

theorem InRange.ne_tail (range : InRange pid) (isQueue : IsQueue q) : pid ≠ q + 1 := by
  have := range.2
  have := isQueue.above
  omega

theorem Placed.path_nodup (placed : Placed proctab queues) (isQueue : IsQueue q) :
    (path queues q).Nodup := by
  have members : ∀ pid ∈ queues q, pid ≠ q ∧ pid ≠ q + 1 := by
    intro pid member
    have range := ((placed.member q isQueue pid).mp member).1
    exact ⟨range.ne_head isQueue, range.ne_tail isQueue⟩
  unfold path
  rw [List.cons_append, List.nodup_cons, List.nodup_append]
  refine ⟨?_, placed.distinct q isQueue, List.nodup_singleton _, ?_⟩
  · intro inside
    rcases List.mem_append.mp inside with member | isTail
    · exact (members q member).1 rfl
    · have : q = q + 1 := List.mem_singleton.mp isTail
      omega
  · rintro pid member _ isTail same
    exact (members pid member).2 (same.trans (List.mem_singleton.mp isTail))

/-- Different queues share no entry of the table. -/
theorem Placed.path_apart (placed : Placed proctab queues) (isQueue : IsQueue q)
    (otherIsQueue : IsQueue other) (apart : q ≠ other) (inside : pid ∈ path queues q) :
    pid ∉ path queues other := by
  intro alsoInside
  rcases mem_path.mp inside with rfl | member | rfl
  · rcases mem_path.mp alsoInside with same | member | same
    · exact apart same
    · exact ((placed.member other otherIsQueue pid).mp member).1.ne_head isQueue rfl
    · exact (isQueue.ends_apart otherIsQueue).1 same
  · obtain ⟨range, place⟩ := (placed.member q isQueue pid).mp member
    rcases mem_path.mp alsoInside with same | otherMember | same
    · exact range.ne_head otherIsQueue same
    · have otherPlace := ((placed.member other otherIsQueue pid).mp otherMember).2
      rw [place] at otherPlace
      exact apart (Option.some.inj otherPlace)
    · exact range.ne_tail otherIsQueue same
  · rcases mem_path.mp alsoInside with same | member | same
    · exact (otherIsQueue.ends_apart isQueue).1 same.symm
    · exact ((placed.member other otherIsQueue (q + 1)).mp member).1.ne_tail isQueue rfl
    · exact apart ((isQueue.ends_apart otherIsQueue).2 same)

theorem Placed.path_fresh (placed : Placed proctab queues) (range : InRange pid)
    (outside : (proctab pid).place = none) (isQueue : IsQueue q) : pid ∉ path queues q := by
  intro inside
  rcases mem_path.mp inside with same | member | same
  · exact range.ne_head isQueue same
  · exact placed.absent isQueue (by rw [outside]; simp) member
  · exact range.ne_tail isQueue same

/-- A queue is shorter than the loops through it can get. -/
theorem Placed.length_le (placed : Placed proctab queues) (isQueue : IsQueue q) :
    (queues q).length ≤ 100 := by
  have inside : (queues q).toFinset ⊆ Finset.Ico (0 : Int) 100 := by
    intro pid member
    have range := ((placed.member q isQueue pid).mp (List.mem_toFinset.mp member)).1
    exact Finset.mem_Ico.mpr range
  have bound := Finset.card_le_card inside
  rw [List.toFinset_card_of_nodup (placed.distinct q isQueue)] at bound
  simpa using bound

end Paths

section Threads

variable {nexts prevs newNexts newPrevs : Int → Int} {keys : Int → Int32}
  {queues : Int → List Int} {proctab : Int → Procent} {q pid left right : Int} {queue : List Int}

/-- A process outside of all queues is linked into one. -/
theorem Threaded.inserted (threaded : Threaded nexts prevs keys queues) (queue : List Int)
    (newKeys : Int → Int32) (placed : Placed proctab queues) (isQueue : IsQueue q) (range : InRange pid)
    (outside : (proctab pid).place = none) {front back : List Int}
    (before : path queues q = front ++ left :: right :: back)
    (after : q :: queue ++ [q + 1] = front ++ left :: pid :: right :: back)
    (tails : ∀ other, IsQueue other → newKeys (other + 1) = keys (other + 1)) :
    Threaded (Function.update (Function.update nexts pid right) left pid)
      (Function.update (Function.update prevs pid left) right pid) newKeys
      (Function.update queues q queue) := by
  refine ⟨?_, fun other otherIsQueue => (tails other otherIsQueue).trans (threaded.tails other otherIsQueue)⟩
  intro other otherIsQueue
  rcases eq_or_ne other q with rfl | apart
  · unfold path
    rw [Function.update_self, after]
    have linked := threaded.linked other isQueue
    have distinct := placed.path_nodup isQueue
    have fresh := placed.path_fresh range outside isQueue
    rw [before] at linked distinct fresh
    exact linked.inserted distinct fresh
  · have same : path (Function.update queues q queue) other = path queues other := by
      unfold path
      rw [Function.update_of_ne apart]
    rw [same]
    have away : ∀ cell ∈ path queues other, cell ≠ pid ∧ cell ≠ left ∧ cell ≠ right := by
      intro cell member
      refine ⟨?_, ?_, ?_⟩
      · rintro rfl
        exact placed.path_fresh range outside otherIsQueue member
      · rintro rfl
        exact placed.path_apart otherIsQueue isQueue apart member (by rw [before]; simp)
      · rintro rfl
        exact placed.path_apart otherIsQueue isQueue apart member (by rw [before]; simp)
    refine (threaded.linked other otherIsQueue).keep ?_ ?_
    · intro cell member
      obtain ⟨notPid, notLeft, _⟩ := away cell member
      rw [Function.update_of_ne notLeft, Function.update_of_ne notPid]
    · intro cell member
      obtain ⟨notPid, _, notRight⟩ := away cell member
      rw [Function.update_of_ne notRight, Function.update_of_ne notPid]

/-- A process of a queue is bypassed. Its own pointers do not matter any more. -/
theorem Threaded.removed (threaded : Threaded nexts prevs keys queues)
    (placed : Placed proctab queues) (isQueue : IsQueue q) {front back : List Int}
    (before : path queues q = front ++ left :: pid :: right :: back)
    (after : q :: queue ++ [q + 1] = front ++ left :: right :: back)
    (forward : ∀ cell, cell ≠ pid → newNexts cell = Function.update nexts left right cell)
    (backward : ∀ cell, cell ≠ pid → newPrevs cell = Function.update prevs right left cell)
    (tails : ∀ other, IsQueue other → newKeys (other + 1) = keys (other + 1)) :
    Threaded newNexts newPrevs newKeys (Function.update queues q queue) := by
  refine ⟨?_, fun other otherIsQueue => (tails other otherIsQueue).trans (threaded.tails other otherIsQueue)⟩
  have linked := threaded.linked q isQueue
  have distinct := placed.path_nodup isQueue
  have inside : pid ∈ path queues q := by rw [before]; simp
  intro other otherIsQueue
  rcases eq_or_ne other q with rfl | apart
  · unfold path
    rw [Function.update_self, after]
    rw [before] at linked distinct
    have bypassed : pid ∉ front ++ left :: right :: back := by
      obtain ⟨_, later, apart⟩ := List.nodup_append.mp distinct
      simp only [List.nodup_cons, List.mem_cons, not_or] at later
      intro member
      rcases List.mem_append.mp member with inFront | inBack
      · exact apart pid inFront pid (by simp) rfl
      · rcases List.mem_cons.mp inBack with rfl | inBack
        · exact later.1.1 rfl
        · rcases List.mem_cons.mp inBack with rfl | inBack
          · exact later.2.1.1 rfl
          · exact later.2.1.2 inBack
    have away : ∀ cell ∈ front ++ left :: right :: back, cell ≠ pid := fun cell member same =>
      bypassed (same ▸ member)
    exact (linked.removed distinct).keep (fun cell member => forward cell (away cell member))
      (fun cell member => backward cell (away cell member))
  · have same : path (Function.update queues q queue) other = path queues other := by
      unfold path
      rw [Function.update_of_ne apart]
    rw [same]
    have away : ∀ cell ∈ path queues other, cell ≠ pid ∧ cell ≠ left ∧ cell ≠ right := by
      intro cell member
      refine ⟨?_, ?_, ?_⟩
      · rintro rfl
        exact placed.path_apart otherIsQueue isQueue apart member inside
      · rintro rfl
        exact placed.path_apart otherIsQueue isQueue apart member (by rw [before]; simp)
      · rintro rfl
        exact placed.path_apart otherIsQueue isQueue apart member (by rw [before]; simp)
    refine (threaded.linked other otherIsQueue).keep ?_ ?_
    · intro cell member
      obtain ⟨notPid, notLeft, _⟩ := away cell member
      rw [forward cell notPid, Function.update_of_ne notLeft]
    · intro cell member
      obtain ⟨notPid, _, notRight⟩ := away cell member
      rw [backward cell notPid, Function.update_of_ne notRight]

/-- The first process of a queue, or its tail. -/
theorem Threaded.first (threaded : Threaded nexts prevs keys queues) (isQueue : IsQueue q) :
    nexts q = (queues q).headD (q + 1) := by
  have linked : Linked nexts prevs (q :: [] ++ (queues q ++ [q + 1])) := threaded.linked q isQueue
  exact linked.between.1

/-- The neighbours of a process in its queue. -/
theorem Threaded.around (threaded : Threaded nexts prevs keys queues) (isQueue : IsQueue q)
    {front back : List Int} (split : queues q = front ++ pid :: back) :
    nexts pid = back.headD (q + 1) ∧ prevs pid = front.getLastD q := by
  have linked := threaded.linked q isQueue
  unfold path at linked
  rw [split] at linked
  refine ⟨?_, ?_⟩
  · have here : q :: (front ++ pid :: back) ++ [q + 1] =
        q :: (front ++ [pid]) ++ (back ++ [q + 1]) := by simp
    rw [here] at linked
    have link := linked.between.1
    rwa [List.getLastD_concat] at link
  · have here : q :: (front ++ pid :: back) ++ [q + 1] =
        q :: front ++ ((pid :: back) ++ [q + 1]) := by simp
    rw [here] at linked
    exact linked.between.2

end Threads

section Code

variable {k : Kernel} {queues : Int → List Int} {proctab : Int → Procent} {q pid : Int}

/-- The pointers of a kernel link these queues. -/
def Kernel.Threads (k : Kernel) (queues : Int → List Int) : Prop :=
  Threaded k.nexts k.prevs k.keys queues

/-- Only the queue table differs. -/
def Kernel.SameBut (k other : Kernel) : Prop := other = { k with queuetab := other.queuetab }

theorem Kernel.Threads.firstid (threads : k.Threads queues) (isQueue : IsQueue q) :
    k.firstid q = (queues q).headD (q + 1) := threads.first isQueue

theorem Kernel.Threads.isempty_iff (threads : k.Threads queues) (placed : Placed proctab queues)
    (isQueue : IsQueue q) : k.isempty q = true ↔ queues q = [] := by
  unfold Kernel.isempty
  rw [threads.firstid isQueue, decide_eq_true_iff]
  cases empty : queues q with
  | nil =>
    have above := isQueue.above
    simp only [List.headD_nil, iff_true]
    omega
  | cons first rest =>
    have range := ((placed.member q isQueue first).mp (by rw [empty]; simp)).1
    simp only [List.headD_cons, reduceCtorEq, iff_false]
    exact not_le.mpr range.2

theorem Kernel.Threads.nonempty_iff (threads : k.Threads queues) (placed : Placed proctab queues)
    (isQueue : IsQueue q) : k.nonempty q = true ↔ queues q ≠ [] := by
  rw [Ne, ← threads.isempty_iff placed isQueue]
  simp [Kernel.isempty, Kernel.nonempty]

/-- `enqueue` puts a process behind all others. -/
theorem enqueue_spec (threads : k.Threads queues) (placed : Placed proctab queues)
    (isQueue : IsQueue q) (range : InRange pid) (outside : (proctab pid).place = none)
    (good : k.isbadpid pid = false) :
    ∃ after, enqueue k pid q = (pid, after) ∧ k.SameBut after ∧ after.keys = k.keys ∧
      after.Threads (Function.update queues q (queues q ++ [pid])) := by
  have last : k.prevs (q + 1) = (queues q).getLastD q := by
    have linked : Linked k.nexts k.prevs (q :: queues q ++ ([] ++ [q + 1])) :=
      threads.linked q isQueue
    exact linked.between.2
  obtain ⟨start, rest, split, put⟩ := neighbours (queues q) [] q (q + 1)
  unfold enqueue
  rw [if_neg (by simp [isQueue.good, good])]
  refine ⟨_, rfl, rfl, by simp, ?_⟩
  have inserted := threads.inserted (queues q ++ [pid]) k.keys placed isQueue range outside split
    (by rw [← put pid]; simp) (fun _ _ => rfl)
  unfold Kernel.Threads
  simp only [setNext_nexts, setPrev_nexts, setNext_prevs, setPrev_prevs, setNext_keys, setPrev_keys,
    queuetail]
  have here : (k.queuetab (q + 1)).qprev = (queues q).getLastD q := last
  rw [here]
  exact inserted

/-- `getitem` takes a process out of its queue. The later stores into its own pointers do
not matter. -/
theorem getitem_spec (threads : k.Threads queues) (placed : Placed proctab queues)
    (isQueue : IsQueue q) (member : pid ∈ queues q) :
    ∃ after, getitem k pid = (pid, after) ∧ k.SameBut after ∧ after.keys = k.keys ∧
      after.Threads (Function.update queues q ((queues q).erase pid)) ∧
      ((after.setPrev pid empty).setNext pid empty).Threads
        (Function.update queues q ((queues q).erase pid)) := by
  obtain ⟨front, back, fresh, split, erased⟩ := List.exists_erase_eq member
  obtain ⟨next, prev⟩ := threads.around isQueue split
  obtain ⟨start, rest, bypassed, put⟩ := neighbours front back q (q + 1)
  have before : path queues q = start ++ front.getLastD q :: pid :: back.headD (q + 1) :: rest := by
    rw [← put pid, path, split]
    simp
  have after : q :: (queues q).erase pid ++ [q + 1] =
      start ++ front.getLastD q :: back.headD (q + 1) :: rest := by
    rw [← bypassed, erased]
    simp
  refine ⟨_, rfl, rfl, by simp, ?_, ?_⟩
  · refine threads.removed placed isQueue before after ?_ ?_ ?_
    · intro cell _
      simp only [setPrev_nexts, setNext_nexts]
      rw [← next, ← prev]
      rfl
    · intro cell _
      simp only [setPrev_prevs, setNext_prevs]
      rw [← next, ← prev]
      rfl
    · intro other _
      simp
  · refine threads.removed placed isQueue before after ?_ ?_ ?_
    · intro cell apart
      simp only [setPrev_nexts, setNext_nexts]
      rw [Function.update_of_ne apart, ← next, ← prev]
      rfl
    · intro cell apart
      simp only [setPrev_prevs, setNext_prevs]
      rw [Function.update_of_ne apart, ← next, ← prev]
      rfl
    · intro other _
      simp

/-- `getfirst` and `dequeue` of an empty queue. -/
theorem getfirst_empty (threads : k.Threads queues) (placed : Placed proctab queues)
    (isQueue : IsQueue q) (isEmpty : queues q = []) : getfirst k q = (empty, k) := by
  unfold getfirst
  rw [if_pos ((threads.isempty_iff placed isQueue).mpr isEmpty)]

theorem dequeue_empty (threads : k.Threads queues) (placed : Placed proctab queues)
    (isQueue : IsQueue q) (isEmpty : queues q = []) : dequeue k q = (empty, k) := by
  unfold dequeue
  rw [if_neg (by simp [isQueue.good]), if_pos ((threads.isempty_iff placed isQueue).mpr isEmpty)]

/-- `getfirst` takes the first process. -/
theorem getfirst_spec (threads : k.Threads queues) (placed : Placed proctab queues)
    (isQueue : IsQueue q) (first : (queues q).head? = some pid) :
    ∃ after, getfirst k q = (pid, after) ∧ k.SameBut after ∧ after.keys = k.keys ∧
      after.Threads (Function.update queues q ((queues q).erase pid)) ∧
      ((after.setPrev pid empty).setNext pid empty).Threads
        (Function.update queues q ((queues q).erase pid)) := by
  have member : pid ∈ queues q := List.mem_of_mem_head? first
  have here : (k.queuetab (queuehead q)).qnext = pid := by
    have reading := threads.firstid isQueue
    rw [List.headD_eq_head?_getD, first] at reading
    exact reading
  have nonempty : ¬ k.isempty q = true := by
    rw [threads.isempty_iff placed isQueue]
    rintro isEmpty
    rw [isEmpty] at first
    cases first
  unfold getfirst
  rw [if_neg nonempty, here]
  exact getitem_spec threads placed isQueue member

/-- `dequeue` takes the first process. -/
theorem dequeue_spec (threads : k.Threads queues) (placed : Placed proctab queues)
    (isQueue : IsQueue q) (first : (queues q).head? = some pid) :
    ∃ after, dequeue k q = (pid, after) ∧ k.SameBut after ∧ after.keys = k.keys ∧
      after.Threads (Function.update queues q ((queues q).erase pid)) := by
  have nonempty : ¬ k.isempty q = true := by
    rw [threads.isempty_iff placed isQueue]
    rintro isEmpty
    rw [isEmpty] at first
    cases first
  obtain ⟨after, taken, same, keys, _, threaded⟩ := getfirst_spec threads placed isQueue first
  refine ⟨(after.setPrev pid empty).setNext pid empty, ?_, ?_, by simp [keys], threaded⟩
  · unfold dequeue
    rw [if_neg (by simp [isQueue.good]), if_neg nonempty, taken]
  · unfold Kernel.SameBut at same ⊢
    rw [same]
    rfl

/-- The search of `insert` stops at the first process with a smaller key, or at the tail. -/
theorem insertPlace_spec (threads : k.Threads queues) (isQueue : IsQueue q) {key : Int32}
    (high : minkey.toInt < key.toInt) (front rest : List Int) (split : queues q = front ++ rest)
    (turns : Nat) (enough : rest.length < turns) :
    k.insertPlace key turns (rest.headD (q + 1)) =
      some ((rest.dropWhile (fun other => key.toInt ≤ (k.keys other).toInt)).headD (q + 1)) := by
  induction rest generalizing front turns with
  | nil =>
    obtain ⟨turns, rfl⟩ : ∃ n, turns = n + 1 := ⟨turns - 1, by simp at enough; lia⟩
    have small : (k.queuetab (q + 1)).qkey = minkey := threads.tails q isQueue
    unfold Kernel.insertPlace
    rw [List.headD_nil, small, if_neg (not_le.mpr high)]
    rfl
  | cons first rest inductionHypothesis =>
    obtain ⟨turns, rfl⟩ : ∃ n, turns = n + 1 := ⟨turns - 1, by simp at enough; lia⟩
    have next : (k.queuetab first).qnext = rest.headD (q + 1) := (threads.around isQueue split).1
    unfold Kernel.insertPlace
    rw [List.headD_cons, next]
    by_cases large : key.toInt ≤ (k.queuetab first).qkey.toInt
    · have passed : decide (key.toInt ≤ (k.keys first).toInt) = true := decide_eq_true large
      rw [if_pos large, List.dropWhile_cons, if_pos passed]
      exact inductionHypothesis (front ++ [first]) (by simp [split]) turns
        (by simp at enough; omega)
    · have stopped : ¬ decide (key.toInt ≤ (k.keys first).toInt) = true := fun passed =>
        large (of_decide_eq_true passed)
      rw [if_neg large, List.dropWhile_cons, if_neg stopped]
      rfl

/-- `insert` puts a process behind those with a key of at least this size. -/
theorem insert_spec (threads : k.Threads queues) (placed : Placed proctab queues)
    (isQueue : IsQueue q) (range : InRange pid) (outside : (proctab pid).place = none)
    (good : k.isbadpid pid = false) {key : Int32} (high : minkey.toInt < key.toInt) :
    ∃ after, insert k pid q key = some (ok, after) ∧ k.SameBut after ∧
      after.keys = Function.update k.keys pid key ∧
      after.Threads (Function.update queues q (insertByKey k.keys pid key (queues q))) := by
  have length := placed.length_le isQueue
  have place := insertPlace_spec threads isQueue high [] (queues q) rfl queueTurns
    (by unfold queueTurns; omega)
  rw [← threads.firstid isQueue] at place
  -- The queue is cut where the search stopped.
  have cut : queues q = (queues q).takeWhile (fun other => key.toInt ≤ (k.keys other).toInt) ++
      (queues q).dropWhile (fun other => key.toInt ≤ (k.keys other).toInt) :=
    List.takeWhile_append_dropWhile.symm
  have linked := threads.linked q isQueue
  unfold path at linked
  unfold insertByKey
  revert place cut linked
  generalize (queues q).takeWhile (fun other => key.toInt ≤ (k.keys other).toInt) = front
  generalize (queues q).dropWhile (fun other => key.toInt ≤ (k.keys other).toInt) = back
  intro place cut linked
  obtain ⟨start, rest, split, put⟩ := neighbours front back q (q + 1)
  have prev : (k.queuetab (back.headD (q + 1))).qprev = front.getLastD q := by
    rw [cut] at linked
    have here : q :: (front ++ back) ++ [q + 1] = q :: front ++ (back ++ [q + 1]) := by simp
    rw [here] at linked
    exact linked.between.2
  unfold insert
  rw [if_neg (by simp [isQueue.good, good]), place]
  refine ⟨_, rfl, rfl, by simp, ?_⟩
  have tails : ∀ other, IsQueue other →
      Function.update k.keys pid key (other + 1) = k.keys (other + 1) := fun other otherIsQueue =>
    Function.update_of_ne (Ne.symm (range.ne_tail otherIsQueue)) ..
  have inserted := threads.inserted (front ++ pid :: back) _ placed isQueue range outside
    (by rw [← split, path, cut]; simp) (by rw [← put pid]; simp) tails
  unfold Kernel.Threads
  simp only [setNext_nexts, setPrev_nexts, setKey_nexts, setNext_prevs, setPrev_prevs, setKey_prevs,
    setNext_keys, setPrev_keys, setKey_keys, prev]
  exact inserted

/-- The search of `insertd` uses up the delay at the sleepers in front. -/
theorem insertdPlace_spec (threads : k.Threads queues) (placed : Placed proctab queues)
    (isQueue : IsQueue q) (front rest : List Int) (split : queues q = front ++ rest) (turns : Nat)
    (enough : rest.length < turns) (key : Int32) :
    k.insertdPlace q turns (front.getLastD q) (rest.headD (q + 1)) key =
      some ((front ++ (deltaSplit k.keys key rest).1).getLastD q,
        (deltaSplit k.keys key rest).2.2.headD (q + 1), (deltaSplit k.keys key rest).2.1) := by
  induction rest generalizing front turns key with
  | nil =>
    obtain ⟨turns, rfl⟩ : ∃ n, turns = n + 1 := ⟨turns - 1, by simp at enough; omega⟩
    unfold Kernel.insertdPlace
    rw [List.headD_nil, if_neg (by simp [queuetail])]
    simp only [deltaSplit, List.append_nil]
    rfl
  | cons first rest inductionHypothesis =>
    obtain ⟨turns, rfl⟩ : ∃ n, turns = n + 1 := ⟨turns - 1, by simp at enough; lia⟩
    have range := ((placed.member q isQueue first).mp (by rw [split]; simp)).1
    have next : (k.queuetab first).qnext = rest.headD (q + 1) := (threads.around isQueue split).1
    unfold Kernel.insertdPlace deltaSplit
    rw [List.headD_cons, next]
    by_cases reached : (k.keys first).toInt ≤ key.toInt
    · rw [if_pos ⟨range.ne_tail isQueue, reached⟩, if_pos reached]
      have later := inductionHypothesis (front ++ [first]) (by simp [split]) turns
        (by simp at enough; omega) (key - k.keys first)
      rw [List.getLastD_concat] at later
      refine later.trans ?_
      dsimp only
      rw [List.append_assoc, List.singleton_append]
    · rw [if_neg (fun both => reached both.2), if_neg reached]
      simp only [List.append_nil]
      rfl

/-- `insertd` puts a process into the list of differences. -/
theorem insertd_spec (threads : k.Threads queues) (placed : Placed proctab queues)
    (isQueue : IsQueue q) (range : InRange pid) (outside : (proctab pid).place = none)
    (good : k.isbadpid pid = false) (key : Int32) :
    ∃ after, insertd k pid q key = some (ok, after) ∧ k.SameBut after ∧
      after.keys = adjustFirst (Function.update k.keys pid (deltaSplit k.keys key (queues q)).2.1)
        (fun old => old - (deltaSplit k.keys key (queues q)).2.1)
        (deltaSplit k.keys key (queues q)).2.2 ∧
      after.Threads (Function.update queues q ((deltaSplit k.keys key (queues q)).1 ++
        pid :: (deltaSplit k.keys key (queues q)).2.2)) := by
  have length := placed.length_le isQueue
  have place := insertdPlace_spec threads placed isQueue [] (queues q) rfl queueTurns
    (by unfold queueTurns; omega) key
  rw [← threads.first isQueue, List.nil_append] at place
  have cut : queues q = (deltaSplit k.keys key (queues q)).1 ++
      (deltaSplit k.keys key (queues q)).2.2 := (deltaSplit_queue _ _ key).symm
  revert place cut
  generalize deltaSplit k.keys key (queues q) = parts
  obtain ⟨front, delay, back⟩ := parts
  dsimp only
  intro place cut
  obtain ⟨start, rest, split, put⟩ := neighbours front back q (q + 1)
  have members : ∀ other ∈ back, InRange other := fun other member =>
    ((placed.member q isQueue other).mp (by rw [cut]; simp [member])).1
  have pidTail : ∀ other, IsQueue other →
      Function.update k.keys pid delay (other + 1) = k.keys (other + 1) := fun other otherIsQueue =>
    Function.update_of_ne (Ne.symm (range.ne_tail otherIsQueue)) ..
  have tails : ∀ other, IsQueue other → adjustFirst (Function.update k.keys pid delay)
      (fun old => old - delay) back (other + 1) = k.keys (other + 1) := by
    intro other otherIsQueue
    cases back with
    | nil => exact pidTail other otherIsQueue
    | cons second back =>
      have apart := (members second List.mem_cons_self).ne_tail otherIsQueue
      rw [adjustFirst_cons, Function.update_of_ne (Ne.symm apart), pidTail other otherIsQueue]
  have inserted := threads.inserted (front ++ pid :: back) _ placed isQueue range outside
    (by rw [← split, path, cut]; simp) (by rw [← put pid]; simp) tails
  unfold insertd
  rw [if_neg (by simp [isQueue.good, good])]
  have search : k.insertdPlace q queueTurns (queuehead q) (k.queuetab (queuehead q)).qnext key =
      some (front.getLastD q, back.headD (q + 1), delay) := place
  rw [search]
  dsimp only [Option.bind_eq_bind, Option.bind_some]
  -- The table with the process linked in, before the key behind it is lowered.
  obtain ⟨middle, isMiddle, same, nexts, prevs, keys⟩ : ∃ middle : Kernel,
      middle = ((((k.setNext pid (back.headD (q + 1))).setPrev pid (front.getLastD q)).setKey pid
        delay).setNext (front.getLastD q) pid).setPrev (back.headD (q + 1)) pid ∧
      k.SameBut middle ∧
      middle.nexts = Function.update (Function.update k.nexts pid (back.headD (q + 1)))
        (front.getLastD q) pid ∧
      middle.prevs = Function.update (Function.update k.prevs pid (front.getLastD q))
        (back.headD (q + 1)) pid ∧
      middle.keys = Function.update k.keys pid delay :=
    ⟨_, rfl, rfl, by simp only [setNext_nexts, setPrev_nexts, setKey_nexts],
      by simp only [setNext_prevs, setPrev_prevs, setKey_prevs],
      by simp only [setNext_keys, setPrev_keys, setKey_keys]⟩
  rw [← isMiddle]
  cases back with
  | nil =>
    rw [if_neg (by simp [queuetail])]
    refine ⟨middle, rfl, same, keys, ?_⟩
    unfold Kernel.Threads
    rw [nexts, prevs, keys]
    exact inserted
  | cons second back =>
    have notTail : second ≠ queuetail q := (members second List.mem_cons_self).ne_tail isQueue
    have stored : (middle.queuetab second).qkey = Function.update k.keys pid delay second :=
      congrFun keys second
    have keysAfter : (middle.setKey second ((middle.queuetab second).qkey - delay)).keys =
        adjustFirst (Function.update k.keys pid delay) (fun old => old - delay) (second :: back) := by
      rw [setKey_keys, keys, stored, adjustFirst_cons]
    rw [List.headD_cons, if_pos notTail]
    refine ⟨_, rfl, ?_, keysAfter, ?_⟩
    · unfold Kernel.SameBut at same ⊢
      rw [same]
      rfl
    · unfold Kernel.Threads
      rw [setKey_nexts, setKey_prevs, keysAfter, nexts, prevs]
      exact inserted

/-- What stands behind a process. -/
theorem dropWhile_behind {front back : List Int} (fresh : pid ∉ front) :
    ((front ++ pid :: back).dropWhile (fun other => other ≠ pid)).tail = back := by
  have passed : ∀ other ∈ front, decide (other ≠ pid) = true := fun other member =>
    decide_eq_true fun same => fresh (same ▸ member)
  rw [List.dropWhile_append_of_pos passed, List.dropWhile_cons_of_neg (by simp), List.tail_cons]

/-- `unsleep` takes a process out of the list of differences. -/
theorem unsleep_spec (threads : k.Threads queues) (placed : Placed proctab queues)
    (member : pid ∈ queues sleepQueue) (good : k.isbadpid pid = false)
    (sleeps : (k.proctab pid).prstate = .sleep ∨ (k.proctab pid).prstate = .rectim) :
    ∃ after, unsleep k pid = (ok, after) ∧ k.SameBut after ∧
      after.keys = adjustFirst k.keys (fun old => old + k.keys pid)
        ((queues sleepQueue).dropWhile (fun other => other ≠ pid)).tail ∧
      after.Threads (Function.update queues sleepQueue ((queues sleepQueue).erase pid)) := by
  obtain ⟨front, back, fresh, split, _⟩ := List.exists_erase_eq member
  have next : (k.queuetab pid).qnext = back.headD (sleepQueue + 1) :=
    (threads.around isQueue_sleep split).1
  have behind : ((queues sleepQueue).dropWhile (fun other => other ≠ pid)).tail = back := by
    rw [split, dropWhile_behind fresh]
  have asleep : ¬ ((k.proctab pid).prstate ≠ .sleep ∧ (k.proctab pid).prstate ≠ .rectim) := by
    rintro ⟨notSleep, notRectim⟩
    exact sleeps.elim notSleep notRectim
  rw [behind]
  unfold unsleep
  rw [if_neg (by simp [good]), if_neg asleep, next]
  cases back with
  | nil =>
    dsimp only
    rw [List.headD_nil, if_neg (by decide)]
    obtain ⟨after, taken, same, keys, threaded, _⟩ := getitem_spec threads placed isQueue_sleep member
    exact ⟨after, by rw [taken], same, keys, threaded⟩
  | cons second back =>
    have range := ((placed.member sleepQueue isQueue_sleep second).mp (by rw [split]; simp)).1
    dsimp only
    rw [List.headD_cons, if_pos range.2]
    have raised : (k.setKey second ((k.queuetab second).qkey + (k.queuetab pid).qkey)).Threads
        queues := by
      refine ⟨fun q isQueue => ?_, fun q isQueue => ?_⟩
      · rw [setKey_nexts, setKey_prevs]
        exact threads.linked q isQueue
      · rw [setKey_keys, Function.update_of_ne (Ne.symm (range.ne_tail isQueue))]
        exact threads.tails q isQueue
    obtain ⟨after, taken, same, keys, threaded, _⟩ :=
      getitem_spec raised placed isQueue_sleep member
    refine ⟨after, by rw [taken], ?_, ?_, threaded⟩
    · unfold Kernel.SameBut at same ⊢
      rw [same]
      rfl
    · rw [keys, setKey_keys, adjustFirst_cons]
      rfl

end Code

end Xinu.Processes
