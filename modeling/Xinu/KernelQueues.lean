import Xinu.QueueTable

/-!
# Queues in one table

The functions of the queue code are followed for any set of queues in the table, not only for those that the
kernel makes. A queue has two entries of its own, which only their indices and keys tell from processes. The
queues share the entries of the processes, and a process is in one of them at most.

Each operation acts on one queue as on a list, and the table holds the same lists for all other queues. The
search of `insert` ends at the tail, whose key is below every other key.
-/

namespace Xinu.Processes

open DoublyLinked

/-- `getlast`. -/
def getlast (k : Kernel) (q : Int) : Int × Kernel :=
  if k.isempty q then (empty, k)
  else getitem k (k.queuetab (queuetail q)).qprev

/-- The table holds lists of processes for the live queues: every queue has a head and a tail of its own
with the largest and the smallest key, and the pointers link the processes between them. -/
structure Shared (k : Kernel) (live : Int → Prop) (queues : Int → List Int) : Prop where
  ids : ∀ q, live q → nproc ≤ q ∧ q + 1 < nqent
  apart : ∀ q, live q → ¬ live (q + 1)
  members : ∀ q, live q → ∀ pid ∈ queues q, InRange pid
  distinct : ∀ q, live q → (queues q).Nodup
  disjoint : ∀ q other, live q → live other → q ≠ other → (queues q).Disjoint (queues other)
  linked : ∀ q, live q → Linked k.nexts k.prevs (path queues q)
  heads : ∀ q, live q → k.keys q = maxkey
  tails : ∀ q, live q → k.keys (q + 1) = minkey

/-- The process is in no queue. -/
def Unlinked (live : Int → Prop) (queues : Int → List Int) (pid : Int) : Prop :=
  ∀ q, live q → pid ∉ queues q

/-- Keys do not increase along the queue. -/
def Descending (keys : Int → Int32) (queue : List Int) : Prop :=
  queue.Pairwise fun front back => (keys back).toInt ≤ (keys front).toInt

section Lists

variable {k after : Kernel} {live : Int → Prop} {queues : Int → List Int} {q other pid : Int}
  {front back : List Int}

theorem Shared.path_nodup (shared : Shared k live queues) (isLive : live q) : (path queues q).Nodup := by
  have high := (shared.ids q isLive).1
  have members : ∀ pid ∈ queues q, pid ≠ q ∧ pid ≠ q + 1 := by
    intro pid member
    have range := (shared.members q isLive pid member).2
    constructor <;> lia
  unfold path
  simp only [List.cons_append, List.nodup_cons, List.mem_append, List.mem_singleton, not_or]
  constructor
  · constructor
    · exact fun member => (members q member).1 rfl
    · omega
  · apply List.nodup_append.mpr
    constructor
    · exact shared.distinct q isLive
    constructor
    · exact List.nodup_singleton _
    · intro pid member last isLast same
      exact (members pid member).2 (same.trans (List.mem_singleton.mp isLast))

/-- Different queues have no entry in common. -/
theorem Shared.path_apart (shared : Shared k live queues) (isLive : live q) (otherLive : live other)
    (different : q ≠ other) (inside : pid ∈ path queues q) : pid ∉ path queues other := by
  have high := (shared.ids q isLive).1
  have otherHigh := (shared.ids other otherLive).1
  have behind : other ≠ q + 1 := fun same => shared.apart q isLive (same ▸ otherLive)
  have before : q ≠ other + 1 := fun same => shared.apart other otherLive (same ▸ isLive)
  intro alsoInside
  rcases mem_path.mp inside with isHead | member | isTail
  · rcases mem_path.mp alsoInside with otherHead | otherMember | otherTail
    · lia
    · have range := (shared.members other otherLive pid otherMember).2
      omega
    · omega
  · have range := (shared.members q isLive pid member).2
    rcases mem_path.mp alsoInside with otherHead | otherMember | otherTail
    · lia
    · exact shared.disjoint q other isLive otherLive different member otherMember
    · omega
  · rcases mem_path.mp alsoInside with otherHead | otherMember | otherTail
    · lia
    · have range := (shared.members other otherLive pid otherMember).2
      omega
    · lia

theorem Shared.path_fresh (shared : Shared k live queues) (range : InRange pid)
    (unlinked : Unlinked live queues pid) (isLive : live q) : pid ∉ path queues q := by
  have high := (shared.ids q isLive).1
  have low := range.2
  intro inside
  rcases mem_path.mp inside with isHead | member | isTail
  · omega
  · exact unlinked q isLive member
  · omega

/-- A queue has at most one hundred processes. -/
theorem Shared.length_le (shared : Shared k live queues) (isLive : live q) : (queues q).length ≤ 100 := by
  have inside : (queues q).toFinset ⊆ Finset.Ico (0 : Int) 100 := by
    intro pid member
    exact Finset.mem_Ico.mpr (shared.members q isLive pid (List.mem_toFinset.mp member))
  have bound := Finset.card_le_card inside
  have count := List.toFinset_card_of_nodup (shared.distinct q isLive)
  simp only [Int.card_Ico] at bound
  lia

/-- The pointers of two neighbours in a queue, or of its ends. -/
theorem Shared.between (shared : Shared k live queues) (isLive : live q) (cut : queues q = front ++ back) :
    k.nexts (front.getLastD q) = back.headD (q + 1) ∧ k.prevs (back.headD (q + 1)) = front.getLastD q := by
  have linked := shared.linked q isLive
  have shape : path queues q = q :: front ++ (back ++ [q + 1]) := by
    simp only [path, cut, List.cons_append, List.append_assoc]
  exact Linked.between (shape ▸ linked)

/-- The pointers of a process in a queue. -/
theorem Shared.around (shared : Shared k live queues) (isLive : live q)
    (cut : queues q = front ++ pid :: back) :
    (k.queuetab pid).qnext = back.headD (q + 1) ∧ (k.queuetab pid).qprev = front.getLastD q := by
  constructor
  · have behind := (shared.between isLive (show queues q = (front ++ [pid]) ++ back by simp [cut])).1
    simp only [List.getLastD_concat] at behind
    exact behind
  · exact (shared.between isLive cut).2

/-- Another list for one queue. -/
theorem path_update_of_ne {queue : List Int} (different : other ≠ q) :
    path (Function.update queues q queue) other = path queues other := by
  simp only [path, Function.update_of_ne different]

/-- The lists after a change of one queue are lists of processes again. -/
theorem Shared.replaced (shared : Shared k live queues) (isLive : live q) (queue : List Int)
    (members : ∀ pid ∈ queue, InRange pid) (distinct : queue.Nodup)
    (disjoint : ∀ other, live other → other ≠ q → queue.Disjoint (queues other))
    (linked : ∀ other, live other →
      Linked after.nexts after.prevs (path (Function.update queues q queue) other))
    (keys : ∀ index, nproc ≤ index → after.keys index = k.keys index) :
    Shared after live (Function.update queues q queue) := by
  constructor
  · exact shared.ids
  · exact shared.apart
  · intro other otherLive pid member
    by_cases same : other = q
    · subst same
      simp only [Function.update_self] at member
      exact members pid member
    · simp only [Function.update_of_ne same] at member
      exact shared.members other otherLive pid member
  · intro other otherLive
    by_cases same : other = q
    · subst same
      simpa only [Function.update_self] using distinct
    · simpa only [Function.update_of_ne same] using shared.distinct other otherLive
  · intro left right leftLive rightLive different
    by_cases isLeft : left = q
    · subst isLeft
      simpa only [Function.update_self, Function.update_of_ne (Ne.symm different)] using
        disjoint right rightLive (Ne.symm different)
    · by_cases isRight : right = q
      · subst isRight
        simpa only [Function.update_self, Function.update_of_ne isLeft] using
          (disjoint left leftLive isLeft).symm
      · simpa only [Function.update_of_ne isLeft, Function.update_of_ne isRight] using
          shared.disjoint left right leftLive rightLive different
  · exact linked
  · intro other otherLive
    have high := (shared.ids other otherLive).1
    exact (keys other high).trans (shared.heads other otherLive)
  · intro other otherLive
    have high := (shared.ids other otherLive).1
    exact (keys (other + 1) (by omega)).trans (shared.tails other otherLive)

/-- A process that is in no queue is linked into one. -/
theorem Shared.inserted (shared : Shared k live queues) (isLive : live q) (range : InRange pid)
    (unlinked : Unlinked live queues pid) (cut : queues q = front ++ back)
    (nexts : after.nexts = Function.update (Function.update k.nexts pid (back.headD (q + 1)))
      (front.getLastD q) pid)
    (prevs : after.prevs = Function.update (Function.update k.prevs pid (front.getLastD q))
      (back.headD (q + 1)) pid)
    (keys : ∀ index, nproc ≤ index → after.keys index = k.keys index) :
    Shared after live (Function.update queues q (front ++ pid :: back)) := by
  obtain ⟨start, rest, split, put⟩ := neighbours front back q (q + 1)
  have before : path queues q = start ++ front.getLastD q :: back.headD (q + 1) :: rest := by
    simpa only [path, cut, List.cons_append, List.append_assoc] using split
  have behind : q :: (front ++ pid :: back) ++ [q + 1] =
      start ++ front.getLastD q :: pid :: back.headD (q + 1) :: rest := by
    simpa only [List.cons_append, List.append_assoc] using put pid
  have distinct := shared.distinct q isLive
  have outside := unlinked q isLive
  simp only [cut] at distinct outside
  have swapped : (front ++ pid :: back).Perm (pid :: (front ++ back)) := List.perm_middle
  apply shared.replaced isLive
  · intro other member
    rcases List.mem_cons.mp (swapped.mem_iff.mp member) with rfl | inQueue
    · exact range
    · exact shared.members q isLive other (cut ▸ inQueue)
  · exact swapped.nodup_iff.mpr (List.nodup_cons.mpr ⟨outside, distinct⟩)
  · intro other otherLive different process inside member
    rcases List.mem_cons.mp (swapped.mem_iff.mp inside) with rfl | inQueue
    · exact unlinked other otherLive member
    · exact shared.disjoint q other isLive otherLive (Ne.symm different) (cut ▸ inQueue) member
  · intro other otherLive
    by_cases same : other = q
    · subst same
      have linked := shared.linked other isLive
      have cells := shared.path_nodup isLive
      have fresh := shared.path_fresh range unlinked isLive
      simp only [before] at linked cells fresh
      simp only [path, Function.update_self, behind, nexts, prevs]
      exact linked.inserted cells fresh
    · simp only [path_update_of_ne same]
      have away : ∀ cell ∈ path queues other,
          cell ≠ pid ∧ cell ≠ front.getLastD q ∧ cell ≠ back.headD (q + 1) := by
        intro cell member
        have notHere : cell ∉ path queues q := shared.path_apart otherLive isLive same member
        simp only [before, List.mem_append, List.mem_cons, not_or] at notHere
        refine ⟨?_, notHere.2.1, notHere.2.2.1⟩
        rintro rfl
        exact shared.path_fresh range unlinked otherLive member
      apply (shared.linked other otherLive).keep
      · intro cell member
        obtain ⟨notPid, notLeft, _⟩ := away cell member
        simp only [nexts, Function.update_of_ne notLeft, Function.update_of_ne notPid]
      · intro cell member
        obtain ⟨notPid, _, notRight⟩ := away cell member
        simp only [prevs, Function.update_of_ne notRight, Function.update_of_ne notPid]
  · exact keys

/-- A process of a queue is bypassed. Its own pointers do not matter any more. -/
theorem Shared.removed (shared : Shared k live queues) (isLive : live q)
    (cut : queues q = front ++ pid :: back)
    (forward : ∀ cell, cell ≠ pid →
      after.nexts cell = Function.update k.nexts (front.getLastD q) (back.headD (q + 1)) cell)
    (backward : ∀ cell, cell ≠ pid →
      after.prevs cell = Function.update k.prevs (back.headD (q + 1)) (front.getLastD q) cell)
    (keys : after.keys = k.keys) : Shared after live (Function.update queues q (front ++ back)) := by
  obtain ⟨start, rest, split, put⟩ := neighbours front back q (q + 1)
  have before : path queues q = start ++ front.getLastD q :: pid :: back.headD (q + 1) :: rest := by
    simpa only [path, cut, List.cons_append, List.append_assoc] using put pid
  have behind : q :: (front ++ back) ++ [q + 1] =
      start ++ front.getLastD q :: back.headD (q + 1) :: rest := by
    simpa only [List.cons_append, List.append_assoc] using split
  have distinct := shared.distinct q isLive
  simp only [cut] at distinct
  have swapped : (front ++ pid :: back).Perm (pid :: (front ++ back)) := List.perm_middle
  have fewer : ∀ other ∈ front ++ back, other ∈ queues q := by
    intro other member
    exact cut ▸ swapped.mem_iff.mpr (List.mem_cons_of_mem _ member)
  have cells := shared.path_nodup isLive
  apply shared.replaced isLive
  · exact fun other member => shared.members q isLive other (fewer other member)
  · exact (List.nodup_cons.mp (swapped.nodup_iff.mp distinct)).2
  · intro other otherLive different process inside member
    exact shared.disjoint q other isLive otherLive (Ne.symm different) (fewer process inside) member
  · intro other otherLive
    by_cases same : other = q
    · subst same
      have linked := shared.linked other isLive
      simp only [before] at linked cells
      simp only [path, Function.update_self, behind]
      have away : ∀ cell ∈ start ++ front.getLastD other :: back.headD (other + 1) :: rest, cell ≠ pid := by
        have shape : (start ++ front.getLastD other :: pid :: back.headD (other + 1) :: rest).Perm
            (pid :: (start ++ front.getLastD other :: back.headD (other + 1) :: rest)) := by
          have moved := @List.perm_middle _ pid (start ++ [front.getLastD other])
            (back.headD (other + 1) :: rest)
          simpa only [List.append_assoc, List.singleton_append] using moved
        have fresh := (List.nodup_cons.mp (shape.nodup_iff.mp cells)).1
        rintro cell member rfl
        exact fresh member
      exact (linked.removed cells).keep (fun cell member => forward cell (away cell member))
        fun cell member => backward cell (away cell member)
    · simp only [path_update_of_ne same]
      have away : ∀ cell ∈ path queues other,
          cell ≠ pid ∧ cell ≠ front.getLastD q ∧ cell ≠ back.headD (q + 1) := by
        intro cell member
        have notHere : cell ∉ path queues q := shared.path_apart otherLive isLive same member
        simp only [before, List.mem_append, List.mem_cons, not_or] at notHere
        exact ⟨notHere.2.2.1, notHere.2.1, notHere.2.2.2.1⟩
      apply (shared.linked other otherLive).keep
      · intro cell member
        obtain ⟨notPid, notLeft, _⟩ := away cell member
        exact (forward cell notPid).trans (Function.update_of_ne notLeft _ _)
      · intro cell member
        obtain ⟨notPid, _, notRight⟩ := away cell member
        exact (backward cell notPid).trans (Function.update_of_ne notRight _ _)
  · exact fun index _ => congrFun keys index

end Lists

/-- The operations on queues. -/
inductive Operation where
  | enqueue (pid q : Int)
  | dequeue (q : Int)
  | getfirst (q : Int)
  | getlast (q : Int)
  | getitem (pid : Int)
  | insert (pid q : Int) (key : Int32)

/-- One operation: its answer and the kernel behind it, if it ends. -/
def Operation.run (k : Kernel) : Operation → Option (Int × Kernel)
  | .enqueue pid q => some (Processes.enqueue k pid q)
  | .dequeue q => some (Processes.dequeue k q)
  | .getfirst q => some (Processes.getfirst k q)
  | .getlast q => some (Processes.getlast k q)
  | .getitem pid => some (Processes.getitem k pid)
  | .insert pid q key => Processes.insert k pid q key

/-- What the callers see to: the queue is live, a process that is put into a queue is in none, one that is
taken out is in a queue, and its key is above the key of the tails. -/
def Operation.Allowed (live : Int → Prop) (queues : Int → List Int) : Operation → Prop
  | .enqueue pid q => live q ∧ Unlinked live queues pid
  | .dequeue q | .getfirst q | .getlast q => live q
  | .getitem pid => ∃ q, live q ∧ pid ∈ queues q
  | .insert pid q key => live q ∧ Unlinked live queues pid ∧ minkey.toInt < key.toInt

/-- What an operation does to the lists. Those of the other queues are the same ones. -/
def Operation.Does (k : Kernel) (live : Int → Prop) (queues : Int → List Int) (answer : Int) (after : Kernel) :
    Operation → Prop
  | .enqueue pid q =>
    if k.isbadpid pid then answer = syserr ∧ after = k
    else answer = pid ∧ after.keys = k.keys ∧ Shared after live (Function.update queues q (queues q ++ [pid]))
  | .dequeue q | .getfirst q =>
    (answer = empty ↔ queues q = []) ∧ (queues q = [] → after = k) ∧ after.keys = k.keys ∧
      ∀ first rest, queues q = first :: rest →
        answer = first ∧ Shared after live (Function.update queues q rest)
  | .getlast q =>
    (answer = empty ↔ queues q = []) ∧ (queues q = [] → after = k) ∧ after.keys = k.keys ∧
      ∀ front last, queues q = front ++ [last] →
        answer = last ∧ Shared after live (Function.update queues q front)
  | .getitem pid =>
    answer = pid ∧ after.keys = k.keys ∧ ∀ q front back, live q → queues q = front ++ pid :: back →
      Shared after live (Function.update queues q (front ++ back))
  | .insert pid q key =>
    if k.isbadpid pid then answer = syserr ∧ after = k
    else answer = ok ∧ after.keys = Function.update k.keys pid key ∧
      ∃ front back, queues q = front ++ back ∧
        Shared after live (Function.update queues q (front ++ pid :: back)) ∧
        (∀ other ∈ front, key.toInt ≤ (k.keys other).toInt) ∧
        (∀ other ∈ back.head?, (k.keys other).toInt < key.toInt) ∧
        (Descending k.keys (queues q) → (∀ other ∈ back, (k.keys other).toInt < key.toInt) ∧
          Descending after.keys (front ++ pid :: back))

section Operations

variable {k : Kernel} {live : Int → Prop} {queues : Int → List Int} {q pid : Int} {key : Int32}
  {front back : List Int}

theorem Shared.good (shared : Shared k live queues) (isLive : live q) : isbadqid q = false := by
  have bounds := shared.ids q isLive
  apply decide_eq_false
  simp only [nqent, nproc, nsem] at *
  omega

theorem Shared.firstid (shared : Shared k live queues) (isLive : live q) :
    k.firstid q = (queues q).headD (q + 1) :=
  (shared.between isLive (List.nil_append (queues q)).symm).1

theorem Shared.isempty_iff (shared : Shared k live queues) (isLive : live q) :
    k.isempty q = true ↔ queues q = [] := by
  have first := shared.firstid isLive
  have high := (shared.ids q isLive).1
  unfold Kernel.isempty
  simp only [first, decide_eq_true_eq]
  cases isQueue : queues q with
  | nil =>
    simp only [List.headD_nil, iff_true]
    omega
  | cons first rest =>
    have range := shared.members q isLive first (isQueue ▸ List.mem_cons_self)
    simp only [List.headD_cons, reduceCtorEq, iff_false, not_le]
    exact range.2

theorem Shared.enqueue (shared : Shared k live queues) (isLive : live q) (unlinked : Unlinked live queues pid)
    (good : k.isbadpid pid = false) : ∃ after, enqueue k pid q = (pid, after) ∧ k.SameBut after ∧
      after.keys = k.keys ∧ Shared after live (Function.update queues q (queues q ++ [pid])) := by
  have range : InRange pid := by
    simp only [Kernel.isbadpid, decide_eq_false_iff_not, not_or, not_lt, not_le] at good
    exact ⟨good.1, good.2.1⟩
  have prev : (k.queuetab (q + 1)).qprev = (queues q).getLastD q :=
    (shared.between isLive (List.append_nil (queues q)).symm).2
  have accepted : ¬ (isbadqid q = true ∨ k.isbadpid pid = true) := by simp [shared.good isLive, good]
  unfold Processes.enqueue
  simp only [if_neg accepted]
  refine ⟨_, rfl, rfl, by simp, ?_⟩
  apply shared.inserted isLive range unlinked (List.append_nil (queues q)).symm
  · simp only [setPrev_nexts, setNext_nexts, prev, List.headD_nil, queuetail]
  · simp only [setPrev_prevs, setNext_prevs, prev, List.headD_nil, queuetail]
  · simp

/-- A process is taken out, and its own pointers are kept or set to anything. -/
theorem Shared.getitem (shared : Shared k live queues) (isLive : live q)
    (cut : queues q = front ++ pid :: back) : ∃ after, getitem k pid = (pid, after) ∧ k.SameBut after ∧
      after.keys = k.keys ∧ Shared after live (Function.update queues q (front ++ back)) ∧
      Shared ((after.setPrev pid empty).setNext pid empty) live (Function.update queues q (front ++ back)) := by
  obtain ⟨next, prev⟩ := shared.around isLive cut
  refine ⟨_, rfl, rfl, by simp, ?_, ?_⟩
  · apply shared.removed isLive cut
    · intro cell _
      simp [next, prev]
    · intro cell _
      simp [next, prev]
    · simp
  · apply shared.removed isLive cut
    · intro cell different
      simp [next, prev, Function.update_of_ne different]
    · intro cell different
      simp [next, prev, Function.update_of_ne different]
    · simp

/-- `getfirst` and `getlast` take the process at an end of the queue. -/
theorem Shared.getfirst_cons (shared : Shared k live queues) (isLive : live q)
    (isQueue : queues q = pid :: back) : getfirst k q = Processes.getitem k pid := by
  have something : ¬ k.isempty q = true := by simp [shared.isempty_iff isLive, isQueue]
  have here : (k.queuetab (queuehead q)).qnext = pid := by
    have first := shared.firstid isLive
    simp only [isQueue, List.headD_cons] at first
    exact first
  simp only [getfirst, if_neg something, here]

theorem Shared.getlast_concat (shared : Shared k live queues) (isLive : live q)
    (isQueue : queues q = front ++ [pid]) : getlast k q = Processes.getitem k pid := by
  have something : ¬ k.isempty q = true := by simp [shared.isempty_iff isLive, isQueue]
  have here : (k.queuetab (queuetail q)).qprev = pid := by
    have last := (shared.between isLive (List.append_nil (queues q)).symm).2
    simp only [isQueue, List.headD_nil, List.getLastD_concat] at last
    exact last
  simp only [getlast, if_neg something, here]

/-- The search of `insert` ends at the first process with a smaller key, or at the tail. -/
theorem Shared.insertPlace (shared : Shared k live queues) (isLive : live q) (high : minkey.toInt < key.toInt)
    (front back : List Int) (cut : queues q = front ++ back) (turns : Nat) (enough : back.length < turns) :
    k.insertPlace key turns (back.headD (q + 1)) =
      some ((back.dropWhile fun other => key.toInt ≤ (k.keys other).toInt).headD (q + 1)) := by
  induction back generalizing front turns with
  | nil =>
    obtain ⟨turns, rfl⟩ : ∃ n, turns = n + 1 := ⟨turns - 1, by simp at enough; omega⟩
    have small : (k.queuetab (q + 1)).qkey = minkey := shared.tails q isLive
    simp only [Kernel.insertPlace, List.headD_nil, small, not_le.mpr high, if_false, List.dropWhile_nil]
  | cons first back inductionHypothesis =>
    obtain ⟨turns, rfl⟩ : ∃ n, turns = n + 1 := ⟨turns - 1, by simp at enough; omega⟩
    have next := (shared.around isLive cut).1
    by_cases large : key.toInt ≤ (k.queuetab first).qkey.toInt
    · have passes : decide (key.toInt ≤ (k.keys first).toInt) = true := decide_eq_true large
      simp only [Kernel.insertPlace, List.headD_cons, large, if_true, next, List.dropWhile_cons, passes]
      exact inductionHypothesis (front ++ [first]) (by simp [cut]) turns (by simp at enough; omega)
    · have stops : decide (key.toInt ≤ (k.keys first).toInt) = false := decide_eq_false large
      simp only [Kernel.insertPlace, List.headD_cons, large, if_false, List.dropWhile_cons, stops,
        Bool.false_eq_true]

/-- `insert` cuts the queue where its search ends. -/
theorem Shared.insert (shared : Shared k live queues) (isLive : live q) (unlinked : Unlinked live queues pid)
    (good : k.isbadpid pid = false) (high : minkey.toInt < key.toInt) : ∃ after,
      insert k pid q key = some (ok, after) ∧ k.SameBut after ∧
      after.keys = Function.update k.keys pid key ∧
      Shared after live (Function.update queues q (insertByKey k.keys pid key (queues q))) := by
  have range : InRange pid := by
    simp only [Kernel.isbadpid, decide_eq_false_iff_not, not_or, not_lt, not_le] at good
    exact ⟨good.1, good.2.1⟩
  have short := shared.length_le isLive
  have place := shared.insertPlace isLive high [] (queues q) rfl queueTurns (by unfold queueTurns; omega)
  have first := shared.firstid isLive
  simp only [← first] at place
  have cut : queues q = (queues q).takeWhile (fun other => key.toInt ≤ (k.keys other).toInt) ++
      (queues q).dropWhile (fun other => key.toInt ≤ (k.keys other).toInt) :=
    List.takeWhile_append_dropWhile.symm
  unfold insertByKey
  generalize (queues q).takeWhile (fun other => key.toInt ≤ (k.keys other).toInt) = front at cut ⊢
  generalize (queues q).dropWhile (fun other => key.toInt ≤ (k.keys other).toInt) = back at cut place ⊢
  have prev : (k.queuetab (back.headD (q + 1))).qprev = front.getLastD q := (shared.between isLive cut).2
  have accepted : ¬ (isbadqid q = true ∨ k.isbadpid pid = true) := by simp [shared.good isLive, good]
  unfold Processes.insert
  simp only [if_neg accepted, place, Option.bind_eq_bind, Option.bind_some]
  refine ⟨_, rfl, rfl, by simp, ?_⟩
  apply shared.inserted isLive range unlinked cut
  · simp only [setPrev_nexts, setNext_nexts, setKey_nexts, prev]
  · simp only [setPrev_prevs, setNext_prevs, setKey_prevs, prev]
  · intro index outside
    have different : index ≠ pid := by
      have low := range.2
      lia
    simp [Function.update_of_ne different]

/-- The processes that the search passes. -/
theorem passed_takeWhile {keys : Int → Int32} {queue : List Int} :
    ∀ other ∈ queue.takeWhile (fun other => key.toInt ≤ (keys other).toInt), key.toInt ≤ (keys other).toInt := by
  intro other member
  have holds := List.mem_takeWhile_imp member
  exact of_decide_eq_true holds

/-- In a descending queue, the processes with a smaller key are behind all others. -/
theorem descending_dropWhile {keys : Int → Int32} {queue : List Int} (descending : Descending keys queue) :
    ∀ other ∈ queue.dropWhile (fun other => key.toInt ≤ (keys other).toInt), (keys other).toInt < key.toInt := by
  induction queue with
  | nil => simp
  | cons first rest inductionHypothesis =>
    obtain ⟨ahead, later⟩ := List.pairwise_cons.mp descending
    by_cases large : key.toInt ≤ (keys first).toInt
    · have passes : decide (key.toInt ≤ (keys first).toInt) = true := decide_eq_true large
      simp only [List.dropWhile_cons, passes, if_true]
      exact inductionHypothesis later
    · have stops : decide (key.toInt ≤ (keys first).toInt) = false := decide_eq_false large
      simp only [List.dropWhile_cons, stops, Bool.false_eq_true, if_false]
      intro other member
      rcases List.mem_cons.mp member with rfl | behind
      · omega
      · have bound := ahead other behind
        omega

/-- A process between those with larger or equal keys and those with smaller ones. -/
theorem Descending.insert {keys : Int → Int32} (descending : Descending keys (front ++ back))
    (fresh : pid ∉ front ++ back) (large : ∀ other ∈ front, key.toInt ≤ (keys other).toInt)
    (small : ∀ other ∈ back, (keys other).toInt < key.toInt) :
    Descending (Function.update keys pid key) (front ++ pid :: back) := by
  have same : ∀ other ∈ front ++ back, Function.update keys pid key other = keys other := by
    intro other member
    apply Function.update_of_ne
    rintro rfl
    exact fresh member
  obtain ⟨frontSorted, backSorted, across⟩ := List.pairwise_append.mp descending
  apply List.pairwise_append.mpr
  constructor
  · apply frontSorted.imp_of_mem
    intro left right leftIn rightIn ordered
    simpa only [same left (by simp [leftIn]), same right (by simp [rightIn])] using ordered
  constructor
  · apply List.pairwise_cons.mpr
    constructor
    · intro other member
      simp only [Function.update_self, same other (by simp [member])]
      exact (small other member).le
    · apply backSorted.imp_of_mem
      intro left right leftIn rightIn ordered
      simpa only [same left (by simp [leftIn]), same right (by simp [rightIn])] using ordered
  · intro left leftIn right rightIn
    rcases List.mem_cons.mp rightIn with rfl | behind
    · simpa only [Function.update_self, same left (by simp [leftIn])] using large left leftIn
    · simpa only [same left (by simp [leftIn]), same right (by simp [behind])] using
        across left leftIn right behind

end Operations

/-- Every operation ends and acts on one list. -/
theorem operations_act_on_lists (k : Kernel) (live : Int → Prop) (queues : Int → List Int)
    (shared : Shared k live queues) (operation : Operation) (allowed : operation.Allowed live queues) :
    ∃ answer after, operation.run k = some (answer, after) ∧ k.SameBut after ∧
      operation.Does k live queues answer after := by
  have notEmpty : ∀ q pid, live q → pid ∈ queues q → pid ≠ empty := by
    intro q pid isLive member same
    have low := (shared.members q isLive pid member).1
    rw [same] at low
    exact absurd low (by decide)
  cases operation with
  | enqueue pid q =>
    obtain ⟨isLive, unlinked⟩ := allowed
    by_cases bad : k.isbadpid pid = true
    · refine ⟨syserr, k, ?_, rfl, ?_⟩
      · simp [Operation.run, enqueue, bad]
      · simp [Operation.Does, bad]
    · simp only [Bool.not_eq_true] at bad
      obtain ⟨after, done, same, keys, later⟩ := shared.enqueue isLive unlinked bad
      refine ⟨pid, after, congrArg some done, same, ?_⟩
      simp only [Operation.Does, bad, Bool.false_eq_true, if_false]
      exact ⟨trivial, keys, later⟩
  | dequeue q =>
    have good := shared.good allowed
    cases isQueue : queues q with
    | nil =>
      have nothing := (shared.isempty_iff allowed).mpr isQueue
      refine ⟨empty, k, ?_, rfl, ?_⟩
      · simp [Operation.run, dequeue, good, nothing]
      · simp [Operation.Does, isQueue]
    | cons first rest =>
      have something : k.isempty q = false := by simp [Bool.eq_false_iff, shared.isempty_iff allowed, isQueue]
      obtain ⟨after, done, same, keys, _, later⟩ := shared.getitem allowed (show queues q = [] ++ first :: rest from isQueue)
      have real := notEmpty q first allowed (isQueue ▸ List.mem_cons_self)
      have taken : getfirst k q = (first, after) := (shared.getfirst_cons allowed isQueue).trans done
      refine ⟨first, (after.setPrev first empty).setNext first empty, ?_, ?_, ?_⟩
      · simp [Operation.run, dequeue, good, something, taken]
      · unfold Kernel.SameBut at same ⊢
        rw [same]
        rfl
      · simp only [Operation.Does, isQueue, real, reduceCtorEq, false_imp_iff, setNext_keys, setPrev_keys, keys,
          List.cons.injEq, true_and]
        rintro _ _ ⟨rfl, rfl⟩
        exact ⟨rfl, later⟩
  | getfirst q =>
    cases isQueue : queues q with
    | nil =>
      have nothing := (shared.isempty_iff allowed).mpr isQueue
      refine ⟨empty, k, ?_, rfl, ?_⟩
      · simp [Operation.run, getfirst, nothing]
      · simp [Operation.Does, isQueue]
    | cons first rest =>
      obtain ⟨after, done, same, keys, later, _⟩ := shared.getitem allowed (show queues q = [] ++ first :: rest from isQueue)
      have real := notEmpty q first allowed (isQueue ▸ List.mem_cons_self)
      refine ⟨first, after, congrArg some ((shared.getfirst_cons allowed isQueue).trans done), same, ?_⟩
      simp only [Operation.Does, isQueue, real, reduceCtorEq, false_imp_iff, keys, List.cons.injEq, true_and]
      rintro _ _ ⟨rfl, rfl⟩
      exact ⟨rfl, later⟩
  | getlast q =>
    rcases List.eq_nil_or_concat' (queues q) with isQueue | ⟨front, last, isQueue⟩
    · have nothing := (shared.isempty_iff allowed).mpr isQueue
      refine ⟨empty, k, ?_, rfl, ?_⟩
      · simp [Operation.run, getlast, nothing]
      · simp [Operation.Does, isQueue]
    · obtain ⟨after, done, same, keys, later, _⟩ := shared.getitem allowed isQueue
      have real := notEmpty q last allowed (by simp [isQueue])
      refine ⟨last, after, congrArg some ((shared.getlast_concat allowed isQueue).trans done), same, ?_⟩
      simp only [List.append_nil] at later
      have some_ : front ++ [last] ≠ [] := by simp
      simp only [Operation.Does, isQueue, real, some_, false_imp_iff, keys, true_and]
      intro others other sameQueue
      obtain ⟨rfl, isLast⟩ := List.append_inj' sameQueue rfl
      cases isLast
      exact ⟨rfl, later⟩
  | getitem pid =>
    obtain ⟨q, isLive, member⟩ := allowed
    obtain ⟨front, back, cut⟩ := List.append_of_mem member
    obtain ⟨after, done, same, keys, _⟩ := shared.getitem isLive cut
    refine ⟨pid, after, congrArg some done, same, rfl, keys, ?_⟩
    intro other otherFront otherBack otherLive otherCut
    obtain ⟨final, otherDone, _, _, later, _⟩ := shared.getitem otherLive otherCut
    cases done.symm.trans otherDone
    exact later
  | insert pid q key =>
    obtain ⟨isLive, unlinked, high⟩ := allowed
    by_cases bad : k.isbadpid pid = true
    · refine ⟨syserr, k, ?_, rfl, ?_⟩
      · simp [Operation.run, insert, bad]
      · simp [Operation.Does, bad]
    · simp only [Bool.not_eq_true] at bad
      obtain ⟨after, done, same, keys, later⟩ := shared.insert isLive unlinked bad high
      refine ⟨ok, after, done, same, ?_⟩
      simp only [Operation.Does, bad, Bool.false_eq_true, if_false]
      refine ⟨trivial, keys, _, _, List.takeWhile_append_dropWhile.symm, later, ?_, ?_, ?_⟩
      · exact passed_takeWhile
      · intro other isFirst
        have stops := List.head?_dropWhile_not (fun other => decide (key.toInt ≤ (k.keys other).toInt)) (queues q)
        rw [isFirst] at stops
        exact not_le.mp (of_decide_eq_false (by simpa using stops))
      · intro descending
        have small := @descending_dropWhile key _ _ descending
        refine ⟨small, ?_⟩
        simp only [keys]
        apply Descending.insert
        · simpa only [List.takeWhile_append_dropWhile] using descending
        · simpa only [List.takeWhile_append_dropWhile] using unlinked q isLive
        · exact passed_takeWhile
        · exact small

/-- After the start, the null process is put into the empty ready list, beside the empty sleep queue. -/
theorem null_process_is_inserted : ∃ answer after, Operation.run boot (.insert 0 readyQueue 20) = some (answer, after) ∧
    answer = ok := by
  have shared : Shared boot (fun q => q = readyQueue ∨ q = sleepQueue) (fun _ => []) := by
    constructor
    · rintro q (rfl | rfl) <;> decide
    · rintro q (rfl | rfl) <;> decide
    · rintro q _ pid ⟨⟩
    · exact fun _ _ => List.nodup_nil
    · exact fun _ _ _ _ _ => List.disjoint_nil_left _
    · rintro q (rfl | rfl) <;> simp only [path, Linked, List.nil_append, List.cons_append,
        List.isChain_cons_cons, List.IsChain.singleton, and_true] <;> decide
    · rintro q (rfl | rfl) <;> decide
    · rintro q (rfl | rfl) <;> decide
  obtain ⟨answer, after, done, _, does⟩ := operations_act_on_lists boot _ _ shared (.insert 0 readyQueue 20)
    ⟨Or.inl rfl, fun q _ member => (List.not_mem_nil member).elim, by decide⟩
  have good : boot.isbadpid 0 = false := by decide
  simp only [Operation.Does, good, Bool.false_eq_true, if_false] at does
  exact ⟨answer, after, done, does.1⟩

end Xinu.Processes
