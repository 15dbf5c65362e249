import Xinu.FutureMemory
import Xinu.NullTerminated

/-!
# The queues of futures as lists

A queue of `future.c` is a header with the first and the last node, and nodes that know
the next and the previous one. Headers and nodes are blocks of the heap. Any number of
queues share it, with whatever else was taken before.

A header or a node is read and written only while it is in use: what a block holds
outside of that time is up to the heap, and an access there has no outcome. Neither has
a request that is refused, as its answer is used without a test.
-/

namespace Xinu.FutureQueues

open FutureMemory HeapMemory NullTerminated Runs

/-- `qnode_t`. -/
structure Qnode where
  pid : Int32
  next : Nat
  prev : Nat

/-- `queue_t`. -/
structure Queue where
  head : Nat
  tail : Nat

/-- The heap, and what its blocks hold when they are read as nodes and as headers. -/
structure State where
  kernel : Kernel
  node : Nat → Qnode
  queue : Nat → Queue

/-- The header of a queue as a block in use. -/
def queueGrant (q : Nat) : Grant := ⟨.memory, q, sizeofQueue⟩

theorem queueGrant_ne_nodeGrant (q node : Nat) : queueGrant q ≠ nodeGrant node := by
  simp [queueGrant, nodeGrant, sizeofQueue, sizeofQnode]

section Accesses

def State.withNode (s : State) (address : Nat) (node : Qnode) : State :=
  { s with node := Function.update s.node address node }

def State.withQueue (s : State) (q : Nat) (queue : Queue) : State :=
  { s with queue := Function.update s.queue q queue }

/-- A node is read. -/
def State.loadNode (s : State) (address : Nat) : Option Qnode :=
  if nodeGrant address ∈ s.kernel.live then some (s.node address) else none

/-- A field of a node is written. -/
def State.changeNode (s : State) (address : Nat) (change : Qnode → Qnode) : Option State :=
  if nodeGrant address ∈ s.kernel.live then some (s.withNode address (change (s.node address)))
  else none

/-- A header is read. -/
def State.loadQueue (s : State) (q : Nat) : Option Queue :=
  if queueGrant q ∈ s.kernel.live then some (s.queue q) else none

/-- A field of a header is written. -/
def State.changeQueue (s : State) (q : Nat) (change : Queue → Queue) : Option State :=
  if queueGrant q ∈ s.kernel.live then some (s.withQueue q (change (s.queue q))) else none

end Accesses

section Functions

def newNode (s : State) (pid : Int32) : Option (Nat × State) := do
  let (newNode, kernel) ← obtainBlock s.kernel sizeofQnode
  let s ← State.changeNode { s with kernel := kernel } newNode ({ · with pid := pid })
  let s ← s.changeNode newNode ({ · with next := null })
  let s ← s.changeNode newNode ({ · with prev := null })
  some (newNode, s)

def freeNode (s : State) (node : Nat) : Option State := do
  let (_, kernel) ← HeapMemory.step s.kernel (.freemem node sizeofQnode)
  some { s with kernel := kernel }

def initialQueue (s : State) : Option (Nat × State) := do
  let (q, kernel) ← obtainBlock s.kernel sizeofQueue
  let s ← State.changeQueue { s with kernel := kernel } q ({ · with head := null })
  let s ← s.changeQueue q ({ · with tail := null })
  some (q, s)

def isEmpty (s : State) (q : Nat) : Option Nat := do
  let header ← s.loadQueue q
  if header.head = null then some 1 else some 0

def fenqueue (s : State) (q : Nat) (pid : Int32) : Option State := do
  let (node, s) ← newNode s pid
  let s ← s.changeNode node ({ · with next := null })
  let header ← s.loadQueue q
  let s ← s.changeNode node ({ · with prev := header.tail })
  let s ← if header.tail ≠ null then s.changeNode header.tail ({ · with next := node }) else some s
  let s ← s.changeQueue q ({ · with tail := node })
  let header ← s.loadQueue q
  if header.head = null then s.changeQueue q ({ · with head := node }) else some s

def fdequeue (s : State) (q : Nat) : Option (Int32 × State) := do
  let node := (← s.loadQueue q).head
  let first ← s.loadNode node
  let s ← s.changeQueue q ({ · with head := first.next })
  let header ← s.loadQueue q
  let s ← if header.head ≠ null then s.changeNode header.head ({ · with prev := null }) else some s
  let s ← if header.head = null then s.changeQueue q ({ · with tail := null }) else some s
  let s ← freeNode s node
  some (first.pid, s)

end Functions

/-- The calls. -/
inductive Call where
  | initialQueue
  | fenqueue (q : Nat) (pid : Int32)
  | fdequeue (q : Nat)
deriving DecidableEq

/-- What a call does: a queue is made, a process enters it, a process leaves it. -/
inductive Effect where
  | made (q : Nat)
  | entered (q : Nat) (pid : Int32)
  | departed (q : Nat) (pid : Int32)
deriving DecidableEq

def step (s : State) : Call → Option (List Effect × State)
  | .initialQueue => (initialQueue s).map fun (q, s) => ([.made q], s)
  | .fenqueue q pid => (fenqueue s q pid).map fun s => ([.entered q pid], s)
  | .fdequeue q => (fdequeue s q).map fun (pid, s) => ([.departed q pid], s)

/-- The queues were made before they are used, and `fdequeue` is called only when `is_empty`
returns 0. -/
def Allowed (history : List Effect) (s : State) : Call → Prop
  | .initialQueue => True
  | .fenqueue q _ => .made q ∈ history
  | .fdequeue q => .made q ∈ history ∧ isEmpty s q = some 0

instance (history : List Effect) (s : State) (call : Call) : Decidable (Allowed history s call) :=
  match call with
  | .initialQueue => .isTrue trivial
  | .fenqueue q _ => inferInstanceAs (Decidable (.made q ∈ history))
  | .fdequeue q => inferInstanceAs (Decidable (.made q ∈ history ∧ isEmpty s q = some 0))

/-- The processes that have entered a queue, and those that have left it. -/
def arrivals (q : Nat) (history : List Effect) : List Int32 :=
  history.filterMap fun effect =>
    match effect with
    | .entered r pid => if r = q then some pid else none
    | .made _ | .departed _ _ => none

def departures (q : Nat) (history : List Effect) : List Int32 :=
  history.filterMap fun effect =>
    match effect with
    | .departed r pid => if r = q then some pid else none
    | .made _ | .entered _ _ => none

/-- The nodes of a queue, the oldest first. Both chains list them. -/
structure Lists (s : State) (q : Nat) (nodes : List Nat) : Prop where
  header : queueGrant q ∈ s.kernel.live
  inUse : ∀ node ∈ nodes, nodeGrant node ∈ s.kernel.live
  distinct : nodes.Nodup
  forward : Reaches (fun node => (s.node node).next) null (s.queue q).head nodes
  backward : Reaches (fun node => (s.node node).prev) null (s.queue q).tail nodes.reverse

/-- The processes on some nodes. -/
def pids (s : State) (nodes : List Nat) : List Int32 := nodes.map fun node => (s.node node).pid

section Blocks

variable {low high : Nat} {k k' : Kernel} {nbytes address : Nat}

/-- No block is in use twice. -/
theorem live_nodup (sound : k.Sound low high) : k.live.Nodup := by
  obtain ⟨blocks, heap⟩ := sound.heap
  have apart := List.pairwise_map.mp (List.pairwise_append.mp heap.tiles.disjoint).2.1
  refine apart.imp_of_mem ?_
  intro left right inLive _ disjoint same
  have someBytes := (sound.grants left inLive).someBytes
  have enough := (roundmb_bounds (sound.grants left inLive).small).1
  have positive : 0 < left.range.length := by
    unfold Grant.range
    cases left.kind <;> exact Nat.lt_of_lt_of_le someBytes enough
  have inside : left.range.start ∈ left.range.points :=
    ⟨Nat.le_refl _, Nat.lt_add_of_pos_right positive⟩
  rw [← same] at disjoint
  exact Set.disjoint_left.mp disjoint inside inside

/-- A block that is obtained was not in use, and is not the null pointer. -/
theorem obtainBlock_fresh (sound : k.Sound low high) (someBytes : 0 < nbytes)
    (small : nbytes ≤ 0xFFFFFFF8) (obtained : obtainBlock k nbytes = some (address, k')) :
    ⟨.memory, address, nbytes⟩ ∉ k.live ∧ address ≠ null := by
  obtain ⟨sound', live⟩ := obtainBlock_done sound someBytes small obtained
  have distinct := live_nodup sound'
  rw [live] at distinct
  refine ⟨(List.nodup_cons.mp distinct).1, ?_⟩
  obtain ⟨blocks, heap⟩ := sound'.heap
  have member : Grant.range ⟨.memory, address, nbytes⟩ ∈ blocks ++ k'.live.map Grant.range := by
    rw [live]
    exact List.mem_append_right _ (List.mem_map_of_mem List.mem_cons_self)
  have enough := (roundmb_bounds small).1
  have inside := (heap.tiles.inside member (Nat.lt_of_lt_of_le someBytes enough)).1
  exact Nat.ne_of_gt (Nat.lt_of_lt_of_le heap.someAddress inside)

end Blocks

section Execution

variable {s t : State} {q node address : Nat} {pid : Int32} {kernel : Kernel}

theorem changeNode_of_live (inUse : nodeGrant address ∈ s.kernel.live) (change : Qnode → Qnode) :
    s.changeNode address change = some (s.withNode address (change (s.node address))) :=
  if_pos inUse

theorem changeQueue_of_live (inUse : queueGrant q ∈ s.kernel.live) (change : Queue → Queue) :
    s.changeQueue q change = some (s.withQueue q (change (s.queue q))) :=
  if_pos inUse

theorem loadNode_of_live (inUse : nodeGrant address ∈ s.kernel.live) :
    s.loadNode address = some (s.node address) :=
  if_pos inUse

theorem loadQueue_of_live (inUse : queueGrant q ∈ s.kernel.live) :
    s.loadQueue q = some (s.queue q) :=
  if_pos inUse

@[simp] theorem withNode_kernel (s : State) (address : Nat) (node : Qnode) :
    (s.withNode address node).kernel = s.kernel := rfl

@[simp] theorem withNode_queue (s : State) (address : Nat) (node : Qnode) :
    (s.withNode address node).queue = s.queue := rfl

@[simp] theorem withNode_self (s : State) (address : Nat) (node : Qnode) :
    (s.withNode address node).node address = node := Function.update_self ..

@[simp] theorem withNode_other (s : State) {address other : Nat} (node : Qnode)
    (apart : other ≠ address) : (s.withNode address node).node other = s.node other :=
  Function.update_of_ne apart ..

@[simp] theorem withNode_again (s : State) (address : Nat) (node other : Qnode) :
    (s.withNode address node).withNode address other = s.withNode address other := by
  simp [State.withNode]

@[simp] theorem withQueue_kernel (s : State) (q : Nat) (queue : Queue) :
    (s.withQueue q queue).kernel = s.kernel := rfl

@[simp] theorem withQueue_node (s : State) (q : Nat) (queue : Queue) :
    (s.withQueue q queue).node = s.node := rfl

@[simp] theorem withQueue_self (s : State) (q : Nat) (queue : Queue) :
    (s.withQueue q queue).queue q = queue := Function.update_self ..

@[simp] theorem withQueue_other (s : State) {q other : Nat} (queue : Queue) (apart : other ≠ q) :
    (s.withQueue q queue).queue other = s.queue other :=
  Function.update_of_ne apart ..

@[simp] theorem withQueue_again (s : State) (q : Nat) (queue other : Queue) :
    (s.withQueue q queue).withQueue q other = s.withQueue q other := by
  simp [State.withQueue]

/-- A field of a node that was just written. -/
theorem changeNode_again (inUse : nodeGrant address ∈ s.kernel.live) (written : Qnode)
    (change : Qnode → Qnode) : (s.withNode address written).changeNode address change =
      some (s.withNode address (change written)) := by
  rw [changeNode_of_live (s := s.withNode address written) inUse, withNode_again, withNode_self]

/-- A field of a header that was just written. -/
theorem changeQueue_again (inUse : queueGrant q ∈ s.kernel.live) (written : Queue)
    (change : Queue → Queue) : (s.withQueue q written).changeQueue q change =
      some (s.withQueue q (change written)) := by
  rw [changeQueue_of_live (s := s.withQueue q written) inUse, withQueue_again, withQueue_self]

/-- A new node is in no chain. -/
theorem newNode_eq (obtained : obtainBlock s.kernel sizeofQnode = some (node, kernel))
    (inUse : nodeGrant node ∈ kernel.live) :
    newNode s pid = some (node, State.withNode { s with kernel := kernel } node ⟨pid, null, null⟩) := by
  have first := changeNode_of_live (s := { s with kernel := kernel }) inUse ({ · with pid := pid })
  simp only [newNode, obtained, Option.bind_eq_bind, Option.bind_some, first, changeNode_again, inUse]

/-- A node behind no other. -/
theorem fenqueue_first (obtained : obtainBlock s.kernel sizeofQnode = some (node, kernel))
    (inUse : nodeGrant node ∈ kernel.live) (header : queueGrant q ∈ kernel.live)
    (noHead : (s.queue q).head = null) (noTail : (s.queue q).tail = null) :
    fenqueue s q pid = some ((State.withNode { s with kernel := kernel } node
      ⟨pid, null, null⟩).withQueue q ⟨node, node⟩) := by
  have load := loadQueue_of_live (s := State.withNode { s with kernel := kernel } node
    ⟨pid, null, null⟩) header
  have write := changeQueue_of_live (s := State.withNode { s with kernel := kernel } node
    ⟨pid, null, null⟩) header
  have reload := loadQueue_of_live (s := (State.withNode { s with kernel := kernel } node
    ⟨pid, null, null⟩).withQueue q ⟨null, node⟩) header
  have rewrite := changeQueue_again (s := State.withNode { s with kernel := kernel } node
    ⟨pid, null, null⟩) header
  simp [fenqueue, newNode_eq obtained inUse, changeNode_again, inUse, load, write, reload, rewrite,
    noHead, noTail]

/-- A node behind the last one. -/
theorem fenqueue_behind (obtained : obtainBlock s.kernel sizeofQnode = some (node, kernel))
    (inUse : nodeGrant node ∈ kernel.live) (header : queueGrant q ∈ kernel.live)
    (someHead : (s.queue q).head ≠ null) (someTail : (s.queue q).tail ≠ null)
    (tailInUse : nodeGrant (s.queue q).tail ∈ kernel.live) (apart : (s.queue q).tail ≠ node) :
    fenqueue s q pid = some (((State.withNode { s with kernel := kernel } node
      ⟨pid, null, (s.queue q).tail⟩).withNode (s.queue q).tail
        { s.node (s.queue q).tail with next := node }).withQueue q ⟨(s.queue q).head, node⟩) := by
  have load := loadQueue_of_live (s := State.withNode { s with kernel := kernel } node
    ⟨pid, null, null⟩) header
  have link := changeNode_of_live (s := State.withNode { s with kernel := kernel } node
    ⟨pid, null, (s.queue q).tail⟩) tailInUse
  have write := changeQueue_of_live (s := (State.withNode { s with kernel := kernel } node
    ⟨pid, null, (s.queue q).tail⟩).withNode (s.queue q).tail
      { s.node (s.queue q).tail with next := node }) header
  have reload := loadQueue_of_live (s := ((State.withNode { s with kernel := kernel } node
    ⟨pid, null, (s.queue q).tail⟩).withNode (s.queue q).tail
      { s.node (s.queue q).tail with next := node }).withQueue q ⟨(s.queue q).head, node⟩) header
  simp [fenqueue, newNode_eq obtained inUse, changeNode_again, inUse, load, link, write, reload,
    someHead, someTail, apart]

/-- The first of several nodes. -/
theorem fdequeue_first {after : Kernel} (header : queueGrant q ∈ s.kernel.live)
    (inUse : nodeGrant (s.queue q).head ∈ s.kernel.live)
    (more : (s.node (s.queue q).head).next ≠ null)
    (nextInUse : nodeGrant (s.node (s.queue q).head).next ∈ s.kernel.live)
    (freed : HeapMemory.step s.kernel (.freemem (s.queue q).head sizeofQnode) = some (ok, after)) :
    fdequeue s q = some ((s.node (s.queue q).head).pid,
      { (s.withQueue q { s.queue q with head := (s.node (s.queue q).head).next }).withNode
          (s.node (s.queue q).head).next
          { s.node (s.node (s.queue q).head).next with prev := null } with kernel := after }) := by
  have reload := loadQueue_of_live (s := s.withQueue q
    { s.queue q with head := (s.node (s.queue q).head).next }) header
  have link := changeNode_of_live (s := s.withQueue q
    { s.queue q with head := (s.node (s.queue q).head).next }) nextInUse
  simp [fdequeue, loadQueue_of_live header, loadNode_of_live inUse, changeQueue_of_live header,
    reload, link, more, freeNode, freed]

/-- The only node. -/
theorem fdequeue_only {after : Kernel} (header : queueGrant q ∈ s.kernel.live)
    (inUse : nodeGrant (s.queue q).head ∈ s.kernel.live)
    (only : (s.node (s.queue q).head).next = null)
    (freed : HeapMemory.step s.kernel (.freemem (s.queue q).head sizeofQnode) = some (ok, after)) :
    fdequeue s q = some ((s.node (s.queue q).head).pid,
      { s.withQueue q ⟨null, null⟩ with kernel := after }) := by
  have reload := loadQueue_of_live (s := s.withQueue q { s.queue q with head := null }) header
  simp [fdequeue, loadQueue_of_live header, loadNode_of_live inUse, changeQueue_of_live header,
    changeQueue_again header, reload, only, freeNode, freed]

end Execution

section Chains

variable {low high : Nat} {s t : State} {q r node : Nat} {nodes : List Nat} {pid : Int32} {kernel : Kernel}

/-- A queue that an operation leaves alone. -/
theorem Lists.frame (lists : Lists s r nodes) (header : queueGrant r ∈ t.kernel.live)
    (inUse : ∀ node ∈ nodes, nodeGrant node ∈ t.kernel.live)
    (same : ∀ node ∈ nodes, t.node node = s.node node) (sameHeader : t.queue r = s.queue r) :
    Lists t r nodes := by
  refine ⟨header, inUse, lists.distinct, ?_, ?_⟩
  · rw [sameHeader]
    exact lists.forward.congr fun node member => congrArg Qnode.next (same node member)
  · rw [sameHeader]
    refine lists.backward.congr fun node member => congrArg Qnode.prev (same node ?_)
    exact List.mem_reverse.mp member

/-- Both pointers of a header are null where nobody waits, and only there. -/
theorem Lists.ends (lists : Lists s q nodes) :
    (nodes = [] ↔ (s.queue q).head = null) ∧ (nodes = [] ↔ (s.queue q).tail = null) :=
  ⟨lists.forward.nil_iff, List.reverse_eq_nil_iff.symm.trans lists.backward.nil_iff⟩

/-- `is_empty` tells whether nobody waits. -/
theorem Lists.isEmpty_eq (lists : Lists s q nodes) :
    isEmpty s q = some (if nodes = [] then 1 else 0) := by
  simp only [isEmpty, loadQueue_of_live lists.header, lists.ends.1, Option.bind_eq_bind, Option.bind_some]
  split <;> rfl

/-- A node has entered a queue. -/
structure Entered (low high : Nat) (s t : State) (q : Nat) (nodes : List Nat) (node : Nat) (pid : Int32) :
    Prop where
  obtained : obtainBlock s.kernel sizeofQnode = some (node, t.kernel)
  sound : t.kernel.Sound low high
  live : t.kernel.live = nodeGrant node :: s.kernel.live
  unused : nodeGrant node ∉ s.kernel.live
  lists : Lists t q (nodes ++ [node])
  pid : (t.node node).pid = pid
  others : ∀ other, other ≠ node → (t.node other).pid = (s.node other).pid
  nodes : ∀ other, other ∉ nodes ++ [node] → t.node other = s.node other
  queues : ∀ other, other ≠ q → t.queue other = s.queue other

/-- `fenqueue` puts a node that was not in use behind the others. -/
theorem Lists.fenqueue (sound : s.kernel.Sound low high) (lists : Lists s q nodes)
    (obtained : obtainBlock s.kernel sizeofQnode = some (node, kernel)) (pid : Int32) :
    ∃ t, FutureQueues.fenqueue s q pid = some t ∧ Entered low high s t q nodes node pid := by
  obtain ⟨sound', live⟩ := obtainBlock_done sound (by decide) (by decide) obtained
  obtain ⟨unused, notNull⟩ := obtainBlock_fresh sound (by decide) (by decide) obtained
  have inUse : nodeGrant node ∈ kernel.live := live ▸ List.mem_cons_self
  have kept : ∀ grant ∈ s.kernel.live, grant ∈ kernel.live :=
    fun grant member => live ▸ List.mem_cons_of_mem _ member
  have outside : node ∉ nodes := fun member => unused (lists.inUse node member)
  have distinct : (nodes ++ [node]).Nodup :=
    List.nodup_append_comm.mp (List.nodup_cons.mpr ⟨outside, lists.distinct⟩)
  have allInUse : ∀ other ∈ nodes ++ [node], nodeGrant other ∈ kernel.live := by
    intro other member
    rcases List.mem_append.mp member with old | new
    · exact kept _ (lists.inUse other old)
    · rw [List.mem_singleton.mp new]
      exact inUse
  rcases List.eq_nil_or_concat nodes with rfl | ⟨front, last, rfl⟩
  · have noHead := lists.ends.1.mp rfl
    have noTail := lists.ends.2.mp rfl
    refine ⟨_, fenqueue_first obtained inUse (kept _ lists.header) noHead noTail, ?_⟩
    refine ⟨obtained, sound', live, unused, ⟨kept _ lists.header, allInUse, distinct, ?_, ?_⟩, ?_, ?_, ?_, ?_⟩
    · simp [Reaches, notNull]
    · simp [Reaches, notNull]
    · simp
    · intro other apart
      simp [apart]
    · intro other elsewhere
      have apart : other ≠ node := fun same => elsewhere (by simp [same])
      simp [apart]
    · intro other apart
      simp [apart]
  · rw [List.concat_eq_append] at *
    have isTail : (s.queue q).tail = last := by
      have backward := lists.backward
      rw [List.reverse_append] at backward
      exact backward.1
    have inList : last ∈ front ++ [last] := List.mem_append_right _ List.mem_cons_self
    have apart : last ≠ node := ne_of_mem_of_not_mem inList outside
    have some_ : front ++ [last] ≠ [] := List.append_ne_nil_of_right_ne_nil _ (List.cons_ne_nil _ _)
    have completed : FutureQueues.fenqueue s q pid = some _ := fenqueue_behind obtained inUse
      (kept _ lists.header) (fun isNull => some_ (lists.ends.1.mpr isNull))
      (fun isNull => some_ (lists.ends.2.mpr isNull)) (isTail ▸ kept _ (lists.inUse last inList)) (isTail ▸ apart)
    rw [isTail] at completed
    refine ⟨_, completed, obtained, sound', live, unused, ⟨kept _ lists.header, allInUse, distinct, ?_, ?_⟩,
      ?_, ?_, ?_, ?_⟩
    · rw [withQueue_self]
      refine (lists.forward.appended lists.distinct outside notNull).congr ?_
      intro cell _
      by_cases isLast : cell = last
      · simp [isLast]
      · by_cases isNew : cell = node
        · simp [isNew, apart.symm]
        · simp [isNew, isLast]
    · rw [withQueue_self, List.reverse_append]
      refine (lists.backward.cons (fun member => outside (List.mem_reverse.mp member)) notNull).congr ?_
      intro cell _
      by_cases isLast : cell = last
      · simp [isLast, apart]
      · by_cases isNew : cell = node
        · simp [isNew, apart.symm, isTail]
        · simp [isNew, isLast]
    · simp [apart.symm]
    · intro other isOther
      by_cases isLast : other = last
      · simp [isLast]
      · simp [isOther, isLast]
    · intro other elsewhere
      have notLast : other ≠ last := fun same => elsewhere (by simp [same])
      have notNew : other ≠ node := fun same => elsewhere (by simp [same])
      simp [notLast, notNew]
    · intro other apart
      simp [apart]

/-- The first node has left a queue. -/
structure Departed (low high : Nat) (s t : State) (q : Nat) (node : Nat) (rest : List Nat) : Prop where
  freed : HeapMemory.step s.kernel (.freemem node sizeofQnode) = some (ok, t.kernel)
  sound : t.kernel.Sound low high
  live : t.kernel.live = s.kernel.live.erase (nodeGrant node)
  unused : nodeGrant node ∉ t.kernel.live
  lists : Lists t q rest
  pids : ∀ other, (t.node other).pid = (s.node other).pid
  nodes : ∀ other, other ∉ node :: rest → t.node other = s.node other
  queues : ∀ other, other ≠ q → t.queue other = s.queue other

/-- `fdequeue` takes the oldest node out and gives it back. -/
theorem Lists.fdequeue {rest : List Nat} (sound : s.kernel.Sound low high)
    (lists : Lists s q (node :: rest)) :
    ∃ t, FutureQueues.fdequeue s q = some ((s.node node).pid, t) ∧ Departed low high s t q node rest := by
  have isHead : (s.queue q).head = node := lists.forward.1
  have inUse := lists.inUse node List.mem_cons_self
  obtain ⟨after, freed, sound', live⟩ := freemem_done sound inUse
  obtain ⟨outside, distinct⟩ := List.nodup_cons.mp lists.distinct
  have unused : nodeGrant node ∉ after.live := by
    rw [live]
    exact (live_nodup sound).not_mem_erase
  have header : queueGrant q ∈ after.live := by
    rw [live]
    exact (List.mem_erase_of_ne (queueGrant_ne_nodeGrant _ _)).mpr lists.header
  have restInUse : ∀ other ∈ rest, nodeGrant other ∈ after.live := by
    intro other member
    have apart : other ≠ node := ne_of_mem_of_not_mem member outside
    rw [live]
    refine (List.mem_erase_of_ne ?_).mpr (lists.inUse other (List.mem_cons_of_mem _ member))
    simpa [nodeGrant] using apart
  have forward := lists.forward.2.2
  cases rest with
  | nil =>
    have only : (s.node node).next = null := forward
    have completed := fdequeue_only lists.header (isHead ▸ inUse) (isHead ▸ only) (isHead ▸ freed)
    rw [isHead] at completed
    refine ⟨_, completed, freed, sound', live, unused, ⟨header, restInUse, distinct, ?_, ?_⟩, ?_, ?_, ?_⟩
    · simp [Reaches]
    · simp [Reaches]
    · intro other
      rfl
    · intro other _
      rfl
    · intro other apart
      simp [apart]
  | cons first later =>
    have isNext : (s.node node).next = first := forward.1
    have nextInUse := lists.inUse first (List.mem_cons_of_mem _ List.mem_cons_self)
    have freedHead : HeapMemory.step s.kernel (.freemem (s.queue q).head sizeofQnode) = some (ok, after) :=
      isHead ▸ freed
    have completed := fdequeue_first lists.header (isHead ▸ inUse)
      (by rw [isHead, isNext]; exact forward.2.1) (by rw [isHead, isNext]; exact nextInUse) freedHead
    rw [isHead, isNext] at completed
    refine ⟨_, completed, freed, sound', live, unused, ⟨header, restInUse, distinct, ?_, ?_⟩, ?_, ?_, ?_⟩
    · have chain : Reaches (fun node => (s.node node).next) null first (first :: later) := isNext ▸ forward
      rw [withNode_queue, withQueue_self]
      refine chain.congr ?_
      intro cell _
      by_cases isFirst : cell = first
      · simp [isFirst]
      · simp [isFirst]
    · have backward := lists.backward
      rw [List.reverse_cons, List.reverse_cons, List.append_assoc] at backward
      have alone : first ∉ later.reverse :=
        fun member => (List.nodup_cons.mp distinct).1 (List.mem_reverse.mp member)
      rw [withNode_queue, withQueue_self, List.reverse_cons]
      refine (backward.cut alone).congr ?_
      intro cell _
      by_cases isFirst : cell = first
      · simp [isFirst]
      · simp [isFirst]
    · intro other
      by_cases isFirst : other = first
      · simp [isFirst]
      · simp [isFirst]
    · intro other elsewhere
      have apart : other ≠ first := fun same => elsewhere (by simp [same])
      simp [apart]
    · intro other apart
      simp [apart]

/-- The block that `fenqueue` takes and the block that `fdequeue` gives back are those of the memory of a
future. -/
theorem Lists.fenqueue_memory (sound : s.kernel.Sound low high) (lists : Lists s q nodes)
    (obtained : obtainBlock s.kernel sizeofQnode = some (node, kernel)) (pid : Int32) (m : Memory)
    (side : Side) (sameKernel : m.kernel = s.kernel) (sameNodes : m.nodes side = nodes) :
    ∃ t m', FutureQueues.fenqueue s q pid = some t ∧ m.apply (.fenqueue side) = some m' ∧
      m'.kernel = t.kernel ∧ Lists t q (m'.nodes side) := by
  obtain ⟨t, completed, entered⟩ := lists.fenqueue sound obtained pid
  refine ⟨t, { m with kernel := t.kernel, nodes := Function.update m.nodes side (m.nodes side ++ [node]) },
    completed, ?_, rfl, ?_⟩
  · simp [Memory.apply, sameKernel, entered.obtained]
  · simpa [sameNodes] using entered.lists

theorem Lists.fdequeue_memory {rest : List Nat} (sound : s.kernel.Sound low high)
    (lists : Lists s q (node :: rest)) (m : Memory) (side : Side) (sameKernel : m.kernel = s.kernel)
    (sameNodes : m.nodes side = node :: rest) :
    ∃ t m', FutureQueues.fdequeue s q = some ((s.node node).pid, t) ∧
      m.apply (.fdequeue side) = some m' ∧ m'.kernel = t.kernel ∧ Lists t q (m'.nodes side) := by
  obtain ⟨t, completed, departed⟩ := lists.fdequeue sound
  refine ⟨t, { m with kernel := t.kernel, nodes := Function.update m.nodes side rest }, completed, ?_, rfl, ?_⟩
  · simp [Memory.apply, sameNodes, sameKernel, departed.freed]
  · simpa using departed.lists

/-- A new queue, which was not in use. -/
theorem initialQueue_lists (sound : s.kernel.Sound low high)
    (obtained : obtainBlock s.kernel sizeofQueue = some (q, kernel)) :
    ∃ t, initialQueue s = some (q, t) ∧ t.kernel.Sound low high ∧
      t.kernel.live = queueGrant q :: s.kernel.live ∧ queueGrant q ∉ s.kernel.live ∧ Lists t q [] ∧
      t.node = s.node ∧ ∀ other, other ≠ q → t.queue other = s.queue other := by
  obtain ⟨sound', live⟩ := obtainBlock_done sound (by decide) (by decide) obtained
  obtain ⟨unused, _⟩ := obtainBlock_fresh sound (by decide) (by decide) obtained
  have inUse : queueGrant q ∈ kernel.live := live ▸ List.mem_cons_self
  have completed : initialQueue s =
      some (q, State.withQueue { s with kernel := kernel } q ⟨null, null⟩) := by
    have first := changeQueue_of_live (s := { s with kernel := kernel }) inUse ({ · with head := null })
    simp only [initialQueue, obtained, Option.bind_eq_bind, Option.bind_some, first, changeQueue_again,
      inUse]
  refine ⟨_, completed, sound', live, unused, ⟨inUse, ?_, List.nodup_nil, ?_, ?_⟩, rfl, ?_⟩
  · simp
  · simp [Reaches]
  · simp [Reaches]
  · intro other apart
    simp [apart]

end Chains

section Histories

variable {low high : Nat} {s t : State} {history output : List Effect} {nodes : Nat → List Nat} {call : Call}

@[simp] theorem arrivals_made (q r : Nat) (history : List Effect) :
    arrivals q (history ++ [.made r]) = arrivals q history := by
  simp [arrivals]

@[simp] theorem arrivals_entered (q r : Nat) (pid : Int32) (history : List Effect) :
    arrivals q (history ++ [.entered r pid]) = arrivals q history ++ if r = q then [pid] else [] := by
  by_cases same : r = q <;> simp [arrivals, same]

@[simp] theorem arrivals_departed (q r : Nat) (pid : Int32) (history : List Effect) :
    arrivals q (history ++ [.departed r pid]) = arrivals q history := by
  simp [arrivals]

@[simp] theorem departures_made (q r : Nat) (history : List Effect) :
    departures q (history ++ [.made r]) = departures q history := by
  simp [departures]

@[simp] theorem departures_entered (q r : Nat) (pid : Int32) (history : List Effect) :
    departures q (history ++ [.entered r pid]) = departures q history := by
  simp [departures]

@[simp] theorem departures_departed (q r : Nat) (pid : Int32) (history : List Effect) :
    departures q (history ++ [.departed r pid]) = departures q history ++ if r = q then [pid] else [] := by
  by_cases same : r = q <;> simp [departures, same]

/-- The queues that were made are lists of nodes of their own, which hold the processes that have
not left them. -/
structure Holds (low high : Nat) (s : State) (history : List Effect) (nodes : Nat → List Nat) : Prop where
  sound : s.kernel.Sound low high
  lists : ∀ q, .made q ∈ history → Lists s q (nodes q)
  apart : ∀ q r, q ≠ r → (nodes q).Disjoint (nodes r)
  unmade : ∀ q, .made q ∉ history → nodes q = []
  order : ∀ q, arrivals q history = departures q history ++ pids s (nodes q)

theorem Holds.initialQueue (holds : Holds low high s history nodes) {q : Nat} {kernel : Kernel}
    (obtained : obtainBlock s.kernel sizeofQueue = some (q, kernel)) :
    ∃ t, step s .initialQueue = some ([.made q], t) ∧ Holds low high t (history ++ [.made q]) nodes := by
  obtain ⟨t, completed, sound, live, unused, lists, sameNodes, sameQueues⟩ :=
    initialQueue_lists holds.sound obtained
  have isNew : .made q ∉ history := fun wasMade => unused (holds.lists q wasMade).header
  have kept : ∀ grant ∈ s.kernel.live, grant ∈ t.kernel.live :=
    fun grant member => live ▸ List.mem_cons_of_mem _ member
  refine ⟨t, by simp [step, completed], sound, ?_, holds.apart, ?_, ?_⟩
  · intro r wasMade
    rcases eq_or_ne r q with rfl | other
    · rw [holds.unmade r isNew]
      exact lists
    · have before : .made r ∈ history := by simpa [other] using wasMade
      have old := holds.lists r before
      exact old.frame (kept _ old.header) (fun node member => kept _ (old.inUse node member))
        (fun node _ => congrFun sameNodes node) (sameQueues r other)
  · intro r notMade
    exact holds.unmade r fun before => notMade (List.mem_append_left _ before)
  · intro r
    simpa [pids, sameNodes] using holds.order r

/-- No node is in two queues after one of them has changed. -/
theorem disjoint_update {q : Nat} {list : List Nat} (apart : ∀ q r, q ≠ r → (nodes q).Disjoint (nodes r))
    (here : ∀ r, r ≠ q → list.Disjoint (nodes r)) (left right : Nat) (different : left ≠ right) :
    (Function.update nodes q list left).Disjoint (Function.update nodes q list right) := by
  by_cases isLeft : left = q
  · have isOther : right ≠ q := fun same => different (isLeft.trans same.symm)
    rw [isLeft, Function.update_self, Function.update_of_ne isOther]
    exact here right isOther
  · by_cases isRight : right = q
    · rw [isRight, Function.update_self, Function.update_of_ne isLeft]
      exact (here left isLeft).symm
    · rw [Function.update_of_ne isLeft, Function.update_of_ne isRight]
      exact apart left right different

theorem Holds.fenqueue (holds : Holds low high s history nodes) {q node : Nat} {kernel : Kernel}
    (wasMade : .made q ∈ history) (obtained : obtainBlock s.kernel sizeofQnode = some (node, kernel))
    (pid : Int32) : ∃ t, step s (.fenqueue q pid) = some ([.entered q pid], t) ∧
      Holds low high t (history ++ [.entered q pid]) (Function.update nodes q (nodes q ++ [node])) := by
  obtain ⟨t, completed, entered⟩ := (holds.lists q wasMade).fenqueue holds.sound obtained pid
  have kept : ∀ grant ∈ s.kernel.live, grant ∈ t.kernel.live :=
    fun grant member => entered.live ▸ List.mem_cons_of_mem _ member
  have used : ∀ r, ∀ other ∈ nodes r, nodeGrant other ∈ s.kernel.live := by
    intro r other member
    by_cases before : .made r ∈ history
    · exact (holds.lists r before).inUse other member
    · rw [holds.unmade r before] at member
      cases member
  have fresh : ∀ r, node ∉ nodes r := fun r member => entered.unused (used r node member)
  have elsewhere : ∀ r, r ≠ q → (nodes q ++ [node]).Disjoint (nodes r) := by
    intro r other
    refine List.disjoint_append_left.mpr ⟨holds.apart q r other.symm, ?_⟩
    exact List.disjoint_left.mpr (by simpa using fresh r)
  refine ⟨t, by simp [step, completed], entered.sound, ?_, disjoint_update holds.apart elsewhere, ?_, ?_⟩
  · intro r nowMade
    have before : .made r ∈ history := by simpa using nowMade
    by_cases isOther : r = q
    · rw [isOther, Function.update_self]
      exact entered.lists
    · have old := holds.lists r before
      rw [Function.update_of_ne isOther]
      exact old.frame (kept _ old.header) (fun node member => kept _ (old.inUse node member))
        (fun node member => entered.nodes node fun inside => elsewhere r isOther inside member)
        (entered.queues r isOther)
  · intro r notMade
    have isOther : r ≠ q := by
      rintro rfl
      exact notMade (List.mem_append_left _ wasMade)
    rw [Function.update_of_ne isOther]
    exact holds.unmade r fun before => notMade (List.mem_append_left _ before)
  · intro r
    have same : pids t (nodes r) = pids s (nodes r) :=
      List.map_congr_left fun other member => entered.others other (ne_of_mem_of_not_mem member (fresh r))
    by_cases isOther : r = q
    · subst isOther
      have longer : pids t (nodes r ++ [node]) = pids s (nodes r) ++ [pid] := by
        rw [← same, pids, List.map_append, List.map_singleton, entered.pid, pids]
      rw [arrivals_entered, departures_entered, if_pos rfl, Function.update_self, longer, holds.order r,
        List.append_assoc]
    · rw [arrivals_entered, departures_entered, if_neg (Ne.symm isOther), Function.update_of_ne isOther, same,
        List.append_nil]
      exact holds.order r

theorem Holds.fdequeue (holds : Holds low high s history nodes) {q node : Nat} {rest : List Nat}
    (wasMade : .made q ∈ history) (first : nodes q = node :: rest) :
    ∃ t, step s (.fdequeue q) = some ([.departed q (s.node node).pid], t) ∧
      Holds low high t (history ++ [.departed q (s.node node).pid]) (Function.update nodes q rest) := by
  have here := holds.lists q wasMade
  rw [first] at here
  obtain ⟨t, completed, departed⟩ := here.fdequeue holds.sound
  have within : ∀ r, r ≠ q → (node :: rest).Disjoint (nodes r) :=
    fun r isOther => first ▸ holds.apart q r isOther.symm
  refine ⟨t, by simp [step, completed], departed.sound, ?_,
    disjoint_update holds.apart fun r isOther => (List.disjoint_cons_left.mp (within r isOther)).2, ?_, ?_⟩
  · intro r nowMade
    have before : .made r ∈ history := by simpa using nowMade
    by_cases isOther : r = q
    · rw [isOther, Function.update_self]
      exact departed.lists
    · have old := holds.lists r before
      rw [Function.update_of_ne isOther]
      refine old.frame ?_ ?_ (fun other member => departed.nodes other fun inside =>
        within r isOther inside member) (departed.queues r isOther)
      · rw [departed.live]
        exact (List.mem_erase_of_ne (queueGrant_ne_nodeGrant _ _)).mpr old.header
      · intro other member
        have apart : other ≠ node := by
          rintro rfl
          exact within r isOther List.mem_cons_self member
        rw [departed.live]
        exact (List.mem_erase_of_ne (by simpa [nodeGrant] using apart)).mpr (old.inUse other member)
  · intro r notMade
    have isOther : r ≠ q := by
      rintro rfl
      exact notMade (List.mem_append_left _ wasMade)
    rw [Function.update_of_ne isOther]
    exact holds.unmade r fun before => notMade (List.mem_append_left _ before)
  · intro r
    have same : ∀ list, pids t list = pids s list :=
      fun list => List.map_congr_left fun other _ => departed.pids other
    rw [arrivals_departed, departures_departed, holds.order r, same]
    by_cases isOther : r = q
    · subst isOther
      rw [if_pos rfl, Function.update_self, first, List.append_assoc]
      rfl
    · rw [if_neg (Ne.symm isOther), Function.update_of_ne isOther, List.append_nil]

/-- What `initial_queue` and `fenqueue` write into was obtained. -/
theorem initialQueue_obtains {q : Nat} (completed : initialQueue s = some (q, t)) :
    ∃ kernel, obtainBlock s.kernel sizeofQueue = some (q, kernel) := by
  obtain ⟨⟨address, kernel⟩, obtained, later⟩ := Option.bind_eq_some_iff.mp completed
  obtain ⟨_, _, later⟩ := Option.bind_eq_some_iff.mp later
  obtain ⟨_, _, result⟩ := Option.bind_eq_some_iff.mp later
  cases result
  exact ⟨kernel, obtained⟩

theorem fenqueue_obtains {q : Nat} {pid : Int32} (completed : FutureQueues.fenqueue s q pid = some t) :
    ∃ node kernel, obtainBlock s.kernel sizeofQnode = some (node, kernel) := by
  obtain ⟨_, made, _⟩ := Option.bind_eq_some_iff.mp completed
  obtain ⟨⟨node, kernel⟩, obtained, _⟩ := Option.bind_eq_some_iff.mp made
  exact ⟨node, kernel, obtained⟩

/-- Each call keeps the queues. -/
theorem Holds.step (holds : Holds low high s history nodes) (allowed : Allowed history s call)
    (completed : FutureQueues.step s call = some (output, t)) :
    ∃ nodes', Holds low high t (history ++ output) nodes' := by
  cases call with
  | initialQueue =>
    obtain ⟨⟨q, after⟩, returned, _⟩ := Option.map_eq_some_iff.mp completed
    obtain ⟨kernel, obtained⟩ := initialQueue_obtains returned
    obtain ⟨t', completed', next⟩ := holds.initialQueue obtained
    cases Option.some.inj (completed'.symm.trans completed)
    exact ⟨_, next⟩
  | fenqueue q pid =>
    obtain ⟨after, returned, _⟩ := Option.map_eq_some_iff.mp completed
    obtain ⟨node, kernel, obtained⟩ := fenqueue_obtains returned
    obtain ⟨t', completed', next⟩ := holds.fenqueue allowed obtained pid
    cases Option.some.inj (completed'.symm.trans completed)
    exact ⟨_, next⟩
  | fdequeue q =>
    obtain ⟨wasMade, someNode⟩ := allowed
    cases list : nodes q with
    | nil => simp [(holds.lists q wasMade).isEmpty_eq, list] at someNode
    | cons node rest =>
      obtain ⟨t', completed', next⟩ := holds.fdequeue wasMade list
      cases Option.some.inj (completed'.symm.trans completed)
      exact ⟨_, next⟩

end Histories

/-- A queue that some processes have entered and some have left. The chain from the head and the
reversed chain from the tail list the same nodes, which hold the processes that have entered and not
left, in the order in which they entered. The next `fdequeue` returns the process that entered first and
gives back its node. The next `fenqueue` returns when there is memory for a node. -/
structure FifoQueue (s : State) (q : Nat) (entered departed : List Int32) (nodes : List Nat) : Prop where
  lists : Lists s q nodes
  order : entered = departed ++ pids s nodes
  ends : (s.queue q).head = null ↔ (s.queue q).tail = null
  empty : (s.queue q).head = null ↔ isEmpty s q = some 1
  someNode : (s.queue q).head ≠ null ↔ isEmpty s q = some 0
  oldest : ∀ node rest, nodes = node :: rest → ∃ after,
    fdequeue s q = some ((s.node node).pid, after) ∧ Lists after q rest ∧ pids after rest = pids s rest ∧
      after.kernel.live = s.kernel.live.erase (nodeGrant node) ∧ nodeGrant node ∉ after.kernel.live
  enters : ∀ pid, (fenqueue s q pid).isSome = true ↔ (obtainBlock s.kernel sizeofQnode).isSome = true

theorem Holds.fifo {low high : Nat} {s : State} {history : List Effect} {nodes : Nat → List Nat} {q : Nat}
    (holds : Holds low high s history nodes) (wasMade : .made q ∈ history) :
    FifoQueue s q (arrivals q history) (departures q history) (nodes q) := by
  have lists := holds.lists q wasMade
  have answer := lists.isEmpty_eq
  have headNull := lists.ends.1
  refine ⟨lists, holds.order q, lists.ends.1.symm.trans lists.ends.2, ?_, ?_, ?_, ?_⟩
  · rw [answer, ← headNull]
    by_cases nobody : nodes q = [] <;> simp [nobody]
  · rw [answer, Ne, ← headNull]
    by_cases nobody : nodes q = [] <;> simp [nobody]
  · intro node rest first
    rw [first] at lists
    obtain ⟨after, completed, departed⟩ := lists.fdequeue holds.sound
    exact ⟨after, completed, departed.lists, List.map_congr_left fun other _ => departed.pids other,
      departed.live, departed.unused⟩
  · intro pid
    constructor
    · intro returns
      obtain ⟨t, completed⟩ := Option.isSome_iff_exists.mp returns
      obtain ⟨node, kernel, obtained⟩ := fenqueue_obtains completed
      exact Option.isSome_iff_exists.mpr ⟨_, obtained⟩
    · intro granted
      obtain ⟨⟨node, kernel⟩, obtained⟩ := Option.isSome_iff_exists.mp granted
      obtain ⟨t, completed, _⟩ := lists.fenqueue holds.sound obtained pid
      exact Option.isSome_iff_exists.mpr ⟨t, completed⟩

/-- In every sequence of calls each queue that was made is a list in the order of arrival. -/
theorem future_queues_are_lists (h : Heap) (first last : Nat) (someAddress : 0 < first)
    (ordered : first ≤ last) (inWord : last < 2 ^ 32) (firstAligned : 8 ∣ first) (lastAligned : 8 ∣ last)
    (s : State) (before : List (Event Kernel HeapMemory.Call Nat))
    (run : Run HeapMemory.step ⟨meminit h first last, []⟩ before s.kernel)
    (allowed : Meets HeapMemory.Allowed before)
    (t : State) (events : List (Event State Call (List Effect))) (used : Run step s events t)
    (admitted : MeetsAfter Allowed [] events) (q : Nat) (wasMade : .made q ∈ events.flatMap Event.reply) :
    ∃ nodes, FifoQueue t q (arrivals q (events.flatMap Event.reply))
      (departures q (events.flatMap Event.reply)) nodes := by
  have sound : s.kernel.Sound first last :=
    (sound_of_meminit h first last someAddress ordered inWord firstAligned lastAligned).run run allowed
  have initial : Holds first last s [] fun _ => [] := by
    refine ⟨sound, ?_, ?_, fun _ _ => rfl, fun _ => rfl⟩
    · intro q impossible
      cases impossible
    · intro q r _ node impossible
      cases impossible
  obtain ⟨nodes, holds⟩ := history_last (fun s history => ∃ nodes, Holds first last s history nodes) Allowed
    (fun _ _ _ _ _ ⟨_, holds⟩ isAllowed completed => holds.step isAllowed completed) s t events used []
    ⟨_, initial⟩ admitted
  exact ⟨nodes q, holds.fifo wasMade⟩

/-- A queue that two processes enter and one leaves. -/
theorem two_enter_and_one_leaves : ∃ t nodes,
    FifoQueue t 8 [7, 9] [7] nodes := by
  obtain ⟨events, t, used, passed⟩ := trace_exists step ⟨smallHeap, fun _ => ⟨0, 0, 0⟩, fun _ => ⟨0, 0⟩⟩
    [.initialQueue, .fenqueue 8 7, .fenqueue 8 9, .fdequeue 8]
    (fun events _ => events.flatMap Event.reply = [.made 8, .entered 8 7, .entered 8 9, .departed 8 7] ∧
      MeetsAfter Allowed [] events) (by decide +kernel)
  obtain ⟨replies, admitted⟩ := of_decide_eq_true passed
  obtain ⟨nodes, fifo⟩ := future_queues_are_lists _ 8 88 (by decide) (by decide) (by decide) (by decide)
    (by decide) ⟨smallHeap, fun _ => ⟨0, 0, 0⟩, fun _ => ⟨0, 0⟩⟩ [] (.done _) (by simp [Meets]) t events used
    admitted 8 (by simp [replies])
  rw [replies] at fifo
  exact ⟨t, nodes, fifo⟩

end Xinu.FutureQueues
