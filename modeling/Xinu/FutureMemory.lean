import Xinu.ExclusiveFuture
import Xinu.HeapIntegrity
import Xinu.QueueFuture
import Xinu.SharedFuture

/-!
# The memory of a future

`future_alloc` takes three blocks from the heap: the future and the headers of its two
queues. Every process that waits in a queue has a node there, which `fenqueue` takes and
`fdequeue` gives back. `future_free` gives back the future.

The steps are those of the futures, with the calls of `getmem` and `freemem` that their
queues make. A node is known by its address. `initial_queue` and `newNode` do not look
for a failure of `getmem` and write through the answer, so a request that is refused there
has no outcome. What is written into the blocks in use is left out.

When all calls have returned, the queues are empty and every node has been given back, once.
The headers never are.
-/

namespace Xinu.FutureMemory

open Futures HeapMemory Runs

/-- `sizeof(future_t)`, `sizeof(queue_t)` and `sizeof(qnode_t)`. -/
def sizeofFuture : Nat := 24
def sizeofQueue : Nat := 8
def sizeofQnode : Nat := 12

/-- The two queues of a future. -/
inductive Side where
  | setters
  | getters
deriving DecidableEq

/-- The calls that change a queue. -/
inductive NodeCall where
  | fenqueue (side : Side)
  | fdequeue (side : Side)
deriving DecidableEq

/-- The call behind an effect. An exclusive future does not use its queues. -/
def nodeCall (mode : FutureMode) : Effect → Option NodeCall
  | .getterWaits _ => if mode = .exclusive then none else some (.fenqueue .getters)
  | .setterWaits _ => some (.fenqueue .setters)
  | .setterReleased _ => some (.fdequeue .setters)
  | .getterWoken _ _ => if mode = .exclusive then none else some (.fdequeue .getters)
  | .accepted _ _ | .delivered _ _ | .getRefused _ | .setReturned _ | .setRefused _ => none

/-- The heap, and the addresses of the future, of the headers and of the nodes in their
order. -/
structure Memory where
  kernel : Kernel
  future : Nat
  header : Side → Nat
  nodes : Side → List Nat

/-- A future with its memory. -/
structure State where
  system : System
  memory : Memory

/-- `getmem` where the answer is used without a test. -/
def obtainBlock (kernel : Kernel) (nbytes : Nat) : Option (Nat × Kernel) := do
  let (address, kernel) ← HeapMemory.step kernel (.getmem nbytes)
  if address = syserr then none else some (address, kernel)

/-- The memory of `fenqueue` and `fdequeue`. -/
def Memory.apply (m : Memory) : NodeCall → Option Memory
  | .fenqueue side => do
    let (node, kernel) ← obtainBlock m.kernel sizeofQnode
    some { m with
      kernel := kernel
      nodes := Function.update m.nodes side (m.nodes side ++ [node]) }
  | .fdequeue side =>
    match m.nodes side with
    | [] => none
    | node :: nodes => do
      let (_, kernel) ← HeapMemory.step m.kernel (.freemem node sizeofQnode)
      some { m with kernel := kernel, nodes := Function.update m.nodes side nodes }

/-- One step of the future. -/
def step (s : State) (move : Move) : Option (List Effect × State) := do
  let (output, system) ← Futures.step s.system move
  let memory ← (output.filterMap (nodeCall s.system.future.mode)).foldlM Memory.apply s.memory
  some (output, ⟨system, memory⟩)

/-- What `future_alloc` returns: `NULL`, or a future that no process uses. -/
inductive Allocation where
  | null (kernel : Kernel)
  | future (s : State)

/-- `future_alloc`, with what the fields of the new future hold that it does not set. -/
def futureAlloc (kernel : Kernel) (mode : FutureMode) (value : Int32) (pid : Nat) :
    Option Allocation := do
  let (address, kernel) ← HeapMemory.step kernel (.getmem sizeofFuture)
  if address = syserr then some (.null kernel)
  else do
    let (setQueue, kernel) ← obtainBlock kernel sizeofQueue
    let (getQueue, kernel) ← obtainBlock kernel sizeofQueue
    let header : Side → Nat
      | .setters => setQueue
      | .getters => getQueue
    some (.future ⟨allocated mode value pid, ⟨kernel, address, header, fun _ => []⟩⟩)

/-- `future_free`, which does not look at what `freemem` answers. -/
def futureFree (s : State) : Option (Nat × Kernel) := do
  let (_, kernel) ← HeapMemory.step s.memory.kernel (.freemem s.memory.future sizeofFuture)
  some (ok, kernel)

/-- A queue of a future. -/
def queueOf (future : Future) : Side → List Nat
  | .setters => future.setQueue
  | .getters => future.getQueue

section Queues

/-- How a step changes the queues. -/
inductive QueueChange (before after : Side → List Nat) : List NodeCall → Prop where
  | keeps (same : ∀ side, after side = before side) : QueueChange before after []
  | enters (side : Side) (pid : Nat) (longer : after side = before side ++ [pid])
      (same : ∀ other, other ≠ side → after other = before other) :
      QueueChange before after [.fenqueue side]
  | leaves (side : Side) (pid : Nat) (shorter : before side = pid :: after side)
      (same : ∀ other, other ≠ side → after other = before other) :
      QueueChange before after [.fdequeue side]

/-- The getters of a shared future wait where they entered the queue. -/
structure GettersWait (s : System) : Prop where
  noSetters : s.future.setQueue = []
  distinct : s.future.getQueue.Nodup
  waiting : ∀ pid ∈ s.future.getQueue, s.process pid = .suspended .getSuspended

/-- The processes of the queues are suspended. -/
def Waiting (s : System) : Prop :=
  match s.future.mode with
  | .queue => QueuesSound s
  | .shared => GettersWait s
  | .exclusive | .other => ∀ side, queueOf s.future side = []

variable {s t : System} {move : Move} {output : List Effect}

theorem waiting_of_allocated (mode : FutureMode) (value : Int32) (pid : Nat) :
    Waiting (allocated mode value pid) := by
  cases mode with
  | exclusive => exact fun side => by cases side <;> rfl
  | shared => exact ⟨rfl, List.nodup_nil, fun pid member => absurd member List.not_mem_nil⟩
  | queue => exact queues_sound_of_allocated value pid
  | other => exact fun side => by cases side <;> rfl

/-- Nobody waits where all calls have returned. -/
theorem Waiting.nobody (waiting : Waiting s) (returned : ∀ pid, s.process pid = .idle) (side : Side) :
    queueOf s.future side = [] := by
  have empty : ∀ queue : List Nat, (∀ pid ∈ queue, ∃ point, s.process pid = .suspended point) →
      queue = [] := by
    intro queue suspended
    refine List.eq_nil_iff_forall_not_mem.mpr ?_
    intro pid member
    obtain ⟨point, isSuspended⟩ := suspended pid member
    cases (returned pid).symm.trans isSuspended
  unfold Waiting at waiting
  split at waiting
  · cases side with
    | setters => exact empty _ fun pid member => ⟨_, (waiting.setting pid member).choose_spec⟩
    | getters => exact empty _ fun pid member => ⟨_, waiting.getting pid member⟩
  · cases side with
    | setters => exact waiting.noSetters
    | getters => exact empty _ fun pid member => ⟨_, waiting.waiting pid member⟩
  · exact waiting side
  · exact waiting side

/-- A process that takes a step waits in no queue. -/
theorem GettersWait.running (sound : GettersWait s) {pid : Nat}
    (running : ∀ point, s.process pid ≠ .suspended point) : pid ∉ s.future.getQueue :=
  fun member => running _ (sound.waiting pid member)

theorem GettersWait.place (sound : GettersWait s) {pid : Nat} (process : Process)
    (running : ∀ point, s.process pid ≠ .suspended point) : GettersWait (s.place pid process) := by
  refine ⟨sound.noSetters, sound.distinct, ?_⟩
  intro other member
  have apart : other ≠ pid := ne_of_mem_of_not_mem member (sound.running running)
  rw [place_other _ _ _ apart]
  exact sound.waiting other member

/-- A getter that enters the queue. -/
theorem GettersWait.enters (sound : GettersWait s) {pid : Nat}
    (running : ∀ point, s.process pid ≠ .suspended point) :
    GettersWait ((s.withGetQueue (fenqueue s.future.getQueue pid)).suspend pid .getSuspended) := by
  refine ⟨sound.noSetters, fenqueue_nodup sound.distinct (sound.running running), ?_⟩
  intro other member
  rcases List.mem_append.mp member with old | new
  · have apart : other ≠ pid := ne_of_mem_of_not_mem old (sound.running running)
    rw [System.suspend, place_other _ _ _ apart]
    exact sound.waiting other old
  · rw [List.mem_singleton.mp new]
    exact place_self ..

/-- The first getter leaves the queue and is resumed. -/
theorem GettersWait.leaves (sound : GettersWait s) {target : Nat} {queue : List Nat}
    (first : s.future.getQueue = target :: queue) :
    GettersWait ((s.withGetQueue queue).resume target) := by
  have distinct := sound.distinct
  rw [first] at distinct
  have future : ((s.withGetQueue queue).resume target).future = (s.withGetQueue queue).future :=
    resume_future ..
  refine ⟨?_, ?_, ?_⟩
  · rw [future]
    exact sound.noSetters
  · rw [future]
    exact (List.nodup_cons.mp distinct).2
  · intro other member
    rw [future] at member
    rw [resume_other _ _ (ne_of_nodup_cons distinct member)]
    exact sound.waiting other (first ▸ List.mem_cons_of_mem _ member)

/-- One turn of the loop of a shared `future_set`. -/
theorem GettersWait.loop (sound : GettersWait s) {pid : Nat} {value : Int32}
    (running : ∀ point, s.process pid ≠ .suspended point) (taken : LoopStep s pid value output t) :
    GettersWait t ∧ t.future.mode = s.future.mode ∧
      QueueChange (queueOf s.future) (queueOf t.future) (output.filterMap (nodeCall .shared)) := by
  cases taken with
  | ends nobody => exact ⟨sound.place _ running, rfl, .keeps fun _ => rfl⟩
  | wakes target queue first =>
    have future : (((s.withGetQueue queue).resume target).place pid (.ready (.setResumed value))).future =
        (s.withGetQueue queue).future := resume_future ..
    refine ⟨(sound.leaves first).place _ ?_, by rw [future]; rfl, .leaves .getters target ?_ ?_⟩
    · intro point suspended
      exact running point (resume_suspended _ _ suspended).2
    · rw [future]
      exact first
    · intro other apart
      rw [future]
      cases other with
      | setters => rfl
      | getters => exact absurd rfl apart

/-- A step on a shared future. -/
theorem GettersWait.step (sound : GettersWait s) (taken : SharedStep s move output t) :
    GettersWait t ∧ t.future.mode = s.future.mode ∧
      QueueChange (queueOf s.future) (queueOf t.future) (output.filterMap (nodeCall .shared)) := by
  cases taken with
  | waits pid idle notReady =>
    have placed : GettersWait (s.withState .waiting) :=
      ⟨sound.noSetters, sound.distinct, sound.waiting⟩
    refine ⟨placed.enters (by simp [idle]), rfl, .enters .getters pid rfl ?_⟩
    intro other apart
    cases other with
    | setters => rfl
    | getters => exact absurd rfl apart
  | takes pid move taker =>
    have running : ∀ point, s.process pid ≠ .suspended point := by
      rcases taker with ⟨_, idle, _⟩ | ⟨_, ready⟩
      · simp [idle]
      · simp [ready]
    by_cases nobody : s.future.getQueue = []
    · rw [if_pos nobody]
      have placed : GettersWait (s.withState .empty) :=
        ⟨sound.noSetters, sound.distinct, sound.waiting⟩
      exact ⟨placed.place _ running, rfl, .keeps fun _ => rfl⟩
    · rw [if_neg nobody]
      exact ⟨sound.place _ running, rfl, .keeps fun _ => rfl⟩
  | sets pid value output t idle notReady loop =>
    have placed : GettersWait ((s.withValue value).withState .ready) :=
      ⟨sound.noSetters, sound.distinct, sound.waiting⟩
    have running : ∀ point, ((s.withValue value).withState .ready).process pid ≠ .suspended point :=
      fun point suspended => by cases idle.symm.trans suspended
    have next := placed.loop running loop
    exact next
  | refuses pid value isReady => exact ⟨sound, rfl, .keeps fun _ => rfl⟩
  | loops pid value output t resumed loop => exact sound.loop (by simp [resumed]) loop

/-- A step on an exclusive future leaves the queues alone. -/
theorem exclusive_queues (taken : ExclusiveStep s move output t) :
    (∀ side, queueOf t.future side = queueOf s.future side) ∧ t.future.mode = s.future.mode ∧
      output.filterMap (nodeCall .exclusive) = [] := by
  cases taken with
  | waits pid idle isEmpty => exact ⟨fun side => by cases side <;> rfl, rfl, rfl⟩
  | takes pid move taker isReady => exact ⟨fun side => by cases side <;> rfl, rfl, rfl⟩
  | fails pid move taker notReady => exact ⟨fun side => by cases side <;> rfl, rfl, rfl⟩
  | sets pid value idle isEmpty => exact ⟨fun side => by cases side <;> rfl, rfl, rfl⟩
  | wakes pid value idle isWaiting =>
    rw [place_future, resume_future]
    exact ⟨fun side => by cases side <;> rfl, rfl, rfl⟩
  | refuses pid value isReady => exact ⟨fun side => rfl, rfl, rfl⟩
  | returns pid value resumed => exact ⟨fun side => by cases side <;> rfl, rfl, rfl⟩

/-- A step on a future in queue mode. -/
theorem queue_changes (taken : QueueStep s move output t) : t.future.mode = s.future.mode ∧
    QueueChange (queueOf s.future) (queueOf t.future) (output.filterMap (nodeCall .queue)) := by
  cases taken with
  | releases pid target queue idle waiting =>
    rw [place_future, resume_future]
    refine ⟨rfl, .leaves .setters target waiting ?_⟩
    intro other apart
    cases other with
    | setters => exact absurd rfl apart
    | getters => rfl
  | waits pid move tests isEmpty =>
    refine ⟨rfl, .enters .getters pid rfl ?_⟩
    intro other apart
    cases other with
    | setters => rfl
    | getters => exact absurd rfl apart
  | takes pid move taker => exact ⟨rfl, .keeps fun side => by cases side <;> rfl⟩
  | setterWaits pid value idle nobody =>
    refine ⟨rfl, .enters .setters pid rfl ?_⟩
    intro other apart
    cases other with
    | setters => exact absurd rfl apart
    | getters => rfl
  | fills pid value move target queue filler waiting =>
    rw [place_future, resume_future]
    refine ⟨rfl, .leaves .getters target waiting ?_⟩
    intro other apart
    cases other with
    | setters => rfl
    | getters => exact absurd rfl apart
  | returns pid value resumed => exact ⟨rfl, .keeps fun _ => rfl⟩

/-- A future of an unknown mode refuses all calls. -/
theorem other_refuses (isOther : s.future.mode = .other)
    (completed : Futures.step s move = some (output, t)) :
    t = s ∧ output.filterMap (nodeCall .other) = [] := by
  cases move with
  | start pid call =>
    cases place : s.process pid with
    | suspended point => simp [Futures.step, place] at completed
    | ready point => simp [Futures.step, place] at completed
    | idle =>
      cases call with
      | get =>
        simp only [Futures.step, place, futureGet, isOther] at completed
        cases Option.some.inj completed
        exact ⟨rfl, rfl⟩
      | set value =>
        simp only [Futures.step, place, futureSet, isOther] at completed
        cases Option.some.inj completed
        exact ⟨rfl, rfl⟩
  | goOn pid =>
    cases place : s.process pid with
    | idle => simp [Futures.step, place] at completed
    | suspended point => simp [Futures.step, place] at completed
    | ready point => cases point <;> simp [Futures.step, place, proceed, isOther] at completed

/-- Every step keeps the waiting processes suspended, and makes one of the changes. -/
theorem Waiting.step (waiting : Waiting s) (completed : Futures.step s move = some (output, t)) :
    Waiting t ∧ t.future.mode = s.future.mode ∧
      QueueChange (queueOf s.future) (queueOf t.future) (output.filterMap (nodeCall s.future.mode)) := by
  cases mode : s.future.mode with
  | exclusive =>
    obtain ⟨same, sameMode, noCalls⟩ := exclusive_queues (exclusive_cases s t move output mode completed)
    have empty : ∀ side, queueOf s.future side = [] := by simpa [Waiting, mode] using waiting
    rw [noCalls]
    refine ⟨?_, sameMode.trans mode, .keeps same⟩
    simpa [Waiting, sameMode.trans mode] using fun side => (same side).trans (empty side)
  | shared =>
    have sound : GettersWait s := by simpa [Waiting, mode] using waiting
    obtain ⟨next, sameMode, change⟩ := sound.step (shared_cases s t move output mode completed)
    refine ⟨?_, sameMode.trans mode, change⟩
    simpa [Waiting, sameMode.trans mode] using next
  | queue =>
    have sound : QueuesSound s := by simpa [Waiting, mode] using waiting
    have taken := queue_cases s t move output mode completed
    obtain ⟨sameMode, change⟩ := queue_changes taken
    refine ⟨?_, sameMode.trans mode, change⟩
    simpa [Waiting, sameMode.trans mode] using sound.step taken
  | other =>
    obtain ⟨rfl, noCalls⟩ := other_refuses mode completed
    rw [noCalls]
    exact ⟨waiting, mode, .keeps fun _ => rfl⟩

end Queues

section Blocks

/-- A node, the future, and the two headers as blocks in use. -/
def nodeGrant (node : Nat) : Grant := ⟨.memory, node, sizeofQnode⟩

def nodeGrants (nodes : Side → List Nat) : List Grant :=
  (nodes .setters ++ nodes .getters).map nodeGrant

def Memory.own (m : Memory) : Grant := ⟨.memory, m.future, sizeofFuture⟩

def Memory.headers (m : Memory) : List Grant :=
  [⟨.memory, m.header .setters, sizeofQueue⟩, ⟨.memory, m.header .getters, sizeofQueue⟩]

theorem nodeGrants_enters (nodes : Side → List Nat) (side : Side) (node : Nat) :
    (nodeGrants (Function.update nodes side (nodes side ++ [node]))).Perm
      (nodeGrant node :: nodeGrants nodes) := by
  cases side with
  | setters => simp [nodeGrants, List.perm_middle]
  | getters =>
    simp only [nodeGrants, Function.update_self, Function.update_of_ne (by decide : Side.setters ≠ .getters)]
    rw [← List.append_assoc, List.map_append]
    exact List.perm_append_singleton _ _

theorem nodeGrants_leaves {nodes : Side → List Nat} {side : Side} {node : Nat} {rest : List Nat}
    (first : nodes side = node :: rest) :
    (nodeGrants nodes).Perm (nodeGrant node :: nodeGrants (Function.update nodes side rest)) := by
  cases side with
  | setters => simp [nodeGrants, first]
  | getters => simp [nodeGrants, first, List.perm_middle]

variable {low high : Nat} {k k' : Kernel} {nbytes address : Nat}

/-- A block that was obtained is in use. -/
theorem obtainBlock_done (sound : k.Sound low high) (someBytes : 0 < nbytes)
    (small : nbytes ≤ 0xFFFFFFF8) (obtained : obtainBlock k nbytes = some (address, k')) :
    k'.Sound low high ∧ k'.live = ⟨.memory, address, nbytes⟩ :: k.live := by
  obtain ⟨⟨reply, next⟩, completed, granted⟩ := Option.bind_eq_some_iff.mp obtained
  obtain ⟨reply', next', same, sound'⟩ := sound.getmem someBytes small
  cases Option.some.inj (same.symm.trans completed)
  by_cases failed : reply = syserr
  · simp [failed] at granted
  · simp only [if_neg failed, Option.some.injEq, Prod.mk.injEq] at granted
    obtain ⟨rfl, rfl⟩ := granted
    obtain ⟨⟨pointer, h⟩, _, result⟩ := Option.map_eq_some_iff.mp completed
    cases result
    refine ⟨sound', ?_⟩
    unfold Kernel.granted
    rw [if_neg failed]

/-- A block in use can be given back, and is not in use then. -/
theorem freemem_done (sound : k.Sound low high) (member : ⟨.memory, address, nbytes⟩ ∈ k.live) :
    ∃ k', HeapMemory.step k (.freemem address nbytes) = some (ok, k') ∧ k'.Sound low high ∧
      k'.live = k.live.erase ⟨.memory, address, nbytes⟩ := by
  obtain ⟨k', completed, sound'⟩ := sound.freemem member
  refine ⟨k', completed, sound', ?_⟩
  obtain ⟨⟨reply, h⟩, _, result⟩ := Option.map_eq_some_iff.mp completed
  cases result
  rfl

/-- More blocks in use are fewer free bytes. -/
theorem freeBytes_more (sound : k.Sound low high) (sound' : k'.Sound low high) {more : List Grant}
    (live : k'.live.Perm (more ++ k.live)) :
    k.freeBytes = k'.freeBytes ∪ Intervals.covered (more.map Grant.range) ∧
      Disjoint k'.freeBytes (Intervals.covered (more.map Grant.range)) := by
  obtain ⟨blocks, heap⟩ := sound.heap
  obtain ⟨rest, heap'⟩ := sound'.heap
  have tiles : Intervals.Tiles low high
      ((rest ++ more.map Grant.range) ++ k.live.map Grant.range) := by
    refine heap'.tiles.perm ?_
    rw [List.append_assoc, ← List.map_append]
    exact (live.map Grant.range).append_left rest
  rw [show k.freeBytes = Intervals.covered blocks from freeBytes_eq heap.list,
    show k'.freeBytes = Intervals.covered rest from freeBytes_eq heap'.list]
  refine ⟨?_, ?_⟩
  · rw [← Intervals.covered_append]
    exact heap.tiles.same_covered tiles
  · rw [List.append_assoc] at tiles
    exact tiles.disjoint_lists.mono_right (Intervals.covered_append _ _ ▸ Set.subset_union_left)

end Blocks

section Steps

variable {low high : Nat} {before : Kernel} {s t : State} {move : Move} {output : List Effect}

/-- The blocks in use are the future, the headers, a node for each waiting process, and those
that were in use before the future was allocated. -/
structure Owns (low high : Nat) (before : Kernel) (s : State) : Prop where
  waiting : Waiting s.system
  sound : s.memory.kernel.Sound low high
  counted : ∀ side, (s.memory.nodes side).length = (queueOf s.system.future side).length
  live : s.memory.kernel.live.Perm
    (nodeGrants s.memory.nodes ++ s.memory.own :: (s.memory.headers ++ before.live))

/-- A node that is taken. -/
theorem fenqueue_done {m m' : Memory} {side : Side} {others : List Grant}
    (sound : m.kernel.Sound low high) (live : m.kernel.live.Perm (nodeGrants m.nodes ++ others))
    (completed : m.apply (.fenqueue side) = some m') :
    ∃ node, m'.nodes = Function.update m.nodes side (m.nodes side ++ [node]) ∧
      m'.future = m.future ∧ m'.header = m.header ∧ m'.kernel.Sound low high ∧
      m'.kernel.live.Perm (nodeGrants m'.nodes ++ others) := by
  obtain ⟨⟨node, kernel⟩, obtained, result⟩ := Option.bind_eq_some_iff.mp completed
  cases result
  obtain ⟨sound', live'⟩ := obtainBlock_done sound (by decide) (by decide) obtained
  refine ⟨node, rfl, rfl, rfl, sound', ?_⟩
  rw [live']
  exact (live.cons _).trans ((nodeGrants_enters m.nodes side node).symm.append_right others)

/-- A node that is given back. -/
theorem fdequeue_done {m m' : Memory} {side : Side} {others : List Grant}
    (sound : m.kernel.Sound low high) (live : m.kernel.live.Perm (nodeGrants m.nodes ++ others))
    (completed : m.apply (.fdequeue side) = some m') :
    ∃ node rest, m.nodes side = node :: rest ∧ m'.nodes = Function.update m.nodes side rest ∧
      m'.future = m.future ∧ m'.header = m.header ∧ m'.kernel.Sound low high ∧
      m'.kernel.live.Perm (nodeGrants m'.nodes ++ others) := by
  cases first : m.nodes side with
  | nil => simp [Memory.apply, first] at completed
  | cons node rest =>
    simp only [Memory.apply, first] at completed
    obtain ⟨⟨reply, kernel⟩, freed, result⟩ := Option.bind_eq_some_iff.mp completed
    cases result
    have leaves := nodeGrants_leaves first
    have perm := live.trans (leaves.append_right others)
    have member : nodeGrant node ∈ m.kernel.live := perm.mem_iff.mpr List.mem_cons_self
    obtain ⟨kernel', same, sound', live'⟩ := freemem_done sound member
    cases Option.some.inj (same.symm.trans freed)
    refine ⟨node, rest, rfl, rfl, rfl, rfl, sound', ?_⟩
    rw [live']
    exact (perm.erase (nodeGrant node)).trans (by rw [List.cons_append, List.erase_cons_head])

/-- The lengths of both queues of nodes after one of them has changed. -/
theorem counted_update {nodes : Side → List Nat} {queues queues' : Side → List Nat} {side : Side}
    {list : List Nat} (counted : ∀ side, (nodes side).length = (queues side).length)
    (here : list.length = (queues' side).length)
    (same : ∀ other, other ≠ side → queues' other = queues other) (other : Side) :
    (Function.update nodes side list other).length = (queues' other).length := by
  rcases eq_or_ne other side with rfl | apart
  · rw [Function.update_self]
    exact here
  · rw [Function.update_of_ne apart, same other apart]
    exact counted other

theorem Owns.step (owns : Owns low high before s) (completed : step s move = some (output, t)) :
    Owns low high before t ∧ t.memory.future = s.memory.future ∧ t.memory.header = s.memory.header := by
  obtain ⟨⟨output', system⟩, moved, later⟩ := Option.bind_eq_some_iff.mp completed
  obtain ⟨memory, applied, result⟩ := Option.bind_eq_some_iff.mp later
  cases result
  obtain ⟨waiting, _, change⟩ := owns.waiting.step moved
  cases calls : output.filterMap (nodeCall s.system.future.mode) with
  | nil =>
    rw [calls] at change applied
    cases Option.some.inj applied
    cases change with
    | keeps same =>
      refine ⟨⟨waiting, owns.sound, fun side => ?_, owns.live⟩, rfl, rfl⟩
      exact (owns.counted side).trans (congrArg List.length (same side).symm)
  | cons call rest =>
    rw [calls] at change applied
    obtain ⟨next, first, last⟩ := Option.bind_eq_some_iff.mp applied
    cases change with
    | enters side pid longer same =>
      cases Option.some.inj last
      obtain ⟨node, nodes, future, header, sound, live⟩ := fenqueue_done owns.sound owns.live first
      refine ⟨⟨waiting, sound, ?_, ?_⟩, future, header⟩
      · rw [nodes]
        refine counted_update owns.counted ?_ same
        rw [longer, List.length_append, List.length_append, owns.counted side]
        rfl
      · simpa [Memory.own, Memory.headers, future, header] using live
    | leaves side pid shorter same =>
      cases Option.some.inj last
      obtain ⟨node, others, isFirst, nodes, future, header, sound, live⟩ :=
        fdequeue_done owns.sound owns.live first
      refine ⟨⟨waiting, sound, ?_, ?_⟩, future, header⟩
      · rw [nodes]
        refine counted_update owns.counted ?_ same
        have longer := owns.counted side
        rw [isFirst, shorter, List.length_cons, List.length_cons] at longer
        exact Nat.succ.inj longer
      · simpa [Memory.own, Memory.headers, future, header] using live

/-- A new future owns its three blocks. -/
theorem futureAlloc_owns {k : Kernel} (sound : k.Sound low high) {mode : FutureMode} {value : Int32}
    {pid : Nat} (allocation : futureAlloc k mode value pid = some (.future s)) :
    Owns low high k s ∧ s.system = allocated mode value pid := by
  obtain ⟨⟨address, first⟩, completed, later⟩ := Option.bind_eq_some_iff.mp allocation
  by_cases failed : address = syserr
  · simp [failed] at later
  · simp only [if_neg failed] at later
    obtain ⟨⟨setQueue, second⟩, setObtained, later⟩ := Option.bind_eq_some_iff.mp later
    obtain ⟨⟨getQueue, third⟩, getObtained, result⟩ := Option.bind_eq_some_iff.mp later
    cases result
    have obtained : obtainBlock k sizeofFuture = some (address, first) := by
      simp [obtainBlock, completed, failed]
    obtain ⟨soundFirst, liveFirst⟩ := obtainBlock_done sound (by decide) (by decide) obtained
    obtain ⟨soundSecond, liveSecond⟩ := obtainBlock_done soundFirst (by decide) (by decide) setObtained
    obtain ⟨soundThird, liveThird⟩ := obtainBlock_done soundSecond (by decide) (by decide) getObtained
    refine ⟨⟨waiting_of_allocated mode value pid, soundThird, fun side => by cases side <;> rfl, ?_⟩, rfl⟩
    rw [liveThird, liveSecond, liveFirst]
    exact ((List.Perm.swap _ _ _).trans (@List.perm_middle _ _ [_, _] _))

theorem Owns.freed (owns : Owns low high before s) (returned : ∀ pid, s.system.process pid = .idle) :
    ∃ after, futureFree s = some (ok, after) ∧ after.Sound low high ∧
      after.live.Perm (s.memory.headers ++ before.live) := by
  have empty : ∀ side, s.memory.nodes side = [] := by
    intro side
    refine List.length_eq_zero_iff.mp ?_
    rw [owns.counted side, owns.waiting.nobody returned side]
    rfl
  have noNodes : nodeGrants s.memory.nodes = [] := by simp [nodeGrants, empty]
  have live := owns.live
  rw [noNodes, List.nil_append] at live
  have member : s.memory.own ∈ s.memory.kernel.live := live.mem_iff.mpr List.mem_cons_self
  obtain ⟨after, completed, sound, live'⟩ := freemem_done owns.sound member
  refine ⟨after, ?_, sound, ?_⟩
  · simp [futureFree, completed]
  · rw [live']
    exact (live.erase s.memory.own).trans (by rw [List.erase_cons_head])

end Steps

/-- The invariant holds in every state that a future reaches. -/
theorem Owns.run {low high : Nat} {before : Kernel} {first last : State} (owns : Owns low high before first)
    {events : List (Event State Move (List Effect))} (used : Run FutureMemory.step first events last) :
    Owns low high before last ∧ last.memory.header = first.memory.header := by
  refine invariant_last (fun s => Owns low high before s ∧ s.memory.header = first.memory.header)
    (fun _ _ => True) ?_ _ _ _ used ⟨owns, rfl⟩ (fun _ _ => trivial)
  rintro s move output t ⟨owns, same⟩ _ completed
  obtain ⟨next, _, header⟩ := owns.step completed
  exact ⟨next, header.trans same⟩

/-- The headers stay in use behind `future_free`. -/
theorem Owns.lost {low high : Nat} {before : Kernel} {s : State} (owns : Owns low high before s)
    (sound : before.Sound low high) (returned : ∀ pid, s.system.process pid = .idle) :
    ∃ after, futureFree s = some (ok, after) ∧ after.live.Perm (s.memory.headers ++ before.live) ∧
      before.freeBytes = after.freeBytes ∪ Intervals.covered (s.memory.headers.map Grant.range) ∧
      Disjoint after.freeBytes (Intervals.covered (s.memory.headers.map Grant.range)) ∧
      s.memory.header .setters ∈ before.freeBytes ∧ s.memory.header .setters ∉ after.freeBytes := by
  obtain ⟨after, completed, soundAfter, live⟩ := owns.freed returned
  obtain ⟨bytes, apart⟩ := freeBytes_more sound soundAfter live
  have inHeader : s.memory.header .setters ∈ Intervals.covered (s.memory.headers.map Grant.range) := by
    refine ⟨_, List.mem_cons_self, Nat.le_refl _, Nat.lt_add_of_pos_right ?_⟩
    exact (by decide : 0 < roundmb sizeofQueue)
  refine ⟨after, completed, live, bytes, apart, ?_, fun isFree => Set.disjoint_left.mp apart isFree inHeader⟩
  rw [bytes]
  exact Or.inr inHeader

/-- After every use of a future, `future_free` has given back everything that was taken for it except the
headers of its two queues, whose bytes are missing from then on. -/
theorem future_memory_is_not_returned (h : Heap) (first last : Nat) (someAddress : 0 < first)
    (ordered : first ≤ last) (inWord : last < 2 ^ 32) (firstAligned : 8 ∣ first) (lastAligned : 8 ∣ last)
    (before : Kernel) (events : List (Event Kernel HeapMemory.Call Nat))
    (run : Run HeapMemory.step ⟨meminit h first last, []⟩ events before) (allowed : Meets Allowed events)
    (mode : FutureMode) (value : Int32) (pid : Nat) (s : State)
    (allocation : futureAlloc before mode value pid = some (.future s))
    (moves : List (Event State Move (List Effect))) (t : State) (used : Run step s moves t)
    (returned : ∀ pid, t.system.process pid = .idle) :
    ∃ after, futureFree t = some (ok, after) ∧ after.live.Perm (s.memory.headers ++ before.live) ∧
      before.freeBytes = after.freeBytes ∪ Intervals.covered (s.memory.headers.map Grant.range) ∧
      Disjoint after.freeBytes (Intervals.covered (s.memory.headers.map Grant.range)) ∧
      after.freeBytes ≠ before.freeBytes := by
  have sound : before.Sound first last :=
    (sound_of_meminit h first last someAddress ordered inWord firstAligned lastAligned).run run allowed
  obtain ⟨owns, header⟩ := (futureAlloc_owns sound allocation).1.run used
  have sameHeaders : t.memory.headers = s.memory.headers := by rw [Memory.headers, header, Memory.headers]
  obtain ⟨after, completed, live, bytes, apart, wasFree, notFree⟩ := owns.lost sound returned
  rw [sameHeaders] at live bytes apart
  refine ⟨after, completed, live, bytes, apart, ?_⟩
  intro same
  rw [same] at notFree
  exact notFree wasFree

/-- A heap of ten units. -/
def smallHeap : Kernel := ⟨meminit ⟨0, 0, 0, ⟨0, 0⟩, fun _ => ⟨0, 0⟩⟩ 8 88, []⟩

theorem smallHeap_sound : smallHeap.Sound 8 88 :=
  sound_of_meminit _ 8 88 (by decide) (by decide) (by decide) (by decide) (by decide)

/-- An exclusive future on that heap, which one process sets and reads. -/
theorem small_future : ∃ s moves t, futureAlloc smallHeap .exclusive 0 0 = some (.future s) ∧
    Run step s moves t ∧ moves.flatMap Event.reply = [.accepted 1 5, .setReturned 1, .delivered 1 5] ∧
    ∀ pid, t.system.process pid = .idle := by
  have returns : (futureAlloc smallHeap .exclusive 0 0).any (fun allocation =>
      match allocation with
      | .future _ => true
      | .null _ => false) = true := by decide +kernel
  obtain ⟨allocation, allocated, isFuture⟩ := (Option.any_eq_true _ _).mp returns
  cases allocation with
  | null kernel => cases isFuture
  | future s =>
    obtain ⟨_, isNew⟩ := futureAlloc_owns smallHeap_sound allocated
    obtain ⟨system, memory⟩ := s
    cases isNew
    refine ⟨_, _, _, allocated, .taken _ (.start 1 (.set 5)) _ _ _ _ rfl
      (.taken _ (.start 1 .get) _ _ _ _ rfl (.done _)), rfl, ?_⟩
    intro pid
    rcases eq_or_ne pid 1 with rfl | apart
    · exact place_self ..
    · exact place_other _ _ _ apart

/-- What is left of its memory are the headers. -/
theorem small_future_leaves_headers : ∃ s moves t after,
    futureAlloc smallHeap .exclusive 0 0 = some (.future s) ∧ Run step s moves t ∧
      futureFree t = some (ok, after) ∧ after.live.Perm s.memory.headers := by
  obtain ⟨s, moves, t, allocation, used, _, returned⟩ := small_future
  obtain ⟨after, freed, live, _⟩ := future_memory_is_not_returned _ 8 88 (by decide) (by decide)
    (by decide) (by decide) (by decide) smallHeap [] (.done _) (by simp [Meets]) _ _ _ s allocation moves
    t used returned
  exact ⟨s, moves, t, after, allocation, used, freed, live.trans (by rw [smallHeap, List.append_nil])⟩

/-- The free bytes are not those before the future was allocated. -/
theorem small_future_leaks : ∃ s moves t after,
    futureAlloc smallHeap .exclusive 0 0 = some (.future s) ∧ Run step s moves t ∧
      moves.flatMap Event.reply = [.accepted 1 5, .setReturned 1, .delivered 1 5] ∧
      (∀ pid, t.system.process pid = .idle) ∧ futureFree t = some (ok, after) ∧
      after.freeBytes ≠ smallHeap.freeBytes := by
  obtain ⟨s, moves, t, allocation, used, replies, returned⟩ := small_future
  obtain ⟨owns, _⟩ := (futureAlloc_owns smallHeap_sound allocation).1.run used
  obtain ⟨after, freed, _, _, _, wasFree, notFree⟩ := owns.lost smallHeap_sound returned
  refine ⟨s, moves, t, after, allocation, used, replies, returned, freed, ?_⟩
  intro same
  rw [same] at notFree
  exact notFree wasFree

end Xinu.FutureMemory
