import Xinu.NullTerminated
import Xinu.Partitions
import Xinu.Ports
import Xinu.SemaphoreFamilies

/-!
# The law of the ports

Every node is on the free list or in the queue of one port. While a port is open its second
semaphore grants as many receivers as there are messages in the queue, and its first one as many
senders as there are places left.

A call belongs to the generation of the port in which it began. A released process goes on if its
generation is the current one, and fails if the port was reset, deleted or made anew meanwhile.
In the limbo state the semaphores of a port are reset or deleted one after the other; until then a
semaphore serves the generation before.
-/

namespace Xinu.Ports

open Semaphores Runs NullTerminated Partitions

/-- The two semaphores of a port. -/
inductive Side where
  | send
  | recv
deriving DecidableEq

def Ptentry.sem (entry : Ptentry) : Side → Int
  | .send => entry.ptssem
  | .recv => entry.ptrsem

/-- How far a port is: not in use, in use, emptied by `_ptclear`, behind its first semaphore, and
behind its second one. -/
inductive Stage where
  | closed
  | opened
  | emptied (newstate : Ptstate)
  | halfway (newstate : Ptstate)
  | nearly (newstate : Ptstate)
deriving DecidableEq

def Stage.state : Stage → Ptstate
  | closed => .free
  | opened => .alloc
  | emptied _ | halfway _ | nearly _ => .limbo

/-- The semaphores that belong to a port. -/
def Stage.Keeps : Stage → Side → Prop
  | closed, _ => False
  | opened, _ | emptied _, _ => True
  | halfway newstate, side => newstate = .alloc ∨ side = .recv
  | nearly newstate, _ => newstate = .alloc

/-- The generation that a semaphore serves. -/
def Stage.serves (changes : Nat) : Stage → Side → Nat
  | emptied _, _ | halfway _, .recv => changes - 1
  | closed, _ | opened, _ | halfway _, .send | nearly _, _ => changes

/-- What the variables of the ports stand for. -/
structure View where
  stage : Int → Stage
  clearer : Int → Nat
  limit : Int → Int
  free : List Nat
  queue : Int → List Nat
  grants : Int × Side → Int

/-- The points behind the semaphore of one side, in a generation. -/
def Taking (portid : Int) (side : Side) (generation : Nat) : Point → Prop
  | .sending port _ _ began => side = .send ∧ port = portid ∧ began = generation
  | .receiving port _ began => side = .recv ∧ port = portid ∧ began = generation
  | .sent | .received _ | .clearing _ _ | .cleared _ _ => False

def System.next (s : System) (address : Nat) : Nat := (s.node address).ptnext

def System.sem (s : System) (member : Int × Side) : Int := (s.porttab member.1).sem member.2

def View.Kept (v : View) (member : Int × Side) : Prop :=
  isbadport member.1 = false ∧ (v.stage member.1).Keeps member.2

def View.taking (v : View) (s : System) (member : Int × Side) : Point → Prop :=
  Taking member.1 member.2 ((v.stage member.1).serves (s.changes member.1) member.2)

/-- The free list and the queues. -/
def View.lists (v : View) : Option Int → List Nat
  | none => v.free
  | some portid => v.queue portid

/-- What a process inside of a call knows. -/
def PointSound (s : System) (v : View) (pid : Nat) : Point → Prop
  | .sending portid seq _ began | .receiving portid seq began =>
    isbadport portid = false ∧ seq = Int32.ofNat began ∧ began ≤ s.changes portid ∧
      (began = s.changes portid → v.stage portid = .opened)
  | .clearing portid newstate =>
    isbadport portid = false ∧ newstate ≠ .limbo ∧ v.stage portid = .halfway newstate ∧ v.clearer portid = pid
  | .cleared portid newstate =>
    isbadport portid = false ∧ newstate ≠ .limbo ∧ v.stage portid = .nearly newstate ∧ v.clearer portid = pid
  | .sent | .received _ => True

/-- The queue of a port and its two pointers. -/
structure Queued (s : System) (v : View) (portid : Int) : Prop where
  reaches : v.stage portid = .opened →
    Reaches s.next null (s.porttab portid).pthead (v.queue portid) ∧
      (s.porttab portid).pttail = tailOf null (v.queue portid)
  emptied : ∀ newstate, v.stage portid = .emptied newstate ∨ v.stage portid = .halfway newstate ∨
      v.stage portid = .nearly newstate → newstate = .alloc →
    (s.porttab portid).pthead = null ∧ (s.porttab portid).pttail = null

/-- The nodes are divided among the free list and the queues. -/
structure Nodes (all : List Nat) (s : System) (v : View) : Prop where
  free : Reaches s.next null s.ptfree v.free
  queues : ∀ portid, isbadport portid = false → Queued s v portid
  unused : ∀ portid, isbadport portid = true ∨ v.stage portid ≠ .opened → v.queue portid = []
  few : all.length < turns
  divided : Divided (· ∈ all) v.lists

/-- What holds between any two operations. -/
structure Sound (all : List Nat) (s : System) (v : View) : Prop where
  next : isbadport s.ptnextid = false
  state : ∀ portid, isbadport portid = false → (s.porttab portid).ptstate = (v.stage portid).state
  seq : ∀ portid, isbadport portid = false →
    (s.porttab portid).ptseq = Int32.ofNat (s.changes portid)
  capacity : ∀ portid, isbadport portid = false → v.stage portid ≠ .closed →
    ((s.porttab portid).ptmaxcnt.toNat : Int) = v.limit portid % 2 ^ 16
  points : ∀ pid point, (s.kernel.process pid).point = some point → PointSound s v pid point
  family : Family s.kernel v.Kept s.sem (v.taking s) v.grants
  nodes : Nodes all s v

/-- The grants of a port between two steps. -/
def View.Balanced (v : View) (portid : Int) : Prop :=
  match v.stage portid with
  | .opened => v.grants (portid, .send) = v.limit portid - (v.queue portid).length ∧
    v.grants (portid, .recv) = (v.queue portid).length ∧ ((v.queue portid).length : Int) ≤ v.limit portid
  | .halfway .alloc =>
    v.grants (portid, .send) = v.limit portid ∧ 0 ≤ v.limit portid ∧ v.limit portid < 2 ^ 16
  | .nearly .alloc => v.grants (portid, .send) = v.limit portid ∧ v.grants (portid, .recv) = 0 ∧
    0 ≤ v.limit portid ∧ v.limit portid < 2 ^ 16
  | _ => True

/-- The messages in the queue of a port. -/
def View.messages (v : View) (s : System) (portid : Int) : List UInt32 :=
  (v.queue portid).map fun address => (s.node address).ptmsg

section Kernels

variable {all : List Nat} {s : System} {v : View} {pid : Nat} {point : Point} {portid : Int} {side : Side}

/-- Points belong to one side of one port. -/
theorem Taking.unique {other : Int} {otherSide : Side} {generation otherGeneration : Nat}
    (here : Taking portid side generation point) (there : Taking other otherSide otherGeneration point) :
    (portid, side) = (other, otherSide) := by
  cases point with
  | sending port seq msg began =>
    obtain ⟨rfl, rfl, _⟩ := here
    obtain ⟨rfl, rfl, _⟩ := there
    rfl
  | receiving port seq began =>
    obtain ⟨rfl, rfl, _⟩ := here
    obtain ⟨rfl, rfl, _⟩ := there
    rfl
  | sent => cases here
  | received msg => cases here
  | clearing port newstate => cases here
  | cleared port newstate => cases here

/-- A queue is not longer than a walk can be. -/
theorem Nodes.short (nodes : Nodes all s v) (portid : Int) : (v.queue portid).length < turns := by
  have inside : v.queue portid ⊆ all := fun cell member =>
    (nodes.divided.covers cell).mpr ⟨some portid, member⟩
  exact Nat.lt_of_le_of_lt
    (List.subperm_of_subset (nodes.divided.distinct (some portid)) inside).length_le nodes.few

/-- The nodes do not depend on the semaphores. -/
theorem Nodes.withKernel (nodes : Nodes all s v) (kernel : Kernel Point) (grants : Int × Side → Int) :
    Nodes all { s with kernel := kernel } { v with grants := grants } :=
  ⟨nodes.free, fun portid good => ⟨(nodes.queues portid good).reaches, (nodes.queues portid good).emptied⟩,
    nodes.unused, nodes.few, nodes.divided⟩

/-- The nodes do not depend on the limits. -/
theorem Nodes.withLimit (nodes : Nodes all s v) (limit : Int → Int) : Nodes all s { v with limit := limit } :=
  ⟨nodes.free, fun portid good => ⟨(nodes.queues portid good).reaches, (nodes.queues portid good).emptied⟩,
    nodes.unused, nodes.few, nodes.divided⟩

/-- A change of the semaphores and processes. -/
theorem Sound.withKernel (sound : Sound all s v) {kernel : Kernel Point} {grants : Int × Side → Int}
    (family : Family kernel v.Kept s.sem (v.taking s) grants)
    (points : ∀ pid point, (kernel.process pid).point = some point →
      (s.kernel.process pid).point = some point ∨ PointSound s v pid point) :
    Sound all { s with kernel := kernel } { v with grants := grants } := by
  refine ⟨sound.next, sound.state, sound.seq, sound.capacity, fun pid point here => ?_, family,
    sound.nodes.withKernel kernel grants⟩
  rcases points pid point here with before | after
  · have known := sound.points pid point before
    cases point <;> exact known
  · cases point <;> exact after

/-- Processes that are made ready stay at their points. -/
theorem Sound.released (sound : Sound all s v) {kernel : Kernel Point} {grants : Int × Side → Int}
    (family : Family kernel v.Kept s.sem (v.taking s) grants)
    (stays : ∀ pid, Stays (s.kernel.process pid) (kernel.process pid)) :
    Sound all { s with kernel := kernel } { v with grants := grants } :=
  sound.withKernel family fun pid _ here => Or.inl ((stays pid).point ▸ here)

/-- `signal` of a semaphore that a port keeps. -/
theorem Sound.signal (sound : Sound all s v) (kept : v.Kept (portid, side)) :
    Sound all { s with kernel := (signal s.kernel (s.sem (portid, side))).2 }
      { v with grants := Function.update v.grants (portid, side) (v.grants (portid, side) + 1) } :=
  sound.released (sound.family.signal kept) (signal_stays s.kernel _)

/-- A call returns, or a process comes to a place where it takes nothing. -/
theorem Sound.place (sound : Sound all s v) {process : Process Point}
    (wasAwake : (s.kernel.process pid).Awake) (awake : process.Awake)
    (before : ∀ member point, v.Kept member → v.taking s member point → s.kernel.process pid ≠ .ready point)
    (later : ∀ member point, v.Kept member → v.taking s member point → process ≠ .ready point)
    (known : ∀ point, process.point = some point → PointSound s v pid point) :
    Sound all (s.place pid process) v := by
  refine sound.withKernel (sound.family.place wasAwake awake before later) fun other point here => ?_
  rcases eq_or_ne other pid with rfl | apart
  · rw [place_self] at here
    exact Or.inr (known point here)
  · rw [place_of_ne apart] at here
    exact Or.inl here

end Kernels

section Lists

variable {all : List Nat} {s after : System} {v w : View} {portid : Int} {cell : Nat} {msg : UInt32}

theorem next_setNode (address : Nat) (contents : Ptnode) :
    (s.setNode address contents).next = Function.update s.next address contents.ptnext := by
  funext other
  unfold System.next System.setNode
  dsimp only
  rcases eq_or_ne other address with rfl | apart
  · rw [Function.update_self, Function.update_self]
  · rw [Function.update_of_ne apart, Function.update_of_ne apart]

theorem next_setNext (address value : Nat) :
    (s.setNext address value).next = Function.update s.next address value := next_setNode ..

/-- A node is in one place. -/
theorem Nodes.not_free (nodes : Nodes all s v) (queued : cell ∈ v.queue portid) : cell ∉ v.free :=
  fun isFree => by cases nodes.divided.apart (some portid) none cell queued isFree

theorem Nodes.not_queued (nodes : Nodes all s v) (isFree : cell ∈ v.free) : cell ∉ v.queue portid :=
  fun queued => nodes.not_free queued isFree

theorem Nodes.apart (nodes : Nodes all s v) {other : Int} (different : other ≠ portid)
    (queued : cell ∈ v.queue other) : cell ∉ v.queue portid :=
  fun inBoth => different (Option.some.inj (nodes.divided.apart (some other) (some portid) cell queued inBoth))

/-- Nodes move between the free list and the queue of one port. -/
theorem Nodes.exchange (nodes : Nodes all s v) (good : isbadport portid = false) {cells : List Nat}
    (stages : ∀ other, other ≠ portid → w.stage other = v.stage other)
    (queues : w.queue = Function.update v.queue portid cells)
    (entries : ∀ other, other ≠ portid → after.porttab other = s.porttab other)
    (perm : (w.free ++ cells).Perm (v.free ++ v.queue portid))
    (next : ∀ cell, cell ∉ v.free → cell ∉ v.queue portid → after.next cell = s.next cell)
    (free : Reaches after.next null after.ptfree w.free) (here : Queued after w portid)
    (unused : w.stage portid ≠ .opened → cells = []) : Nodes all after w := by
  refine ⟨free, fun other otherGood => ?_, fun other outside => ?_, nodes.few, ?_⟩
  · rcases eq_or_ne other portid with rfl | apart
    · exact here
    · have known := nodes.queues other otherGood
      refine ⟨fun opened => ?_, fun newstate stage isAlloc => ?_⟩
      · rw [stages other apart] at opened
        rw [entries other apart, queues, Function.update_of_ne apart]
        obtain ⟨reaches, tail⟩ := known.reaches opened
        refine ⟨reaches.congr fun cell member => ?_, tail⟩
        exact next cell (nodes.not_free member) (nodes.apart apart member)
      · rw [stages other apart] at stage
        rw [entries other apart]
        exact known.emptied newstate stage isAlloc
  · rw [queues]
    rcases eq_or_ne other portid with rfl | apart
    · rw [Function.update_self]
      exact unused (outside.resolve_left (by simp [good]))
    · rw [Function.update_of_ne apart]
      rw [stages other apart] at outside
      exact nodes.unused other outside
  · refine @Divided.exchange _ _ _ v.lists w.lists none (some portid) nodes.divided (by simp) ?_ ?_
    · simpa [View.lists, queues] using perm
    · intro other notFree notHere
      cases other with
      | none => exact absurd rfl notFree
      | some other =>
        have apart : other ≠ portid := fun same => notHere (congrArg some same)
        simp [View.lists, queues, apart]

/-- The last cell of a queue. -/
theorem tailOf_cases {first : Nat} {cells : List Nat} (reaches : Reaches s.next null first cells) :
    (cells = [] ∧ tailOf null cells = null) ∨
      ∃ front last, cells = front ++ [last] ∧ tailOf null cells = last ∧ last ≠ null := by
  rcases List.eq_nil_or_concat cells with rfl | ⟨front, last, rfl⟩
  · exact Or.inl ⟨rfl, rfl⟩
  · rw [List.concat_eq_append] at reaches ⊢
    exact Or.inr ⟨front, last, rfl, tailOf_append .., reaches.ne_null (List.mem_append_right _ (by simp))⟩

/-- A node goes from the free list behind a queue. -/
theorem Nodes.link (nodes : Nodes all s v) (good : isbadport portid = false)
    (opened : v.stage portid = .opened) (real : s.ptfree ≠ null) :
    ∃ rest, v.free = s.ptfree :: rest ∧ Nodes all (s.link portid msg)
      { v with free := rest, queue := Function.update v.queue portid (v.queue portid ++ [s.ptfree]) } := by
  obtain ⟨rest, isFree, later⟩ := nodes.free.split real
  obtain ⟨reaches, isTail⟩ := (nodes.queues portid good).reaches opened
  have fresh : s.ptfree ∉ v.queue portid := nodes.not_queued (isFree ▸ List.mem_cons_self)
  have distinct := nodes.divided.distinct none
  have freeDistinct : (s.ptfree :: rest).Nodup := isFree ▸ distinct
  have notInRest : s.ptfree ∉ rest := (List.nodup_cons.mp freeDistinct).1
  have perm : (rest ++ (v.queue portid ++ [s.ptfree])).Perm (v.free ++ v.queue portid) := by
    rw [isFree, ← List.append_assoc]
    exact List.perm_append_singleton _ _
  refine ⟨rest, isFree, ?_⟩
  rcases tailOf_cases reaches with ⟨empty, noTail⟩ | ⟨front, last, isQueue, isLast, notNull⟩
  · rw [noTail] at isTail
    have linked : s.link portid msg = { (s.setNode s.ptfree ⟨msg, null⟩).setPort portid
        { s.porttab portid with pttail := s.ptfree, pthead := s.ptfree } with ptfree := s.next s.ptfree } := by
      unfold System.link
      dsimp only
      exact if_pos isTail
    have next : (s.link portid msg).next = Function.update s.next s.ptfree null := by
      rw [linked]
      exact next_setNode ..
    have entry : (s.link portid msg).porttab portid =
        { s.porttab portid with pttail := s.ptfree, pthead := s.ptfree } := by
      rw [linked]
      exact Function.update_self ..
    refine nodes.exchange good (fun _ _ => rfl) rfl (fun other apart => ?_) perm (fun cell notFree _ => ?_) ?_ ?_
      (absurd opened)
    · rw [linked]
      exact Function.update_of_ne apart _ _
    · rw [next, Function.update_of_ne (fun same => notFree (by rw [same, isFree]; exact List.mem_cons_self))]
    · rw [next, linked]
      exact later.update notInRest null
    · refine ⟨fun _ => ?_, fun newstate stage => ?_⟩
      · rw [next, entry, empty]
        simp only [Function.update_self, List.nil_append]
        exact ⟨⟨rfl, real, Function.update_self ..⟩, rfl⟩
      · rw [show _ = Stage.opened from opened] at stage
        simp at stage
  · rw [isLast] at isTail
    subst isTail
    have apart : (s.porttab portid).pttail ≠ s.ptfree := by
      intro same
      exact fresh (same ▸ isQueue ▸ List.mem_append_right _ (by simp))
    have linked : s.link portid msg = { ((s.setNode s.ptfree ⟨msg, null⟩).setNext (s.porttab portid).pttail s.ptfree).setPort portid
        { s.porttab portid with pttail := s.ptfree } with ptfree := s.next s.ptfree } := by
      unfold System.link
      dsimp only
      exact if_neg notNull
    have next : (s.link portid msg).next =
        Function.update (Function.update s.next s.ptfree null) (s.porttab portid).pttail s.ptfree := by
      rw [linked]
      exact (next_setNext ..).trans (by rw [next_setNode])
    have entry : (s.link portid msg).porttab portid = { s.porttab portid with pttail := s.ptfree } := by
      rw [linked]
      exact Function.update_self ..
    have inQueue : (s.porttab portid).pttail ∈ v.queue portid := isQueue ▸ List.mem_append_right _ (by simp)
    refine nodes.exchange good (fun _ _ => rfl) rfl (fun other away => ?_) perm
      (fun cell notFree notQueued => ?_) ?_ ?_ (absurd opened)
    · rw [linked]
      exact Function.update_of_ne away _ _
    · rw [next, Function.update_of_ne (fun same => notQueued (by rw [same]; exact inQueue)),
        Function.update_of_ne (fun same => notFree (by rw [same, isFree]; exact List.mem_cons_self))]
    · rw [next, linked]
      refine (later.update notInRest null).update ?_ s.ptfree
      exact fun member => nodes.not_free inQueue (isFree ▸ List.mem_cons_of_mem _ member)
    · refine ⟨fun _ => ?_, fun newstate stage => ?_⟩
      · rw [next, entry]
        simp only [Function.update_self, isQueue]
        refine ⟨Reaches.appended (isQueue ▸ reaches) ?_ (isQueue ▸ fresh) real, (tailOf_append ..).symm⟩
        exact isQueue ▸ nodes.divided.distinct (some portid)
      · rw [show _ = Stage.opened from opened] at stage
        simp at stage

/-- Turning a pointer changes no message. -/
theorem ptmsg_setNext (address value other : Nat) :
    ((s.setNext address value).node other).ptmsg = (s.node other).ptmsg := by
  unfold System.setNext System.setNode
  dsimp only
  rcases eq_or_ne other address with rfl | apart
  · rw [Function.update_self]
  · rw [Function.update_of_ne apart]

theorem ptmsg_link (address : Nat) : ((s.link portid msg).node address).ptmsg =
    if address = s.ptfree then msg else (s.node address).ptmsg := by
  have written : ((s.setNode s.ptfree ⟨msg, null⟩).node address).ptmsg =
      if address = s.ptfree then msg else (s.node address).ptmsg := by
    unfold System.setNode
    dsimp only
    split
    case isTrue same => rw [same, Function.update_self]
    case isFalse apart => rw [Function.update_of_ne apart]
  unfold System.link
  dsimp only
  split
  · exact written
  · exact (ptmsg_setNext ..).trans written

/-- A message behind the others of its port. -/
theorem Nodes.link_messages (nodes : Nodes all s v) (real : s.ptfree ≠ null) {rest : List Nat} (other : Int) :
    View.messages { v with free := rest, queue := Function.update v.queue portid (v.queue portid ++ [s.ptfree]) }
        (s.link portid msg) other =
      if other = portid then v.messages s portid ++ [msg] else v.messages s other := by
  obtain ⟨_, isFree, _⟩ := nodes.free.split real
  have same : ∀ port, (v.queue port).map (fun address => ((s.link portid msg).node address).ptmsg) =
      v.messages s port := by
    intro port
    refine List.map_congr_left fun address member => ?_
    have apart : address ≠ s.ptfree := by
      rintro rfl
      exact nodes.not_free member (isFree ▸ List.mem_cons_self)
    rw [ptmsg_link, if_neg apart]
  unfold View.messages
  dsimp only
  split
  case isTrue here =>
    rw [here, Function.update_self, List.map_append, same]
    simp [ptmsg_link, View.messages]
  case isFalse apart =>
    rw [Function.update_of_ne apart]
    exact same other

/-- The first node of a queue goes to the free list. -/
theorem Nodes.unlink (nodes : Nodes all s v) (good : isbadport portid = false)
    (opened : v.stage portid = .opened) (real : (s.porttab portid).pthead ≠ null) :
    ∃ rest, v.queue portid = (s.porttab portid).pthead :: rest ∧ Nodes all (s.unlink portid)
      { v with free := (s.porttab portid).pthead :: v.free, queue := Function.update v.queue portid rest } := by
  obtain ⟨reaches, isTail⟩ := (nodes.queues portid good).reaches opened
  obtain ⟨rest, isQueue, later⟩ := reaches.split real
  have inQueue : (s.porttab portid).pthead ∈ v.queue portid := isQueue ▸ List.mem_cons_self
  have distinct : ((s.porttab portid).pthead :: rest).Nodup := isQueue ▸ nodes.divided.distinct (some portid)
  have notInRest := (List.nodup_cons.mp distinct).1
  have next : (s.unlink portid).next = Function.update s.next (s.porttab portid).pthead s.ptfree := next_setNext ..
  have perm : ((s.porttab portid).pthead :: v.free ++ rest).Perm (v.free ++ v.queue portid) := by
    rw [isQueue]
    exact List.perm_middle.symm
  refine ⟨rest, isQueue, nodes.exchange good (fun _ _ => rfl) rfl (fun other apart => ?_) perm
    (fun cell _ notQueued => ?_) ?_ ?_ (absurd opened)⟩
  · exact Function.update_of_ne apart _ _
  · rw [next, Function.update_of_ne (fun same => notQueued (by rw [same]; exact inQueue))]
  · rw [next]
    exact nodes.free.cons (nodes.not_free inQueue) real
  · refine ⟨fun _ => ?_, fun newstate stage => ?_⟩
    · have entry : (s.unlink portid).porttab portid = if (s.porttab portid).pthead = (s.porttab portid).pttail then
          { s.porttab portid with pthead := null, pttail := null }
        else { s.porttab portid with pthead := (s.node (s.porttab portid).pthead).ptnext } := Function.update_self ..
      rw [next, entry]
      simp only [Function.update_self]
      rcases List.eq_nil_or_concat rest with rfl | ⟨front, last, rfl⟩
      · have single : (s.porttab portid).pthead = (s.porttab portid).pttail := by
          rw [isTail, isQueue]
          rfl
        rw [if_pos single]
        exact ⟨rfl, rfl⟩
      · rw [List.concat_eq_append] at isQueue later notInRest ⊢
        have tail : (s.porttab portid).pttail = last := by
          rw [isTail, isQueue]
          exact tailOf_append null last ((s.porttab portid).pthead :: front)
        have several : (s.porttab portid).pthead ≠ (s.porttab portid).pttail := by
          rw [tail]
          rintro same
          exact notInRest (same ▸ List.mem_append_right _ (by simp))
        rw [if_neg several]
        exact ⟨later.update notInRest s.ptfree, tail.trans (tailOf_append ..).symm⟩
    · rw [show _ = Stage.opened from opened] at stage
      simp at stage

theorem unlink_messages {rest : List Nat} {cells : List Nat} (other : Int) :
    View.messages { v with free := cells, queue := Function.update v.queue portid rest } (s.unlink portid) other =
      if other = portid then rest.map (fun address => (s.node address).ptmsg) else v.messages s other := by
  have same : ∀ list : List Nat, list.map (fun address => ((s.unlink portid).node address).ptmsg) =
      list.map fun address => (s.node address).ptmsg :=
    fun list => List.map_congr_left fun address _ => ptmsg_setNext ..
  unfold View.messages
  dsimp only
  rw [same]
  split
  case isTrue here => rw [here, Function.update_self]
  case isFalse apart => rw [Function.update_of_ne apart]

/-- The walk of `_ptclear` meets the messages of the queue. -/
theorem walk_reaches {first : Nat} {cells : List Nat} (reaches : Reaches s.next null first cells) {count : Nat}
    (enough : cells.length < count) :
    walk s count first = some (cells.map fun address => (s.node address).ptmsg) := by
  induction cells generalizing first count with
  | nil =>
    cases count with
    | zero => omega
    | succ count =>
      rw [show first = null from reaches, walk, if_pos rfl]
      rfl
  | cons cell rest inductionHypothesis =>
    cases count with
    | zero => omega
    | succ count =>
      obtain ⟨rfl, notNull, later⟩ := reaches
      rw [walk, if_neg notNull]
      have short : rest.length < count := by
        rw [List.length_cons] at enough
        omega
      have following := inductionHypothesis later short
      rw [System.next] at following
      rw [following]
      rfl

/-- The whole queue of a port goes in front of the free list. -/
theorem Nodes.empty (nodes : Nodes all s v) (good : isbadport portid = false)
    (opened : v.stage portid = .opened) (newstate : Ptstate) :
    Nodes all (s.empty portid newstate) { v with
      stage := Function.update v.stage portid (.emptied newstate)
      free := v.queue portid ++ v.free
      queue := Function.update v.queue portid [] } := by
  obtain ⟨reaches, isTail⟩ := (nodes.queues portid good).reaches opened
  have others : ∀ other, other ≠ portid → (s.empty portid newstate).porttab other = s.porttab other := by
    intro other apart
    refine (Function.update_of_ne apart _ _).trans ?_
    split <;> rfl
  have here : Queued (s.empty portid newstate) { v with
      stage := Function.update v.stage portid (.emptied newstate)
      free := v.queue portid ++ v.free
      queue := Function.update v.queue portid [] } portid := by
    refine ⟨fun opened => ?_, fun state stage isAlloc => ?_⟩
    · simp at opened
    · simp only [Function.update_self, Stage.emptied.injEq, reduceCtorEq, or_false] at stage
      have entry : (s.empty portid newstate).porttab portid = { s.porttab portid with
          ptstate := .limbo, ptseq := (s.porttab portid).ptseq + 1, pthead := null, pttail := null } := by
        refine (Function.update_self ..).trans ?_
        rw [if_pos (stage.trans isAlloc)]
      rw [entry]
      exact ⟨rfl, rfl⟩
  have perm : (v.queue portid ++ v.free ++ []).Perm (v.free ++ v.queue portid) := by
    rw [List.append_nil]
    exact List.perm_append_comm
  have stages : ∀ other, other ≠ portid →
      Function.update v.stage portid (.emptied newstate) other = v.stage other :=
    fun other apart => Function.update_of_ne apart _ _
  by_cases noMessages : (s.porttab portid).pthead = null
  · have isEmpty : v.queue portid = [] := reaches.nil_iff.mpr noMessages
    have same : (s.empty portid newstate).next = s.next ∧ (s.empty portid newstate).ptfree = s.ptfree := by
      unfold System.empty
      dsimp only
      rw [if_pos noMessages]
      exact ⟨rfl, rfl⟩
    refine nodes.exchange good stages rfl others perm (fun cell _ _ => congrFun same.1 cell) ?_ here
      fun _ => rfl
    rw [same.1, same.2, isEmpty]
    exact nodes.free
  · have spliced : (s.empty portid newstate).next = Function.update s.next (s.porttab portid).pttail s.ptfree ∧
        (s.empty portid newstate).ptfree = (s.porttab portid).pthead := by
      unfold System.empty
      dsimp only
      rw [if_neg noMessages]
      exact ⟨next_setNext .., rfl⟩
    rcases tailOf_cases reaches with ⟨isEmpty, _⟩ | ⟨front, last, isQueue, isLast, _⟩
    · exact absurd (reaches.nil_iff.mp isEmpty) noMessages
    rw [isLast] at isTail
    have inQueue : last ∈ v.queue portid := isQueue ▸ List.mem_append_right _ (by simp)
    refine nodes.exchange good stages rfl others perm (fun cell _ notQueued => ?_) ?_ here fun _ => rfl
    · rw [spliced.1, isTail, Function.update_of_ne (fun same => notQueued (by rw [same]; exact inQueue))]
    · rw [spliced.1, spliced.2, isTail]
      dsimp only
      rw [isQueue, List.append_assoc]
      refine Reaches.joined (isQueue ▸ reaches) nodes.free ?_ (nodes.not_free inQueue)
      exact isQueue ▸ nodes.divided.distinct (some portid)

end Lists

end Xinu.Ports
