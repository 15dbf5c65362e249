import Xinu.PortCreation

/-!
# Delivery

From `ptinit` on, in every order of steps, a receiver that passes its checks finds a message, and each
port gives out its messages in the order in which they came in. A process is told apart from those of
earlier generations as long as less than 2^32 changes of the sequence number happen during its call.
-/

namespace Xinu.Ports

open Semaphores Runs NullTerminated Partitions

/-- The system after boot. Other parts may have taken semaphores before. -/
def booted (s : System) (used : Int → Processes.Sstate) (maxmsgs memory : Nat) : System :=
  ptinit { s with kernel := atBoot used } maxmsgs memory

/-- A machine in which nothing is set. -/
def blank : System where
  node := fun _ => ⟨0, null⟩
  ptfree := null
  porttab := fun _ => ⟨0, 0, .free, 0, 0, null, null⟩
  ptnextid := 0
  kernel := atBoot fun _ => .free
  changes := fun _ => 0

/-- The addresses of consecutive nodes, one more than a number. -/
def nodesFrom : Nat → Nat → List Nat
  | 0, curr => [curr]
  | more + 1, curr => curr :: nodesFrom more (curr + 8)

section Boot

variable {s : System} {curr : Nat}

theorem length_nodesFrom (more curr : Nat) : (nodesFrom more curr).length = more + 1 := by
  induction more generalizing curr with
  | zero => rfl
  | succ more inductionHypothesis => rw [nodesFrom, List.length_cons, inductionHypothesis]

theorem le_of_mem_nodesFrom {more address : Nat} (member : address ∈ nodesFrom more curr) : curr ≤ address := by
  induction more generalizing curr with
  | zero => exact (List.mem_singleton.mp member).ge
  | succ more inductionHypothesis =>
    rcases List.mem_cons.mp member with rfl | later
    · exact le_refl _
    · exact le_trans (Nat.le_add_right _ _) (inductionHypothesis later)

theorem nodesFrom_nodup (more curr : Nat) : (nodesFrom more curr).Nodup := by
  induction more generalizing curr with
  | zero => exact List.nodup_singleton curr
  | succ more inductionHypothesis =>
    refine List.nodup_cons.mpr ⟨fun member => ?_, inductionHypothesis (curr + 8)⟩
    have after := le_of_mem_nodesFrom member
    omega

/-- The loop of `ptinit` changes pointers only, and none before its node. -/
theorem linkNodes_frame (more curr : Nat) (s : System) :
    ∃ node, linkNodes more curr s = { s with node := node } ∧
      ∀ address, address < curr → (linkNodes more curr s).next address = s.next address := by
  induction more generalizing curr s with
  | zero =>
    refine ⟨_, rfl, fun address before => ?_⟩
    rw [linkNodes, next_setNext, Function.update_of_ne before.ne]
  | succ more inductionHypothesis =>
    obtain ⟨node, result, kept⟩ := inductionHypothesis (curr + 8) (s.setNext curr (curr + 8))
    refine ⟨node, result, fun address before => ?_⟩
    rw [linkNodes, kept address (by omega), next_setNext, Function.update_of_ne before.ne]

/-- The loop of `ptinit` makes a list of its nodes. -/
theorem linkNodes_reaches (more : Nat) (real : curr ≠ null) (s : System) :
    Reaches (linkNodes more curr s).next null curr (nodesFrom more curr) := by
  induction more generalizing curr s with
  | zero =>
    refine ⟨rfl, real, ?_⟩
    rw [linkNodes, next_setNext, Function.update_self]
    rfl
  | succ more inductionHypothesis =>
    have later := @inductionHypothesis (curr + 8) (by unfold null; omega) (s.setNext curr (curr + 8))
    obtain ⟨_, _, kept⟩ := linkNodes_frame more (curr + 8) (s.setNext curr (curr + 8))
    refine ⟨rfl, real, ?_⟩
    rw [linkNodes, kept curr (by omega), next_setNext, Function.update_self]
    exact later

/-- No port is made yet. -/
def View.initial (free : List Nat) : View where
  stage := fun _ => .closed
  clearer := fun _ => 0
  limit := fun _ => 0
  free := free
  queue := fun _ => []
  grants := fun _ => 0

/-- The law holds at boot. -/
theorem booted_law (s : System) (used : Int → Processes.Sstate) {maxmsgs memory : Nat} (some_ : 0 < maxmsgs)
    (real : memory ≠ null) (fits : memory + 8 * maxmsgs ≤ 2 ^ 32) :
    Law (nodesFrom (maxmsgs - 1) memory) (booted s used maxmsgs memory)
        (View.initial (nodesFrom (maxmsgs - 1) memory)) ∧
      (View.initial (nodesFrom (maxmsgs - 1) memory)).slots (booted s used maxmsgs memory) = noSlots := by
  obtain ⟨node, result, _⟩ := linkNodes_frame (maxmsgs - 1) memory { s with
    kernel := atBoot used
    ptfree := memory
    porttab := fun portid => if isbadport portid then s.porttab portid
      else { s.porttab portid with ptstate := .free, ptseq := 0 }
    ptnextid := 0
    changes := fun _ => 0 }
  have reaches := linkNodes_reaches (maxmsgs - 1) real { s with
    kernel := atBoot used
    ptfree := memory
    porttab := fun portid => if isbadport portid then s.porttab portid
      else { s.porttab portid with ptstate := .free, ptseq := 0 }
    ptnextid := 0
    changes := fun _ => 0 }
  rw [result] at reaches
  have isBooted : booted s used maxmsgs memory = _ := result
  rw [isBooted]
  refine ⟨⟨⟨rfl, fun portid good => ?_, fun portid good => ?_, fun portid good used => absurd rfl used,
    fun pid point here => ?_, ⟨atBoot_law used, ?_, ?_, ?_⟩, ?_⟩, fun _ _ => trivial⟩, rfl⟩
  · dsimp only
    rw [if_neg (by simp [good])]
    rfl
  · dsimp only
    rw [if_neg (by simp [good])]
    rfl
  · cases here
  · rintro member ⟨_, keeps⟩
    exact keeps.elim
  · rintro member other ⟨_, keeps⟩
    exact keeps.elim
  · rintro member other point ⟨_, keeps⟩
    exact keeps.elim
  · refine ⟨reaches, fun portid _ => ⟨fun opened => (by cases opened), fun newstate clears => ?_⟩, fun _ _ => rfl, ?_, ⟨fun index => ?_, fun index other address here there => ?_, fun address => ?_⟩⟩
    · simp [View.initial] at clears
    · rw [length_nodesFrom]
      unfold turns
      omega
    · cases index with
      | none => exact nodesFrom_nodup _ _
      | some portid => exact List.nodup_nil
    · cases index with
      | none =>
        cases other with
        | none => rfl
        | some portid => cases there
      | some portid => cases here
    · constructor
      · exact fun member => ⟨none, member⟩
      · rintro ⟨index, member⟩
        cases index with
        | none => exact member
        | some portid => cases member

end Boot

/-- The sequence number of a port changes less than 2^32 times while a call waits or is ready. -/
def Fewer (s : System) : Move → Prop
  | .call _ _ => True
  | .goOn pid => match s.kernel.process pid with
    | .ready (.sending portid _ _ began) | .ready (.receiving portid _ began) => s.changes portid < began + 2 ^ 32
    | _ => True

/-- Calls that never wait. -/
theorem fewer_of_calls {events : List (Event System Move (List Effect))}
    (calls : ∀ move ∈ events.map Event.call, ∃ pid call, move = .call pid call) : Meets Fewer events := by
  intro event member
  obtain ⟨pid, call, isCall⟩ := calls event.call (List.mem_map.mpr ⟨event, member, rfl⟩)
  rw [isCall]
  trivial

section Steps

variable {all : List Nat} {s t : System} {v w : View} {pid : Nat} {point : Point} {move : Move}
  {output history : List Effect}

/-- A call up to its first switch. -/
theorem Law.exec (law : Law all s v) (idle : s.kernel.process pid = .idle) {call : Call}
    (completed : exec s pid call = some (output, t)) :
    ∃ w, Law all t w ∧ Happen (v.slots s) output (w.slots t) := by
  cases call with
  | ptcreate count =>
    obtain ⟨_, done⟩ := @Law.ptcreate _ _ _ _ count law idle
    cases completed
    exact done
  | ptsend portid msg => exact law.ptsend idle completed
  | ptrecv portid => exact (law.ptrecv idle).2 output t completed
  | ptreset portid => exact law.ptclear idle (by simp) completed
  | ptdelete portid => exact law.ptclear idle (by simp) completed

/-- A process comes back from behind its `signal`. -/
theorem Law.returns (law : Law all s v) (ready : s.kernel.process pid = .ready point)
    (quiet : ∀ port side generation, ¬ Taking port side generation point) (value : Int) :
    Law all ((s.place pid .idle).finish pid value).2 v ∧
      Happen (v.slots s) ((s.place pid .idle).finish pid value).1
        (v.slots ((s.place pid .idle).finish pid value).2) := by
  have runs : Law all (s.place pid .idle) v :=
    ⟨law.toSound.run ready fun _ _ => quiet _ _ _, law.balanced⟩
  exact runs.finish (place_self _) value

/-- Every step keeps the law and does to the queues what its effects say. -/
theorem Law.step (law : Law all s v) (fewer : Fewer s move) (completed : step s move = some (output, t)) :
    ∃ w, Law all t w ∧ Happen (v.slots s) output (w.slots t) := by
  cases move with
  | call pid call =>
    unfold Ports.step at completed
    dsimp only at completed
    split at completed
    case isTrue idle => exact law.exec idle completed
    case isFalse => cases completed
  | goOn pid =>
    unfold Ports.step at completed
    dsimp only at completed
    unfold Fewer at fewer
    dsimp only at fewer
    split at completed
    case h_2 => cases completed
    case h_3 => cases completed
    case h_1 point ready =>
      rw [ready] at fewer
      cases point with
      | sending portid seq msg began => exact law.sending ready fewer completed
      | receiving portid seq began => exact (law.receiving ready fewer).2 output t completed
      | sent =>
        cases completed
        exact ⟨v, law.returns ready (fun _ _ _ => id) ok⟩
      | received msg =>
        cases completed
        exact ⟨v, law.returns ready (fun _ _ _ => id) (word msg)⟩
      | clearing portid newstate =>
        have result : Ports.clearSecond (s.place pid .idle) pid portid newstate = (output, t) := Option.some.inj completed
        have done := law.afterFirst ready
        rwa [result] at done
      | cleared portid newstate =>
        have result : Ports.clearEnd (s.place pid .idle) pid portid newstate = (output, t) := Option.some.inj completed
        have done := law.afterSecond ready
        rwa [result] at done

/-- A state of a history: its law, and the queues that the effects so far make. -/
def Reached (all : List Nat) (s : System) (history : List Effect) : Prop :=
  ∃ v, Law all s v ∧ Happen noSlots history (v.slots s)

theorem Reached.step (reached : Reached all s history) (fewer : Fewer s move)
    (completed : Ports.step s move = some (output, t)) : Reached all t (history ++ output) := by
  obtain ⟨v, law, happen⟩ := reached
  obtain ⟨w, after, happens⟩ := law.step fewer completed
  exact ⟨w, after, happen.append happens⟩

end Steps

/-- The free list and the queues, and what the history says about them. -/
structure Delivery (maxmsgs : Nat) (history : List Effect) (s : System) (spare : List Nat)
    (queue : Int → List Nat) : Prop where
  free : Reaches s.next null s.ptfree spare
  queued : ∀ portid, isbadport portid = false → (s.porttab portid).ptstate = .alloc →
    Reaches s.next null (s.porttab portid).pthead (queue portid)
  unused : ∀ portid, isbadport portid = false → (s.porttab portid).ptstate ≠ .alloc → queue portid = []
  constant : spare.length + ((List.range nports.toNat).map fun portid : Nat => (queue portid).length).sum = maxmsgs
  inOrder : ∀ portid, (ledgers history portid).sent =
    (ledgers history portid).received ++ (queue portid).map fun address => (s.node address).ptmsg
  bounded : ∀ portid, ((queue portid).length : Int) ≤ (ledgers history portid).count

/-- A receiver that passes its checks finds a message: one that is still to go on, and one that makes
its call now. -/
structure Finds (s : System) : Prop where
  later : ∀ pid portid seq began, s.kernel.process pid = .ready (.receiving portid seq began) →
    Fewer s (.goOn pid) → (s.porttab portid).ptstate = .alloc → (s.porttab portid).ptseq = seq →
    (s.porttab portid).pthead ≠ null
  now : ∀ pid portid kernel, s.kernel.process pid = .idle → isbadport portid = false →
    (s.porttab portid).ptstate = .alloc →
    wait s.kernel pid (.receiving portid (s.porttab portid).ptseq (s.changes portid))
      (s.porttab portid).ptrsem = (.passed, kernel) → (s.porttab portid).pthead ≠ null

section Delivering

variable {s last : System} {used : Int → Processes.Sstate} {all : List Nat} {maxmsgs memory : Nat}
  {history : List Effect} {events : List (Event System Move (List Effect))}

/-- The free list and the queues of the ports. -/
def ports : List (Option Int) := none :: (List.range nports.toNat).map fun portid : Nat => some (portid : Int)

theorem ports_nodup : ports.Nodup := by decide

theorem bad_of_not_mem_ports {portid : Int} (outside : some portid ∉ ports) : isbadport portid = true := by
  by_contra good
  have range : 0 ≤ portid ∧ portid < nports := by
    unfold isbadport at good
    simp only [decide_eq_true_eq] at good
    omega
  refine outside (List.mem_cons_of_mem _ (List.mem_map.mpr ⟨portid.toNat, ?_, ?_⟩))
  · rw [List.mem_range]
    lia
  · rw [Int.toNat_of_nonneg range.1]

/-- The law accounts for the nodes and the messages. -/
theorem Reached.delivery (reached : Reached all s history) (distinct : all.Nodup) :
    ∃ spare queue, Delivery all.length history s spare queue := by
  obtain ⟨v, law, happen⟩ := reached
  have accounts := history_accounts happen
  refine ⟨v.free, v.queue, law.nodes.free, fun portid good isAlloc => ?_, fun portid good notAlloc => ?_, ?_,
    fun portid => (accounts portid).sent, fun portid => ?_⟩
  · exact ((law.nodes.queues portid good).reaches ((law.toSound.opened_iff good).mp isAlloc)).1
  · exact law.nodes.unused portid (Or.inr fun opened => notAlloc ((law.toSound.opened_iff good).mpr opened))
  · have total := @Divided.total _ _ _ _ law.nodes.divided distinct ports ports_nodup fun index outside => ?_
    · rw [ports, List.map_cons, List.sum_cons, List.map_map] at total
      exact total
    · cases index with
      | none => exact absurd List.mem_cons_self outside
      | some portid => exact law.nodes.unused portid (Or.inl (bad_of_not_mem_ports outside))
  · have bounded := (accounts portid).bounded
    unfold View.slots View.messages at bounded
    dsimp only at bounded
    rw [List.length_map] at bounded
    exact le_trans bounded (accounts portid).limit_le

theorem Reached.finds (reached : Reached all s history) : Finds s := by
  obtain ⟨v, law, _⟩ := reached
  refine ⟨fun pid portid seq began ready fewer => ?_, fun pid portid kernel idle => ?_⟩
  · unfold Fewer at fewer
    dsimp only at fewer
    rw [ready] at fewer
    exact (law.receiving ready fewer).1
  · exact (law.ptrecv idle).1 kernel

/-- In every run from boot, receivers find messages, the messages that were taken from a port since it
was made or cleared are the first of those that were sent to it since, no more of them wait than its
count says, and no node is lost. -/
theorem ports_deliver_in_order (someNodes : 0 < maxmsgs) (real : memory ≠ null)
    (fits : memory + 8 * maxmsgs ≤ 2 ^ 32) (run : Run step (booted s used maxmsgs memory) events last)
    (fewer : Meets Fewer events) :
    Finds last ∧ ∃ spare queue, Delivery maxmsgs (events.flatMap Event.reply) last spare queue := by
  obtain ⟨law, slots⟩ := booted_law s used someNodes real fits
  have reached : Reached (nodesFrom (maxmsgs - 1) memory) last ([] ++ events.flatMap Event.reply) :=
    history_last (Reached (nodesFrom (maxmsgs - 1) memory)) (fun _ => Fewer)
      (fun _ _ _ _ _ before condition completed => before.step condition completed) _ last events run []
      ⟨_, law, slots ▸ .nil _⟩ (meetsAfter_of_meets Fewer [] events fewer)
  rw [List.nil_append] at reached
  have length : (nodesFrom (maxmsgs - 1) memory).length = maxmsgs := by
    rw [length_nodesFrom]
    lia
  exact ⟨reached.finds, length ▸ reached.delivery (nodesFrom_nodup _ _)⟩

theorem first_of_two_is_received : ∃ events last, Run step (booted blank (fun _ => .free) 3 8) events last ∧
    (ledgers (events.flatMap Event.reply) 0).received = [5] ∧ Finds last ∧
      ∃ spare queue, Delivery 3 (events.flatMap Event.reply) last spare queue := by
  obtain ⟨events, last, run, checked⟩ := trace_exists step (booted blank (fun _ => .free) 3 8)
    [.call 1 (.ptcreate 2), .call 1 (.ptsend 0 5), .call 1 (.ptsend 0 7), .call 2 (.ptrecv 0)]
    (fun events _ => decide (events.map Event.call = [.call 1 (.ptcreate 2), .call 1 (.ptsend 0 5),
      .call 1 (.ptsend 0 7), .call 2 (.ptrecv 0)] ∧ (ledgers (events.flatMap Event.reply) 0).received = [5]))
    (by decide +kernel)
  obtain ⟨calls, received⟩ := of_decide_eq_true checked
  have fewer : Meets Fewer events := fewer_of_calls (by rw [calls]; simp)
  exact ⟨events, last, run, received, ports_deliver_in_order (by decide) (by decide) (by decide) run fewer⟩

end Delivering

end Xinu.Ports
