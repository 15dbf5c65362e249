import Xinu.PortLaws
import Xinu.PortQueues

/-!
# The steps of the ports

Each step of a process keeps the law of the ports and does to the messages what its effects say: the
system refines the table of bounded queues.
-/

namespace Xinu.Ports

open Semaphores Runs NullTerminated Partitions

/-- The law between two steps. -/
structure Law (all : List Nat) (s : System) (v : View) : Prop extends Sound all s v where
  balanced : ∀ portid, isbadport portid = false → v.Balanced portid

/-- The queues that a view stands for. -/
def View.slots (v : View) (s : System) (portid : Int) : Slot := ⟨v.limit portid, v.messages s portid⟩

section Moves

variable {all : List Nat} {s t r : System} {v w : View} {pid : Nat} {point : Point} {portid : Int}
  {side : Side} {output : List Effect}

/-- A port that a step does not concern stays balanced. -/
theorem View.Balanced.congr {other : Int} (balanced : v.Balanced other)
    (stage : w.stage other = v.stage other) (queue : (w.queue other).length = (v.queue other).length)
    (limit : w.limit other = v.limit other)
    (grants : ∀ side, w.grants (other, side) = v.grants (other, side)) : w.Balanced other := by
  unfold View.Balanced at *
  rw [stage, queue, limit, grants, grants]
  exact balanced

/-- An open port. -/
theorem Sound.opened_iff (sound : Sound all s v) (good : isbadport portid = false) :
    (s.porttab portid).ptstate = .alloc ↔ v.stage portid = .opened := by
  rw [sound.state portid good]
  cases v.stage portid <;> simp [Stage.state]

theorem Sound.kept_of_opened (_ : Sound all s v) (good : isbadport portid = false)
    (opened : v.stage portid = .opened) (side : Side) : v.Kept (portid, side) := by
  refine ⟨good, ?_⟩
  dsimp only
  rw [opened]
  trivial

/-- An idle process takes nothing. -/
theorem idle_takes_nothing {kernel : Kernel Point} (idle : kernel.process pid = .idle) (point : Point) :
    kernel.process pid ≠ .ready point := by
  rw [idle]
  simp

/-- A call that returns. -/
theorem Sound.finish (sound : Sound all s v) (idle : s.kernel.process pid = .idle) :
    Sound all (s.place pid .idle) v :=
  sound.place (by rw [idle]; exact awake_idle) awake_idle (fun _ point _ _ => idle_takes_nothing idle point)
    (by simp) (by simp [Process.point])

theorem Law.finish (law : Law all s v) (idle : s.kernel.process pid = .idle) (value : Int) :
    Law all (s.finish pid value).2 v ∧ Happen (v.slots s) (s.finish pid value).1 (v.slots (s.finish pid value).2) :=
  ⟨⟨law.toSound.finish idle, law.balanced⟩, happen_returned _ pid value⟩

/-- A process goes on at a point at which it does not take. -/
theorem Sound.quiet (sound : Sound all s v) (idle : s.kernel.process pid = .idle)
    (quiet : ∀ port side generation, ¬ Taking port side generation point) (known : PointSound s v pid point) :
    Sound all (s.place pid (.ready point)) v := by
  refine sound.place (by rw [idle]; exact awake_idle) awake_ready
    (fun _ point _ _ => idle_takes_nothing idle point) (fun member other _ takes here => ?_) fun other here => ?_
  · cases here
    exact quiet _ _ _ takes
  · cases here
    exact known

/-- A released process begins to run: it uses up its grant. -/
theorem Sound.goOn (sound : Sound all s v) {member : Int × Side} (kept : v.Kept member)
    (takes : v.taking s member point) (ready : s.kernel.process pid = .ready point) :
    s.sem member ≠ Semaphores.syserr ∧ 0 < v.grants member ∧ Sound all (s.place pid .idle)
      { v with grants := Function.update v.grants member (v.grants member - 1) } := by
  obtain ⟨good, some_, family⟩ := sound.family.goOn kept takes ready awake_idle (by simp)
  refine ⟨good, some_, sound.withKernel family fun other point here => ?_⟩
  rcases eq_or_ne other pid with rfl | apart
  · rw [place_self] at here
    cases here
  · rw [place_of_ne apart] at here
    exact Or.inl here

/-- Another process begins to run. -/
theorem Sound.run (sound : Sound all s v) (ready : s.kernel.process pid = .ready point)
    (stale : ∀ member, v.Kept member → ¬ v.taking s member point) : Sound all (s.place pid .idle) v := by
  refine sound.place (by rw [ready]; exact awake_ready) awake_idle (fun member other kept takes here => ?_)
    (by simp) (by simp [Process.point])
  rw [ready] at here
  cases here
  exact stale member kept takes

/-- Only the nodes move. -/
theorem Sound.relist (sound : Sound all s v) (nodes : Nodes all t w) (kernel : t.kernel = s.kernel)
    (changes : t.changes = s.changes) (nextid : t.ptnextid = s.ptnextid)
    (entries : ∀ port, ∃ head tail, t.porttab port = { s.porttab port with pthead := head, pttail := tail })
    (stage : w.stage = v.stage) (clearer : w.clearer = v.clearer) (limit : w.limit = v.limit)
    (grants : w.grants = v.grants) : Sound all t w := by
  have sems : t.sem = s.sem := by
    funext ⟨port, side⟩
    obtain ⟨head, tail, entry⟩ := entries port
    unfold System.sem
    dsimp only
    rw [entry]
    cases side <;> rfl
  refine ⟨nextid ▸ sound.next, fun port good => ?_, fun port good => ?_, fun port good => ?_,
    fun pid point here => ?_, ?_, nodes⟩
  · obtain ⟨head, tail, entry⟩ := entries port
    rw [entry, stage]
    exact sound.state port good
  · obtain ⟨head, tail, entry⟩ := entries port
    rw [entry, changes]
    exact sound.seq port good
  · obtain ⟨head, tail, entry⟩ := entries port
    rw [entry, stage, limit]
    exact sound.capacity port good
  · rw [kernel] at here
    have same : PointSound t w pid point = PointSound s v pid point := by
      cases point <;> simp [PointSound, changes, stage, clearer]
    rw [same]
    exact sound.points pid point here
  · have same : w.Kept = v.Kept ∧ w.taking t = v.taking s := by
      unfold View.Kept View.taking
      rw [stage, changes]
      exact ⟨rfl, rfl⟩
    rw [kernel, sems, grants, same.1, same.2]
    exact sound.family

theorem porttab_link (msg : UInt32) (port : Int) : ∃ head tail,
    (s.link portid msg).porttab port = { s.porttab port with pthead := head, pttail := tail } := by
  have changed : ∀ (kept : System) (entry : Ptentry), kept.porttab = s.porttab →
      (∃ head tail, entry = { s.porttab portid with pthead := head, pttail := tail }) → ∃ head tail,
      (kept.setPort portid entry).porttab port = { s.porttab port with pthead := head, pttail := tail } := by
    rintro kept entry same ⟨head, tail, isEntry⟩
    rcases eq_or_ne port portid with rfl | apart
    · exact ⟨head, tail, (Function.update_self ..).trans isEntry⟩
    · exact ⟨_, _, (Function.update_of_ne apart _ _).trans (congrFun same port)⟩
  unfold System.link
  dsimp only
  split
  · exact changed _ _ rfl ⟨_, _, rfl⟩
  · exact changed _ _ rfl ⟨_, _, rfl⟩

/-- The messages of one port change, and nothing else of a view but the lists of nodes. -/
structure Requeued (s t : System) (v w : View) (portid : Int) (messages : List UInt32) : Prop where
  stage : w.stage = v.stage
  limit : w.limit = v.limit
  grants : w.grants = v.grants
  here : w.messages t portid = messages
  elsewhere : ∀ other, other ≠ portid → w.messages t other = v.messages s other

/-- A message goes behind the others of a port. -/
theorem Sound.link (sound : Sound all s v) (good : isbadport portid = false)
    (opened : v.stage portid = .opened) (real : s.ptfree ≠ null) (msg : UInt32) :
    ∃ w, Sound all (s.link portid msg) w ∧
      Requeued s (s.link portid msg) v w portid (v.messages s portid ++ [msg]) := by
  obtain ⟨rest, isFree, nodes⟩ := @Nodes.link _ _ _ _ msg sound.nodes good opened real
  refine ⟨_, sound.relist nodes ?_ ?_ ?_ (porttab_link msg) rfl rfl rfl rfl, rfl, rfl, rfl, ?_, fun other apart => ?_⟩
  · unfold System.link
    dsimp only
    split <;> rfl
  · unfold System.link
    dsimp only
    split <;> rfl
  · unfold System.link
    dsimp only
    split <;> rfl
  · exact (sound.nodes.link_messages real portid).trans (if_pos rfl)
  · exact (sound.nodes.link_messages real other).trans (if_neg apart)

theorem porttab_unlink (port : Int) : ∃ head tail,
    (s.unlink portid).porttab port = { s.porttab port with pthead := head, pttail := tail } := by
  rcases eq_or_ne port portid with rfl | apart
  · have entry : (s.unlink port).porttab port = if (s.porttab port).pthead = (s.porttab port).pttail then
        { s.porttab port with pthead := null, pttail := null }
      else { s.porttab port with pthead := (s.node (s.porttab port).pthead).ptnext } := Function.update_self ..
    rw [entry]
    split
    · exact ⟨_, _, rfl⟩
    · exact ⟨_, _, rfl⟩
  · exact ⟨_, _, Function.update_of_ne apart _ _⟩

/-- The first message of a port is taken. -/
theorem Sound.unlink (sound : Sound all s v) (good : isbadport portid = false)
    (opened : v.stage portid = .opened) (real : (s.porttab portid).pthead ≠ null) :
    ∃ w rest, v.messages s portid = (s.node (s.porttab portid).pthead).ptmsg :: rest ∧
      Sound all (s.unlink portid) w ∧ Requeued s (s.unlink portid) v w portid rest := by
  obtain ⟨rest, isQueue, nodes⟩ := sound.nodes.unlink good opened real
  refine ⟨_, _, ?_, sound.relist nodes rfl rfl rfl porttab_unlink rfl rfl rfl rfl, rfl, rfl, rfl,
    (unlink_messages portid).trans (if_pos rfl), fun other apart => (unlink_messages other).trans (if_neg apart)⟩
  rw [View.messages, isQueue, List.map_cons]

/-- A process that is not waiting is not touched by `signal`. -/
theorem signal_idle {kernel : Kernel Point} (idle : kernel.process pid = .idle) (sem : Int) :
    (signal kernel sem).2.process pid = .idle := by
  rcases signal_stays kernel sem pid with same | released
  · exact same.trans idle
  · rw [released, idle]
    rfl

/-- The end of `ptsend` or `ptrecv`: the other semaphore is signalled, and the process goes on at a point
or returns. -/
theorem Sound.signalled (sound : Sound all s v) (idle : s.kernel.process pid = .idle)
    (kept : v.Kept (portid, side)) (quiet : ∀ port side generation, ¬ Taking port side generation point)
    (known : PointSound s v pid point) {effect : Effect} {value : Int}
    (completed : (match Semaphores.signal s.kernel (s.sem (portid, side)) with
      | (true, kernel) => some ([effect], { s with kernel := kernel.place pid (.ready point) })
      | (false, kernel) =>
        let (effects, s) := { s with kernel := kernel }.finish pid value
        some (effect :: effects, s)) = some (output, t)) :
    Sound all t { v with grants := Function.update v.grants (portid, side) (v.grants (portid, side) + 1) } ∧
      t.node = s.node ∧ (output = [effect] ∨ output = [effect, .returned pid value]) := by
  have after := sound.signal kept
  have stillIdle := signal_idle idle (s.sem (portid, side))
  split at completed
  case h_1 kernel switched =>
    rw [switched] at after stillIdle
    cases completed
    exact ⟨after.quiet stillIdle quiet (by cases point <;> exact known), rfl, Or.inl rfl⟩
  case h_2 kernel quiet =>
    rw [quiet] at after stillIdle
    cases completed
    exact ⟨after.finish stillIdle, rfl, Or.inr rfl⟩

/-- The queue of one port changes. -/
theorem slots_update {slot : Slot} (limit : w.limit portid = slot.limit) (messages : w.messages t portid = slot.messages)
    (limits : ∀ other, other ≠ portid → w.limit other = v.limit other)
    (others : ∀ other, other ≠ portid → w.messages t other = v.messages s other) :
    w.slots t = Function.update (v.slots s) portid slot := by
  funext other
  by_cases here : other = portid
  · rw [here, Function.update_self, View.slots, limit, messages]
  · rw [Function.update_of_ne here, View.slots, View.slots, limits other here, others other here]

/-- An effect with the return of its call. -/
theorem Happens.returning {first last : Int → Slot} {effect : Effect} {value : Int}
    (happens : Happens first effect last)
    (shape : output = [effect] ∨ output = [effect, .returned pid value]) : Happen first output last := by
  rcases shape with rfl | rfl
  · exact .cons _ _ _ _ _ happens (.nil _)
  · exact .cons _ _ _ _ _ happens (happen_returned _ _ _)

/-- The grants of an open port between two steps. -/
theorem View.Balanced.opened (balanced : v.Balanced portid) (opened : v.stage portid = .opened) (s : System) :
    v.grants (portid, .send) = v.limit portid - (v.messages s portid).length ∧
      v.grants (portid, .recv) = (v.messages s portid).length ∧
      ((v.messages s portid).length : Int) ≤ v.limit portid := by
  unfold View.Balanced at balanced
  rw [opened] at balanced
  rwa [View.messages, List.length_map]

/-- The messages of one port change, and the grants of its semaphores with them. -/
theorem Law.requeued (balanced : ∀ port, isbadport port = false → v.Balanced port)
    (opened : v.stage portid = .opened) {x : View} {grants : Int × Side → Int} {messages : List UInt32}
    (requeued : Requeued s r { v with grants := grants } x portid messages) (sound : Sound all t w)
    (same : w.stage = x.stage ∧ w.limit = x.limit ∧ w.queue = x.queue) (node : t.node = r.node)
    (others : ∀ other side, other ≠ portid → w.grants (other, side) = v.grants (other, side))
    (send : w.grants (portid, .send) = v.limit portid - messages.length)
    (recv : w.grants (portid, .recv) = messages.length) (room : (messages.length : Int) ≤ v.limit portid) :
    Law all t w ∧ w.slots t = Function.update (v.slots s) portid ⟨v.limit portid, messages⟩ := by
  have stage : w.stage = v.stage := same.1.trans requeued.stage
  have limit : w.limit = v.limit := same.2.1.trans requeued.limit
  have contents : ∀ other, w.messages t other = x.messages r other := by
    intro other
    rw [View.messages, View.messages, node, same.2.2]
  have lengths : ∀ (view : View) (state : System) (other : Int),
      (view.queue other).length = (view.messages state other).length :=
    fun view state other => (List.length_map ..).symm
  refine ⟨⟨sound, fun other otherGood => ?_⟩, slots_update (congrFun limit portid)
    ((contents portid).trans requeued.here) (fun other _ => congrFun limit other)
    fun other apart => (contents other).trans (requeued.elsewhere other apart)⟩
  by_cases here : other = portid
  · rw [here]
    unfold View.Balanced
    rw [stage, opened]
    dsimp only
    rw [lengths w t, contents, requeued.here, limit]
    exact ⟨send, recv, room⟩
  · refine (balanced other otherGood).congr (congrFun stage other) ?_ (congrFun limit other)
      fun side => others other side here
    rw [lengths w t, lengths v s, contents, requeued.elsewhere other here]
    rfl

/-- A sender that has its grant puts its message behind the others. -/
theorem send_done (balanced : ∀ port, isbadport port = false → v.Balanced port)
    (good : isbadport portid = false) (opened : v.stage portid = .opened)
    (granted : 0 < v.grants (portid, .send))
    (sound : Sound all s { v with
      grants := Function.update v.grants (portid, .send) (v.grants (portid, .send) - 1) })
    (idle : s.kernel.process pid = .idle) {seq : Int32} {msg : UInt32}
    (current : (s.porttab portid).ptseq = seq)
    (completed : ptsendRest s pid portid seq msg = some (output, t)) :
    ∃ w, Law all t w ∧ Happen (v.slots s) output (w.slots t) := by
  obtain ⟨places, waiting, _⟩ := (balanced portid good).opened opened s
  have isAlloc : (s.porttab portid).ptstate = .alloc := (sound.opened_iff good).mpr opened
  unfold ptsendRest at completed
  rw [if_neg (by simp [isAlloc, current])] at completed
  by_cases noNode : s.ptfree = null
  · rw [if_pos noNode] at completed
    cases completed
  rw [if_neg noNode] at completed
  obtain ⟨x, linked, requeued⟩ := sound.link good opened noNode msg
  replace requeued : Requeued _ _ _ x portid (v.messages s portid ++ [msg]) := requeued
  have stillIdle : (s.link portid msg).kernel.process pid = .idle := by
    have same : (s.link portid msg).kernel = s.kernel := by
      unfold System.link
      dsimp only
      split <;> rfl
    rw [same]
    exact idle
  obtain ⟨after, node, shape⟩ := @Sound.signalled _ _ _ _ _ .sent portid .recv _ linked stillIdle
    (linked.kept_of_opened good (requeued.stage ▸ opened) .recv) (fun _ _ _ => id) trivial _ _ completed
  have happens : Happens (v.slots s) (.sent portid msg) (Function.update (v.slots s) portid
      ⟨v.limit portid, v.messages s portid ++ [msg]⟩) := by
    refine .sent portid msg ?_
    show ((v.messages s portid).length : Int) < v.limit portid
    omega
  have settled := Law.requeued balanced opened requeued after ⟨rfl, rfl, rfl⟩ node ?_ ?_ ?_ ?_
  · obtain ⟨law, slots⟩ := settled
    exact ⟨_, law, Happens.returning (slots ▸ happens) shape⟩
  · intro other otherSide apart
    simp [requeued.grants, apart]
  · simp only [requeued.grants, ne_eq, Prod.mk.injEq, reduceCtorEq, and_false, not_false_eq_true,
      Function.update_of_ne, Function.update_self, List.length_append, List.length_singleton]
    lia
  · simp only [requeued.grants, ne_eq, Prod.mk.injEq, reduceCtorEq, and_false, not_false_eq_true,
      Function.update_of_ne, Function.update_self, List.length_append, List.length_singleton]
    lia
  · rw [List.length_append, List.length_singleton]
    omega

/-- A receiver that has its grant finds a message, and takes the first one. -/
theorem recv_done (balanced : ∀ port, isbadport port = false → v.Balanced port)
    (good : isbadport portid = false) (opened : v.stage portid = .opened)
    (granted : 0 < v.grants (portid, .recv))
    (sound : Sound all s { v with
      grants := Function.update v.grants (portid, .recv) (v.grants (portid, .recv) - 1) })
    (idle : s.kernel.process pid = .idle) {seq : Int32}
    (current : (s.porttab portid).ptseq = seq) :
    (s.porttab portid).pthead ≠ null ∧ ∀ output t, ptrecvRest s pid portid seq = some (output, t) →
      ∃ w, Law all t w ∧ Happen (v.slots s) output (w.slots t) := by
  obtain ⟨places, waiting, room⟩ := (balanced portid good).opened opened s
  have isAlloc : (s.porttab portid).ptstate = .alloc := (sound.opened_iff good).mpr opened
  have real : (s.porttab portid).pthead ≠ null := by
    intro isNull
    have isEmpty : v.queue portid = [] := ((sound.nodes.queues portid good).reaches opened).1.nil_iff.mpr isNull
    rw [View.messages, isEmpty, List.map_nil, List.length_nil] at waiting
    omega
  refine ⟨real, fun output t completed => ?_⟩
  unfold ptrecvRest at completed
  rw [if_neg (by simp [isAlloc, current]), if_neg real] at completed
  obtain ⟨x, rest, isFirst, unlinked, requeued⟩ := sound.unlink good opened real
  have messages : v.messages s portid = (s.node (s.porttab portid).pthead).ptmsg :: rest := isFirst
  obtain ⟨after, node, shape⟩ := @Sound.signalled _ _ _ _ _ (.received (s.node (s.porttab portid).pthead).ptmsg)
    portid .send _ unlinked idle
    (unlinked.kept_of_opened good (requeued.stage ▸ opened) .send) (fun _ _ _ => id) trivial _ _ completed
  have happens : Happens (v.slots s) (.received portid (s.node (s.porttab portid).pthead).ptmsg)
      (Function.update (v.slots s) portid ⟨v.limit portid, rest⟩) := .received portid _ rest messages
  rw [messages, List.length_cons] at places waiting room
  have settled := Law.requeued balanced opened requeued after ⟨rfl, rfl, rfl⟩ node ?_ ?_ ?_ ?_
  · obtain ⟨law, slots⟩ := settled
    exact ⟨_, law, Happens.returning (slots ▸ happens) shape⟩
  · intro other otherSide apart
    simp [requeued.grants, apart]
  · simp only [requeued.grants, ne_eq, Prod.mk.injEq, reduceCtorEq, and_false, not_false_eq_true,
      Function.update_of_ne, Function.update_self]
    lia
  · simp only [requeued.grants, ne_eq, Prod.mk.injEq, reduceCtorEq, and_false, not_false_eq_true,
      Function.update_of_ne, Function.update_self]
    lia
  · omega

/-- A process whose generation is over begins to run. -/
theorem Law.stale (law : Law all s v) (ready : s.kernel.process pid = .ready point)
    (obsolete : ∀ member, v.Kept member → v.taking s member point →
      (∃ newstate, v.stage member.1 = .emptied newstate) ∨
        ∃ newstate, v.stage member.1 = .halfway newstate ∧ member.2 = .recv) :
    ∃ w, Law all (s.place pid .idle) w ∧ w.slots (s.place pid .idle) = v.slots s := by
  by_cases takes : ∃ member, v.Kept member ∧ v.taking s member point
  · obtain ⟨⟨port, side⟩, kept, takesHere⟩ := takes
    obtain ⟨_, _, sound⟩ := law.toSound.goOn kept takesHere ready
    refine ⟨_, ⟨sound, fun other good => ?_⟩, rfl⟩
    rcases eq_or_ne other port with rfl | apart
    · unfold View.Balanced
      dsimp only
      rcases obsolete _ kept takesHere with ⟨newstate, stage⟩ | ⟨newstate, stage, isRecv⟩
      · rw [stage]
        trivial
      · have before := law.balanced other good
        unfold View.Balanced at before
        dsimp only at stage isRecv
        subst isRecv
        rw [stage] at before ⊢
        cases newstate with
        | alloc =>
          dsimp only at before ⊢
          rwa [Function.update_of_ne (by simp)]
        | limbo => trivial
        | free => trivial
    · refine (law.balanced other good).congr rfl rfl rfl fun otherSide => ?_
      simp [apart]
  · have stays := law.toSound.run ready fun member kept takesHere => takes ⟨member, kept, takesHere⟩
    exact ⟨v, ⟨stays, law.balanced⟩, rfl⟩

/-- A semaphore that serves a generation that is over. -/
theorem serves_stale {stage : Stage} {changes began : Nat} (serves : began = stage.serves changes side)
    (stale : began ≠ changes) :
    (∃ newstate, stage = .emptied newstate) ∨ ∃ newstate, stage = .halfway newstate ∧ side = .recv := by
  cases stage with
  | closed => exact absurd serves stale
  | opened => exact absurd serves stale
  | emptied newstate => exact Or.inl ⟨newstate, rfl⟩
  | halfway newstate =>
    cases side with
    | send => exact absurd serves stale
    | recv => exact Or.inr ⟨newstate, rfl, rfl⟩
  | nearly newstate => exact absurd serves stale

/-- Sequence numbers differ where less than 2^32 changes lie between them. -/
theorem seq_ne {began changes : Nat} (before : began < changes) (fewer : changes < began + 2 ^ 32) :
    Int32.ofNat changes ≠ Int32.ofNat began := by
  intro same
  have bits : (Int32.ofNat changes).toBitVec.toNat = (Int32.ofNat began).toBitVec.toNat := by rw [same]
  rw [Int32.toBitVec_ofNat', Int32.toBitVec_ofNat', BitVec.toNat_ofNat, BitVec.toNat_ofNat] at bits
  omega

/-- A sender goes on. -/
theorem Law.sending (law : Law all s v) {seq : Int32} {msg : UInt32} {began : Nat}
    (ready : s.kernel.process pid = .ready (.sending portid seq msg began))
    (fewer : s.changes portid < began + 2 ^ 32)
    (completed : ptsendRest (s.place pid .idle) pid portid seq msg = some (output, t)) :
    ∃ w, Law all t w ∧ Happen (v.slots s) output (w.slots t) := by
  obtain ⟨good, isSeq, before, current⟩ := law.points pid _ (by rw [ready]; rfl)
  by_cases same : began = s.changes portid
  · have opened := current same
    have kept := law.toSound.kept_of_opened good opened .send
    have takes : v.taking s (portid, .send) (.sending portid seq msg began) := by
      refine ⟨rfl, rfl, ?_⟩
      dsimp only
      rw [opened]
      exact same
    obtain ⟨_, granted, sound⟩ := law.toSound.goOn kept takes ready
    have isCurrent : ((s.place pid .idle).porttab portid).ptseq = seq := by
      rw [isSeq, same]
      exact law.seq portid good
    exact @send_done _ (s.place pid .idle) _ _ _ _ _ law.balanced good opened granted sound (place_self _) _ _
      isCurrent completed
  · obtain ⟨w, after, slots⟩ := law.stale ready fun ⟨port, side⟩ kept takes => by
      obtain ⟨isSend, rfl, serves⟩ := takes
      exact serves_stale serves same
    unfold ptsendRest at completed
    rw [if_pos (Or.inr ?_)] at completed
    · cases completed
      obtain ⟨finished, happen⟩ := after.finish (place_self _) syserr
      exact ⟨w, finished, slots ▸ happen⟩
    · show (s.porttab portid).ptseq ≠ seq
      rw [law.seq portid good, isSeq]
      exact seq_ne (by lia) fewer

/-- A receiver goes on. It fails, or it finds a message. -/
theorem Law.receiving (law : Law all s v) {seq : Int32} {began : Nat}
    (ready : s.kernel.process pid = .ready (.receiving portid seq began))
    (fewer : s.changes portid < began + 2 ^ 32) :
    ((s.porttab portid).ptstate = .alloc → (s.porttab portid).ptseq = seq →
      (s.porttab portid).pthead ≠ null) ∧
    ∀ output t, ptrecvRest (s.place pid .idle) pid portid seq = some (output, t) →
      ∃ w, Law all t w ∧ Happen (v.slots s) output (w.slots t) := by
  obtain ⟨good, isSeq, before, current⟩ := law.points pid _ (by rw [ready]; rfl)
  by_cases same : began = s.changes portid
  · have opened := current same
    have kept := law.toSound.kept_of_opened good opened .recv
    have takes : v.taking s (portid, .recv) (.receiving portid seq began) := by
      refine ⟨rfl, rfl, ?_⟩
      dsimp only
      rw [opened]
      exact same
    obtain ⟨_, granted, sound⟩ := law.toSound.goOn kept takes ready
    have isCurrent : ((s.place pid .idle).porttab portid).ptseq = seq := by
      rw [isSeq, same]
      exact law.seq portid good
    obtain ⟨found, done⟩ := @recv_done _ (s.place pid .idle) _ _ _ law.balanced good opened granted sound
      (place_self _) _ isCurrent
    exact ⟨fun _ _ => found, done⟩
  · have different : ((s.place pid .idle).porttab portid).ptseq ≠ seq := by
      show (s.porttab portid).ptseq ≠ seq
      rw [law.seq portid good, isSeq]
      exact seq_ne (by omega) fewer
    refine ⟨fun _ current => absurd current different, fun output t completed => ?_⟩
    obtain ⟨w, after, slots⟩ := law.stale ready fun ⟨port, side⟩ kept takes => by
      obtain ⟨isRecv, rfl, serves⟩ := takes
      exact serves_stale serves same
    unfold ptrecvRest at completed
    rw [if_pos (Or.inr different)] at completed
    cases completed
    obtain ⟨finished, happen⟩ := after.finish (place_self _) syserr
    exact ⟨w, finished, slots ▸ happen⟩

/-- The calls that wait for a semaphore of an open port. -/
theorem Law.wait (law : Law all s v) (idle : s.kernel.process pid = .idle) (good : isbadport portid = false)
    (opened : v.stage portid = .opened) (takes : v.taking s (portid, side) point)
    (known : PointSound s v pid point) :
    wait s.kernel pid point (s.sem (portid, side)) = (.refused, s.kernel) ∨
    (∃ kernel, wait s.kernel pid point (s.sem (portid, side)) = (.passed, kernel) ∧
      kernel.process pid = .idle ∧ 0 < v.grants (portid, side) ∧ Sound all { s with kernel := kernel } { v with
        grants := Function.update v.grants (portid, side) (v.grants (portid, side) - 1) }) ∨
    ∃ kernel, wait s.kernel pid point (s.sem (portid, side)) = (.blocked, kernel) ∧
      Law all { s with kernel := kernel } v := by
  have kept := law.toSound.kept_of_opened good opened side
  rcases @Family.wait _ _ _ _ _ _ _ _ pid _ _ law.family kept takes (by rw [idle]; exact awake_idle)
    (fun _ point _ _ => idle_takes_nothing idle point) with
    ⟨_, refused⟩ | ⟨granted, kernel, passed, process, family⟩ | ⟨kernel, blocked, process, family⟩
  · exact Or.inl refused
  · refine Or.inr (Or.inl ⟨kernel, passed, process ▸ idle, granted, law.toSound.withKernel family ?_⟩)
    intro other place here
    exact Or.inl (process ▸ here)
  · refine Or.inr (Or.inr ⟨kernel, blocked, law.toSound.withKernel family ?_, law.balanced⟩)
    intro other place here
    rcases eq_or_ne other pid with rfl | apart
    · rw [process, Function.update_self] at here
      cases here
      exact Or.inr known
    · rw [process, Function.update_of_ne apart] at here
      exact Or.inl here

/-- `ptsend`. -/
theorem Law.ptsend (law : Law all s v) (idle : s.kernel.process pid = .idle) {msg : UInt32}
    (completed : ptsend s pid portid msg = some (output, t)) :
    ∃ w, Law all t w ∧ Happen (v.slots s) output (w.slots t) := by
  unfold Ports.ptsend at completed
  split at completed
  case isTrue =>
    cases completed
    exact ⟨v, law.finish idle syserr⟩
  case isFalse accepted =>
    obtain ⟨good, isAlloc⟩ := not_or.mp accepted
    replace good : isbadport portid = false := by simpa using good
    have opened : v.stage portid = .opened := (law.toSound.opened_iff good).mp (not_not.mp isAlloc)
    have takes : v.taking s (portid, .send)
        (.sending portid (s.porttab portid).ptseq msg (s.changes portid)) := by
      refine ⟨rfl, rfl, ?_⟩
      dsimp only
      rw [opened]
      rfl
    have known : PointSound s v pid (.sending portid (s.porttab portid).ptseq msg (s.changes portid)) :=
      ⟨good, law.seq portid good, le_refl _, fun _ => opened⟩
    dsimp only at completed
    rcases law.wait idle good opened takes known with
      refused | ⟨kernel, passed, stillIdle, granted, sound⟩ | ⟨kernel, blocked, after⟩
    · rw [show (s.porttab portid).ptssem = s.sem (portid, .send) from rfl, refused] at completed
      cases completed
      exact ⟨v, law.finish idle syserr⟩
    · rw [show (s.porttab portid).ptssem = s.sem (portid, .send) from rfl, passed] at completed
      exact @send_done _ { s with kernel := kernel } _ _ _ _ _ law.balanced good opened granted sound stillIdle _ _
        rfl completed
    · rw [show (s.porttab portid).ptssem = s.sem (portid, .send) from rfl, blocked] at completed
      cases completed
      exact ⟨v, after, .nil _⟩

/-- `ptrecv`. Where its `wait` lets it through, it finds a message. -/
theorem Law.ptrecv (law : Law all s v) (idle : s.kernel.process pid = .idle) :
    (∀ kernel, isbadport portid = false → (s.porttab portid).ptstate = .alloc →
      Semaphores.wait s.kernel pid (.receiving portid (s.porttab portid).ptseq (s.changes portid))
        (s.porttab portid).ptrsem = (.passed, kernel) → (s.porttab portid).pthead ≠ null) ∧
    ∀ output t, ptrecv s pid portid = some (output, t) →
      ∃ w, Law all t w ∧ Happen (v.slots s) output (w.slots t) := by
  by_cases accepted : isbadport portid = false ∧ (s.porttab portid).ptstate = .alloc
  case neg =>
    refine ⟨fun _ good isAlloc => absurd ⟨good, isAlloc⟩ accepted, fun output t completed => ?_⟩
    unfold Ports.ptrecv at completed
    rw [if_pos (by simpa [or_iff_not_imp_left] using accepted)] at completed
    cases completed
    exact ⟨v, law.finish idle syserr⟩
  obtain ⟨good, isAlloc⟩ := accepted
  have opened : v.stage portid = .opened := (law.toSound.opened_iff good).mp isAlloc
  have takes : v.taking s (portid, .recv)
      (.receiving portid (s.porttab portid).ptseq (s.changes portid)) := by
    refine ⟨rfl, rfl, ?_⟩
    dsimp only
    rw [opened]
    rfl
  have known : PointSound s v pid (.receiving portid (s.porttab portid).ptseq (s.changes portid)) :=
    ⟨good, law.seq portid good, le_refl _, fun _ => opened⟩
  have taken : ¬ (isbadport portid = true ∨ (s.porttab portid).ptstate ≠ .alloc) := by simp [good, isAlloc]
  have outcome := law.wait idle good opened takes known
  rw [show s.sem (portid, .recv) = (s.porttab portid).ptrsem from rfl] at outcome
  rcases outcome with refused | ⟨kernel, passed, stillIdle, granted, sound⟩ | ⟨kernel, blocked, after⟩
  · rw [refused]
    refine ⟨fun kernel _ _ same => (by cases same), fun output t completed => ?_⟩
    simp only [Ports.ptrecv, if_neg taken, refused] at completed
    cases completed
    exact ⟨v, law.finish idle syserr⟩
  · rw [passed]
    obtain ⟨found, done⟩ := @recv_done _ { s with kernel := kernel } _ _ _ law.balanced good opened granted sound
      stillIdle _ rfl
    refine ⟨fun _ _ _ _ => found, fun output t completed => ?_⟩
    simp only [Ports.ptrecv, if_neg taken, passed] at completed
    exact done output t completed
  · rw [blocked]
    refine ⟨fun kernel _ _ same => (by cases same), fun output t completed => ?_⟩
    simp only [Ports.ptrecv, if_neg taken, blocked] at completed
    cases completed
    exact ⟨v, after, .nil _⟩

end Moves

end Xinu.Ports
