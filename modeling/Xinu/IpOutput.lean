import Xinu.SemaphoreTokens
import Xinu.RingBuffer
import Xinu.RunConditions

/-!
# The IP output queue

`ip_enqueue` deposits a packet in the circular queue `ipoqueue`, and the process `ipout` takes
the packets out. The semaphore of the queue counts the packets that nobody was promised: when
`ipout` waits and a packet comes, `signal` gives it to `ipout`, and the count stays at zero
although the packet lies in the queue until `ipout` runs. `ip_enqueue` judges by the count alone
whether the queue is full.

The calls run with interrupts disabled; another process can run where `wait` blocks and where
`signal` makes a process ready. Which process goes on is left open. A packet is the number of its
buffer. Beside the queue the system records the packets that were accepted, taken and refused.
-/

namespace Xinu.IpOutput

open Semaphores Runs RingBuffer

/-- `IP_OQSIZ`. -/
def ipOqsiz : Nat := 8

/-- `SYSERR` and `OK`, as what `ip_enqueue` returns. -/
def syserr : Int := -1

def ok : Int := 1

/-- Where a process goes on: behind the `wait` of `ipout` and behind the `signal` of `ip_enqueue`. -/
inductive Point where
  | taking
  | enqueued
deriving DecidableEq

/-- `struct iqentry` and the processes, among them the process `ipout`. -/
structure System where
  kernel : Kernel Point
  ipout : Nat
  iqhead : Nat
  iqtail : Nat
  iqsem : Int
  iqbuf : Nat → Nat
  accepted : List Nat
  taken : List Nat
  freed : List Nat

/-- The index behind another one. -/
def following (index : Nat) : Nat := if ipOqsiz ≤ index + 1 then 0 else index + 1

/-- `ip_enqueue`. -/
def ipEnqueue (s : System) (pid pktptr : Nat) : Option Int × System :=
  if (ipOqsiz : Int) ≤ semcount s.kernel s.iqsem then
    (some syserr, { s with freed := s.freed ++ [pktptr] })
  else
    let s := { s with
      iqbuf := Function.update s.iqbuf s.iqtail pktptr, iqtail := following s.iqtail
      accepted := s.accepted ++ [pktptr] }
    match signal s.kernel s.iqsem with
    | (true, kernel) => (none, { s with kernel := kernel.place pid (.ready .enqueued) })
    | (false, kernel) => (some ok, { s with kernel := kernel })

/-- `ipout` behind its `wait`. -/
def takeNext (s : System) : System :=
  { s with iqhead := following s.iqhead, taken := s.taken ++ [s.iqbuf s.iqhead] }

/-- A turn of the loop of `ipout`, up to the packet. -/
def ipoutTurn (s : System) : System :=
  match wait s.kernel s.ipout .taking s.iqsem with
  | (.blocked, kernel) => { s with kernel := kernel }
  | (.passed, kernel) | (.refused, kernel) => takeNext { s with kernel := kernel }

/-- A process deposits a packet, `ipout` begins a turn, or a process goes on. -/
inductive Move where
  | enqueue (pid pktptr : Nat)
  | turn
  | goOn (pid : Nat)
deriving DecidableEq

/-- A process goes on. -/
def proceed (s : System) (pid : Nat) : Point → Option Int × System
  | .taking => (none, takeNext { s with kernel := s.kernel.place pid .idle })
  | .enqueued => (some ok, { s with kernel := s.kernel.place pid .idle })

/-- One move, with what `ip_enqueue` returns if it is over. -/
def step (s : System) : Move → Option (Option Int × System)
  | .enqueue pid pktptr => if s.kernel.process pid = .idle then some (ipEnqueue s pid pktptr) else none
  | .turn => if s.kernel.process s.ipout = .idle then some (none, ipoutTurn s) else none
  | .goOn pid => match s.kernel.process pid with
    | .ready point => some (proceed s pid point)
    | .idle | .waiting _ _ => none

/-- The queue as `net_init` makes it, with semaphores that others use. -/
def netInit (used : Int → Processes.Sstate) (ipout : Nat) : System where
  kernel := (semcreate (atBoot used) 0).2
  ipout := ipout
  iqhead := 0
  iqtail := 0
  iqsem := (semcreate (atBoot used : Kernel Point) 0).1
  iqbuf := fun _ => 0
  accepted := []
  taken := []
  freed := []

/-- The queue is bounded and first in, first out: the packets that were accepted are those that
`ipout` took, each once and in order, and those that lie in the queue, at most `IP_OQSIZ`. -/
def Fifo (s : System) : Prop :=
  ∃ count ≤ ipOqsiz, s.accepted = s.taken ++ contents s.iqbuf ipOqsiz s.iqhead count

/-- No packet is accepted while `ipout` was released, has not run, and the semaphore counts one
packet less than the queue can hold. -/
def Spared (s : System) : Move → Prop
  | .enqueue _ _ => ¬ (s.kernel.process s.ipout = .ready .taking ∧
      (s.kernel.semtab s.iqsem).scount = (ipOqsiz : Int) - 1)
  | _ => True

/-- The packets in the queue are the grants of its semaphore, and only `ipout` takes them. -/
structure Law (s : System) (count : Nat) : Prop where
  sems : Semaphores.Law s.kernel
  tokens : Tokens s.kernel s.iqsem (· = .taking) count
  single : ∀ pid, s.kernel.process pid = .ready .taking → pid = s.ipout
  waiter : ∀ pid sem point, s.kernel.process pid = .waiting sem point → pid = s.ipout
  head : s.iqhead < ipOqsiz
  tail : s.iqtail = (s.iqhead + count) % ipOqsiz
  room : count ≤ ipOqsiz
  order : s.accepted = s.taken ++ contents s.iqbuf ipOqsiz s.iqhead count

section Steps

variable {s after : System} {count pid pktptr : Nat} {reply : Option Int} {move : Move}

theorem following_eq {index : Nat} (inside : index < ipOqsiz) :
    following index = (index + 1) % ipOqsiz := by
  unfold following ipOqsiz at *
  split <;> lia

theorem Law.fifo (law : Law s count) : Fifo s := ⟨count, law.room, law.order⟩

/-- The packets of the queue are counted, but for one that `ipout` was promised. -/
theorem Law.count_eq (law : Law s count) : (count : Int) = max 0 (s.kernel.semtab s.iqsem).scount +
    if s.kernel.process s.ipout = .ready .taking then 1 else 0 := by
  obtain ⟨released, ⟨distinct, isReady⟩, total⟩ := law.tokens.total
  have only : ∀ pid ∈ released, pid = s.ipout := by
    intro pid member
    obtain ⟨point, rfl, ready⟩ := (isReady pid).mp member
    exact law.single pid ready
  have length : (released.length : Int) = if s.kernel.process s.ipout = .ready .taking then 1 else 0 := by
    split
    case isTrue ready =>
      have member : s.ipout ∈ released := (isReady s.ipout).mpr ⟨_, rfl, ready⟩
      obtain ⟨front, back, rfl⟩ := List.append_of_mem member
      have whole : front ++ s.ipout :: back = [s.ipout] := by
        have same := List.eq_replicate_of_mem only
        rw [same] at distinct ⊢
        have short := List.nodup_replicate.mp distinct
        simp only [List.length_append, List.length_cons] at short ⊢
        have one : front.length + (back.length + 1) = 1 := by lia
        rw [one]
        rfl
      rw [whole]
      rfl
    case isFalse notReady =>
      have nobody : released = [] := by
        refine List.eq_nil_iff_forall_not_mem.mpr fun pid member => ?_
        obtain ⟨point, rfl, ready⟩ := (isReady pid).mp member
        exact notReady (law.single pid ready ▸ ready)
      rw [nobody]
      rfl
  rw [total, length]

/-- A process that is not the reader of the queue cannot be told to take a packet. -/
theorem Law.place {process : Process Point} (law : Law s count)
    (before : s.kernel.process pid ≠ .ready .taking) (awake : (s.kernel.process pid).Awake)
    (later : process ≠ .ready .taking) (laterAwake : process.Awake) :
    Law { s with kernel := s.kernel.place pid process } count := by
  refine ⟨law.sems.place awake laterAwake, law.tokens.place ?_ ?_ laterAwake, fun this ready => ?_,
    fun this sem point waits => ?_, law.head, law.tail, law.room, law.order⟩
  · rintro point rfl
    exact before
  · rintro point rfl
    exact later
  · rcases eq_or_ne this pid with rfl | apart
    · exact absurd ((place_self process).symm.trans ready) later
    · exact law.single this ((place_of_ne apart process).symm.trans ready)
  · rcases eq_or_ne this pid with rfl | apart
    · exact absurd ((place_self process).symm.trans waits) (laterAwake sem point)
    · exact law.waiter this sem point ((place_of_ne apart process).symm.trans waits)

/-- A packet is stored behind the last one, and the semaphore is signalled. -/
theorem Law.stored (law : Law s count) (room : count < ipOqsiz) :
    Law { s with
      kernel := (signal s.kernel s.iqsem).2
      iqbuf := Function.update s.iqbuf s.iqtail pktptr, iqtail := following s.iqtail
      accepted := s.accepted ++ [pktptr] } (count + 1) := by
  have tailInside : s.iqtail < ipOqsiz := law.tail ▸ Nat.mod_lt _ (by decide)
  have stays := signal_stays s.kernel s.iqsem
  refine ⟨law.sems.signal, law.tokens.signal law.sems, fun pid ready => ?_, fun pid sem point waits => ?_,
    law.head, ?_, room, ?_⟩
  · rcases stays pid with same | released
    · exact law.single pid (same.symm.trans ready)
    · have was := released.symm.trans ready
      cases old : s.kernel.process pid with
      | idle => exact absurd (old ▸ was) (by simp [Process.released])
      | waiting sem point => exact law.waiter pid sem point old
      | ready point =>
        rw [old] at was
        exact law.single pid (old.trans was)
  · exact law.waiter pid sem point ((stays pid).waiting waits)
  · dsimp only
    rw [following_eq tailInside, law.tail, Nat.mod_add_mod, Nat.add_assoc]
  · dsimp only
    rw [law.tail, contents_push room, law.order, List.append_assoc]

/-- `ip_enqueue` with room in the queue. -/
theorem Law.ipEnqueue (law : Law s count) (idle : s.kernel.process pid = .idle) (room : count < ipOqsiz)
    (accepts : (s.kernel.semtab s.iqsem).scount < ipOqsiz) :
    Law (ipEnqueue s pid pktptr).2 (count + 1) := by
  have stored := @Law.stored s count pktptr law room
  have stillIdle : (signal s.kernel s.iqsem).2.process pid = .idle := by
    rcases signal_stays s.kernel s.iqsem pid with same | released
    · exact same.trans idle
    · rw [released, idle]
      rfl
  unfold IpOutput.ipEnqueue
  rw [semcount_eq law.tokens.valid, if_neg (by omega)]
  dsimp only
  cases signalled : signal s.kernel s.iqsem with
  | mk switched kernel =>
    rw [signalled] at stored stillIdle
    dsimp only at stillIdle
    cases switched with
    | false => exact stored
    | true =>
      refine Law.place stored ?_ ?_ ?_ awake_ready
      · simp [stillIdle]
      · exact stillIdle ▸ awake_idle
      · simp

/-- The first packet is taken. -/
theorem Law.takeNext {kernel : Kernel Point} (law : Law s (count + 1)) (sems : Semaphores.Law kernel)
    (tokens : Tokens kernel s.iqsem (· = .taking) count)
    (single : ∀ pid, kernel.process pid = .ready .taking → pid = s.ipout)
    (waiter : ∀ pid sem point, kernel.process pid = .waiting sem point → pid = s.ipout) :
    Law (takeNext { s with kernel := kernel }) count := by
  have nextHead : following s.iqhead = (s.iqhead + 1) % ipOqsiz := following_eq law.head
  refine ⟨sems, tokens, single, waiter, ?_, ?_, (Nat.le_succ count).trans law.room, ?_⟩
  · show following s.iqhead < ipOqsiz
    exact nextHead ▸ Nat.mod_lt _ (by decide : 0 < ipOqsiz)
  · have tail := law.tail
    show s.iqtail = (following s.iqhead + count) % ipOqsiz
    rw [nextHead, tail, Nat.mod_add_mod]
    congr 1
    lia
  · show s.accepted = (s.taken ++ [s.iqbuf s.iqhead]) ++
      contents s.iqbuf ipOqsiz (following s.iqhead) count
    rw [law.order, contents_succ, nextHead, Nat.mod_eq_of_lt law.head, List.append_assoc]
    rfl

/-- `ipout` takes a packet that the semaphore counts, or waits. -/
theorem Law.ipoutTurn (law : Law s count) (idle : s.kernel.process s.ipout = .idle) :
    ∃ left, Law (ipoutTurn s) left := by
  unfold IpOutput.ipoutTurn
  obtain ⟨positive, kernel, result, process, sems, tokens⟩ | ⟨kernel, result, process, sems, tokens⟩ :=
    @Semaphores.Tokens.wait _ _ _ _ _ s.ipout _ law.tokens law.sems (rfl : Point.taking = .taking) (idle ▸ awake_idle)
      (by simp [idle])
  · obtain ⟨left, rfl⟩ : ∃ left, count = left + 1 := ⟨count - 1, by lia⟩
    have one : ((left + 1 : Nat) : Int) - 1 = left := by omega
    rw [result]
    exact ⟨left, law.takeNext sems (one ▸ tokens) (process ▸ law.single) (process ▸ law.waiter)⟩
  · rw [result]
    refine ⟨count, sems, tokens, fun pid ready => ?_, fun pid sem point waits => ?_, law.head, law.tail,
      law.room, law.order⟩
    · rcases eq_or_ne pid s.ipout with isIpout | apart
      · exact isIpout
      · have same : kernel.process pid = s.kernel.process pid := by
          rw [process, Function.update_of_ne apart]
        exact law.single pid (same.symm.trans ready)
    · rcases eq_or_ne pid s.ipout with isIpout | apart
      · exact isIpout
      · have same : kernel.process pid = s.kernel.process pid := by
          rw [process, Function.update_of_ne apart]
        exact law.waiter pid sem point (same.symm.trans waits)

/-- A process that was made ready goes on. -/
theorem Law.proceed {point : Point} (law : Law s count) (ready : s.kernel.process pid = .ready point) :
    ∃ left, Law (proceed s pid point).2 left := by
  cases point with
  | enqueued =>
    exact ⟨count, law.place (by simp [ready]) (ready ▸ awake_ready) (by simp) awake_idle⟩
  | taking =>
    have isIpout : pid = s.ipout := law.single pid ready
    obtain ⟨positive, tokens⟩ := @Semaphores.Tokens.goOn _ _ _ _ _ _ _ .idle law.tokens rfl ready (by simp) awake_idle
    obtain ⟨left, rfl⟩ : ∃ left, count = left + 1 := ⟨count - 1, by lia⟩
    have one : ((left + 1 : Nat) : Int) - 1 = left := by lia
    refine ⟨left, law.takeNext (law.sems.place (ready ▸ awake_ready) awake_idle) (one ▸ tokens)
      (fun this thisReady => ?_) (fun this sem point waits => ?_)⟩
    · rcases eq_or_ne this pid with rfl | apart
      · exact isIpout
      · exact law.single this ((place_of_ne apart _).symm.trans thisReady)
    · rcases eq_or_ne this pid with rfl | apart
      · exact isIpout
      · exact law.waiter this sem point ((place_of_ne apart _).symm.trans waits)

/-- `ip_enqueue` accepts what the count leaves room for. -/
theorem step_enqueue (completed : step s (.enqueue pid pktptr) = some (reply, after)) :
    s.kernel.process pid = .idle ∧ (reply, after) = ipEnqueue s pid pktptr := by
  simp only [step] at completed
  split at completed
  case isTrue idle => exact ⟨idle, (Option.some.inj completed).symm⟩
  case isFalse => cases completed

/-- A packet is refused only when the queue is full. -/
theorem Law.refused (law : Law s count) (full : (ipOqsiz : Int) ≤ (s.kernel.semtab s.iqsem).scount) :
    IpOutput.ipEnqueue s pid pktptr = (some syserr, { s with freed := s.freed ++ [pktptr] }) ∧
      count = ipOqsiz := by
  have counted := law.count_eq
  have room := law.room
  refine ⟨?_, ?_⟩
  · unfold IpOutput.ipEnqueue
    rw [semcount_eq law.tokens.valid, if_pos full]
  · split at counted <;> lia

/-- The packets in the queue leave room for one that the count leaves room for. -/
theorem Law.spared (law : Law s count) (accepts : (s.kernel.semtab s.iqsem).scount < ipOqsiz) :
    Spared s (.enqueue pid pktptr) ↔ count < ipOqsiz := by
  have counted := law.count_eq
  have eight : ipOqsiz = 8 := rfl
  unfold Spared
  split at counted
  case isTrue ready =>
    simp only [ready, true_and]
    omega
  case isFalse notReady =>
    refine iff_of_true (fun both => notReady both.1) ?_
    lia

/-- Every move that the condition allows keeps the law. -/
theorem law_preserved (before : System) (move : Move) (reply : Option Int) (after : System)
    (law : ∃ count, Law before count) (spared : Spared before move)
    (completed : step before move = some (reply, after)) : ∃ count, Law after count := by
  obtain ⟨count, law⟩ := law
  cases move with
  | enqueue pid pktptr =>
    obtain ⟨idle, result⟩ := step_enqueue completed
    have isAfter : after = (ipEnqueue before pid pktptr).2 := congrArg Prod.snd result
    rw [isAfter]
    rcases lt_or_ge (before.kernel.semtab before.iqsem).scount ipOqsiz with accepts | full
    · exact ⟨count + 1, law.ipEnqueue idle ((law.spared accepts).mp spared) accepts⟩
    · rw [(law.refused full).1]
      exact ⟨count, law.sems, law.tokens, law.single, law.waiter, law.head, law.tail, law.room, law.order⟩
  | turn =>
    simp only [step] at completed
    split at completed
    case isTrue idle =>
      cases completed
      exact law.ipoutTurn idle
    case isFalse => cases completed
  | goOn pid =>
    simp only [step] at completed
    split at completed
    case h_1 point ready =>
      have isAfter : after = (proceed before pid point).2 := congrArg Prod.snd (Option.some.inj completed).symm
      rw [isAfter]
      exact law.proceed ready
    all_goals cases completed

/-- A move that the condition does not allow accepts a packet more than the queue can hold. -/
theorem overfull_length (law : Law s count) (spoilt : ¬ Spared s move)
    (completed : step s move = some (reply, after)) :
    after.accepted.length = after.taken.length + ipOqsiz + 1 := by
  cases move with
  | enqueue pid pktptr =>
    obtain ⟨ready, seven⟩ := not_not.mp spoilt
    have accepts : (s.kernel.semtab s.iqsem).scount < ipOqsiz := by omega
    have full : ¬ count < ipOqsiz := fun room => spoilt ((law.spared accepts).mpr room)
    have room := law.room
    obtain ⟨_, result⟩ := step_enqueue completed
    have isAfter : after = (ipEnqueue s pid pktptr).2 := congrArg Prod.snd result
    have stored : after.accepted = s.accepted ++ [pktptr] ∧ after.taken = s.taken := by
      rw [isAfter]
      unfold ipEnqueue
      rw [semcount_eq law.tokens.valid, if_neg (by omega)]
      dsimp only
      split <;> exact ⟨rfl, rfl⟩
    rw [stored.1, stored.2, law.order]
    simp only [List.length_append, length_contents, List.length_singleton]
    lia
  | turn => exact absurd trivial spoilt
  | goOn pid => exact absurd trivial spoilt

/-- A packet more than the queue can hold is not in it. -/
theorem overfull (law : Law s count) (spoilt : ¬ Spared s move)
    (completed : step s move = some (reply, after)) : ¬ Fifo after := by
  rintro ⟨held, few, order⟩
  have length := overfull_length law spoilt completed
  rw [order] at length
  simp only [List.length_append, length_contents] at length
  lia

end Steps

/-- The queue that `net_init` makes. -/
theorem netInit_law {used : Int → Processes.Sstate} (ipout : Nat)
    (success : (netInit used ipout).iqsem ≠ Semaphores.syserr) : Law (netInit used ipout) 0 := by
  have made := (atBoot_law used).made (le_refl 0) success
  have nobody : ∀ pid, (netInit used ipout).kernel.process pid = .idle := by
    intro pid
    show (semcreate (atBoot used) 0).2.process pid = .idle
    rw [made.process]
    rfl
  refine ⟨made.law, made.tokens (le_refl 0) ?_, ?_, ?_, (by decide : 0 < ipOqsiz), rfl,
    (by decide : 0 ≤ ipOqsiz), rfl⟩
  · rintro pid point rfl ready
    exact absurd ((nobody pid).symm.trans ready) (by simp)
  · intro pid ready
    exact absurd ((nobody pid).symm.trans ready) (by simp)
  · intro pid sem point waits
    exact absurd ((nobody pid).symm.trans waits) (by simp)

/-- The queue stays bounded and first in, first out in exactly those runs in which no packet is
accepted while `ipout` was released, has not run, and the semaphore counts one packet less than the
queue can hold. In these runs a packet is refused, and then freed, only when the queue is full. -/
theorem output_queue_is_fifo (used : Int → Processes.Sstate) (ipout : Nat)
    (success : (netInit used ipout).iqsem ≠ Semaphores.syserr)
    (events : List (Event System Move (Option Int))) (last : System)
    (run : Run step (netInit used ipout) events last) :
    ((∀ event ∈ events, Fifo event.after) ↔ Meets Spared events) ∧
    (Meets Spared events → ∀ event ∈ events, ∀ pid pktptr, event.call = .enqueue pid pktptr →
      event.reply = some syserr →
      event.after = { event.before with freed := event.before.freed ++ [pktptr] } ∧
      event.before.accepted.length = event.before.taken.length + ipOqsiz) := by
  refine ⟨?_, fun met event member pid pktptr isEnqueue refused => ?_⟩
  · refine good_iff_meets (fun s => ∃ count, Law s count) Fifo (fun _ _ => True) Spared
      (fun before move reply after law _ => law_preserved before move reply after law)
      (fun s ⟨_, law⟩ => law.fifo) ?_ _ _ _ run (fun _ _ => trivial) ⟨0, netInit_law ipout success⟩
    rintro before move reply after ⟨count, law⟩ spoilt completed
    exact overfull law spoilt completed
  · obtain ⟨⟨count, law⟩, _, completed⟩ := invariant_events (fun s => ∃ count, Law s count) Spared
      law_preserved _ _ _ run ⟨0, netInit_law ipout success⟩ met event member
    rw [isEnqueue] at completed
    obtain ⟨idle, result⟩ := step_enqueue completed
    rcases lt_or_ge (event.before.kernel.semtab event.before.iqsem).scount ipOqsiz with accepts | full
    · exfalso
      have isReply : event.reply = (ipEnqueue event.before pid pktptr).1 := congrArg Prod.fst result
      rw [refused] at isReply
      unfold ipEnqueue at isReply
      rw [semcount_eq law.tokens.valid, if_neg (by omega)] at isReply
      dsimp only at isReply
      split at isReply
      · cases isReply
      · cases isReply
    · obtain ⟨outcome, isFull⟩ := @Law.refused _ _ pid pktptr law full
      refine ⟨congrArg Prod.snd (result.trans outcome), ?_⟩
      rw [law.order, List.length_append, length_contents, isFull]

/-- Two packets pass, one of them through a waiting `ipout`. -/
theorem two_packets_pass : ∃ events last, Run step (netInit (fun _ => .free) 1) events last ∧
    (∀ event ∈ events, Fifo event.after) ∧ last.taken = [10] ∧ last.accepted = [10, 11] := by
  obtain ⟨events, last, run, checked⟩ := trace_exists step (netInit (fun _ => .free) 1)
    [.turn, .enqueue 2 10, .goOn 1, .goOn 2, .enqueue 2 11]
    (fun events last => decide (last.taken = [10] ∧ last.accepted = [10, 11] ∧
      ∀ event ∈ events, (event.before.kernel.semtab event.before.iqsem).scount ≠ (ipOqsiz : Int) - 1))
    (by decide +kernel)
  obtain ⟨taken, accepted, counts⟩ := of_decide_eq_true checked
  refine ⟨events, last, run, ?_, taken, accepted⟩
  refine (output_queue_is_fifo (fun _ => .free) 1 (by decide +kernel) events last run).1.mpr fun event member => ?_
  unfold Spared
  split
  · exact fun both => counts event member both.2
  · trivial

/-- `ipout` waits, and nine packets come before it runs: the ninth one is stored over the first one,
which is never taken, and is taken twice itself. -/
theorem waiting_ipout_misses_packet : ∃ events last, Run step (netInit (fun _ => .free) 1) events last ∧
    last.accepted = [10, 11, 12, 13, 14, 15, 16, 17, 18] ∧
    last.taken = [18, 11, 12, 13, 14, 15, 16, 17, 18] ∧ ¬ last.taken <+: last.accepted := by
  obtain ⟨events, last, run, checked⟩ := trace_exists step (netInit (fun _ => .free) 1)
    [.turn, .enqueue 2 10, .goOn 2, .enqueue 2 11, .enqueue 2 12, .enqueue 2 13, .enqueue 2 14,
      .enqueue 2 15, .enqueue 2 16, .enqueue 2 17, .enqueue 2 18, .goOn 1, .turn, .turn, .turn, .turn,
      .turn, .turn, .turn, .turn]
    (fun _ (last : System) => decide (last.accepted = [10, 11, 12, 13, 14, 15, 16, 17, 18] ∧
      last.taken = [18, 11, 12, 13, 14, 15, 16, 17, 18] ∧ ¬ last.taken <+: last.accepted)) (by decide +kernel)
  exact ⟨events, last, run, of_decide_eq_true checked⟩

end Xinu.IpOutput
