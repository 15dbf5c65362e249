import Xinu.ProcessAgreement

/-!
# No message is lost or repeated

Every process has room for one message. What was sent to it since its creation is what it
took, and at most one message that is still there. A process that waits for a message has
none, and goes on only when it has one or its time is over.
-/

namespace Xinu.Processes

open Runs

/-- The messages that were sent to a process since its creation, the first in front. -/
def sentTo (pid : Int) : List Entry → List UInt32
  | [] => []
  | .created other _ _ :: log => if other = pid then [] else sentTo pid log
  | .sent other msg :: log => if other = pid then sentTo pid log ++ [msg] else sentTo pid log
  | _ :: log => sentTo pid log

/-- The messages that it took since its creation. -/
def tookBy (pid : Int) : List Entry → List UInt32
  | [] => []
  | .created other _ _ :: log => if other = pid then [] else tookBy pid log
  | .took other msg :: log => if other = pid then tookBy pid log ++ [msg] else tookBy pid log
  | _ :: log => tookBy pid log

/-- A message was sent to a process since its last call of `recvtime`. -/
def disturbed (pid : Int) : List Entry → Bool
  | [] => false
  | .timed other :: log => if other = pid then false else disturbed pid log
  | .sent other _ :: log => if other = pid then true else disturbed pid log
  | _ :: log => disturbed pid log

/-- Nothing was sent to those whose time was over. -/
def QuietTimeouts : List Entry → Prop
  | [] => True
  | entry :: log => QuietTimeouts log ∧ ∀ pid, entry = .timedOut pid → disturbed pid log = false

/-- The message that a process has not taken yet. -/
def Procent.pending (entry : Procent) : List UInt32 := if entry.prhasmsg then [entry.prmsg] else []

/-- The law of the mailbox of one process. -/
structure Mail (pid : Int) (entry : Procent) (log : List Entry) : Prop where
  vacant : entry.prstate = .recv ∨ entry.prstate = .rectim → entry.prhasmsg = false
  messages : sentTo pid log = tookBy pid log ++ entry.pending
  received : entry.prstkptr = .receiveEnd →
    entry.prstate = .recv ∨ entry.prstate = .free ∨ entry.prhasmsg = true
  undisturbed : entry.prstkptr = .recvtimeEnd → entry.prhasmsg = false → disturbed pid log = false

/-- The law of all mailboxes. -/
structure MailLaw (b : Board) : Prop where
  mail : ∀ pid, Mail pid (b.proctab pid) b.log
  timeouts : QuietTimeouts b.log

/-- An entry that is not about messages. -/
def Entry.Mute : Entry → Prop
  | .created _ _ _ | .sent _ _ | .took _ _ | .timed _ | .timedOut _ => False
  | _ => True

section Log

variable {pid : Int} {log : List Entry} {entry : Entry} {state : Procent}

theorem mute_log (pid : Int) (log : List Entry) (mute : entry.Mute) : sentTo pid (entry :: log) = sentTo pid log ∧
    tookBy pid (entry :: log) = tookBy pid log ∧
      disturbed pid (entry :: log) = disturbed pid log := by
  cases entry <;> first | exact ⟨rfl, rfl, rfl⟩ | exact absurd mute id

theorem Mail.mute (mail : Mail pid state log) (mute : entry.Mute) : Mail pid state (entry :: log) := by
  obtain ⟨sends, takes, disturbs⟩ := mute_log pid log mute
  refine ⟨mail.vacant, ?_, mail.received, ?_⟩
  · rw [sends, takes]
    exact mail.messages
  · rw [disturbs]
    exact mail.undisturbed

end Log

section Steps

variable {b after : Board} {pid : Int} {entry : Procent}

theorem MailLaw.congr (law : MailLaw b) (proctab : after.proctab = b.proctab)
    (log : after.log = b.log) : MailLaw after := by
  refine ⟨?_, ?_⟩
  · rw [proctab, log]
    exact law.mail
  · rw [log]
    exact law.timeouts

theorem MailLaw.note (law : MailLaw b) (entry : Entry) (mute : entry.Mute) :
    MailLaw (b.note entry) := by
  refine ⟨fun pid => (law.mail pid).mute mute, law.timeouts, ?_⟩
  rintro pid rfl
  exact absurd mute id

/-- One entry of the table changes. -/
theorem MailLaw.setProc (law : MailLaw b) (mail : Mail pid entry b.log) :
    MailLaw (b.setProc pid entry) := by
  refine ⟨fun other => ?_, law.timeouts⟩
  unfold Board.setProc
  rcases eq_or_ne other pid with rfl | apart
  · simpa using mail
  · simpa [apart] using law.mail other

/-- A process that does not wait for a message changes its state. -/
theorem MailLaw.setState (law : MailLaw b) (pid : Int) (state : Prstate)
    (from_ : (b.proctab pid).prstate ≠ .recv ∧ (b.proctab pid).prstate ≠ .free ∨ state = .free ∨
      (b.proctab pid).prhasmsg = true)
    (to_ : state ≠ .recv ∧ state ≠ .rectim) : MailLaw (b.setState pid state) := by
  have mail := law.mail pid
  refine law.setProc ⟨fun waits => ?_, mail.messages, fun point => ?_, mail.undisturbed⟩
  · exact absurd waits (not_or.mpr to_)
  · rcases mail.received point with receives | isFree | pending
    · rcases from_ with other | gone | pending
      · exact absurd receives other.1
      · exact Or.inr (Or.inl gone)
      · exact Or.inr (Or.inr pending)
    · rcases from_ with other | gone | pending
      · exact absurd isFree other.2
      · exact Or.inr (Or.inl gone)
      · exact Or.inr (Or.inr pending)
    · exact Or.inr (Or.inr pending)

/-- The current process goes on at a place outside of `receive` and `recvtime`. -/
theorem MailLaw.goOnAt (law : MailLaw b) (point : Point) (away : point ≠ .receiveEnd)
    (apart : point ≠ .recvtimeEnd) : MailLaw (b.goOnAt point) := by
  have mail := law.mail b.currpid
  exact law.setProc ⟨mail.vacant, mail.messages, fun here => absurd here away,
    fun here => absurd here apart⟩

theorem MailLaw.answer (law : MailLaw b) (value : Int) : MailLaw (b.answer value) :=
  (law.goOnAt .user (by simp) (by simp)).note _ trivial

theorem MailLaw.becomeReady (law : MailLaw b)
    (from_ : (b.proctab pid).prstate ≠ .recv ∧ (b.proctab pid).prstate ≠ .free ∨
      (b.proctab pid).prhasmsg = true) : MailLaw (b.becomeReady pid) := by
  have state : MailLaw (b.setState pid .ready) :=
    law.setState pid .ready (from_.imp_right Or.inr) (by simp)
  exact (state.note (.readied pid) trivial).congr rfl rfl

theorem MailLaw.dispatch (law : MailLaw b)
    (from_ : (b.proctab pid).prstate ≠ .recv ∧ (b.proctab pid).prstate ≠ .free) :
    MailLaw (b.dispatch pid) := by
  have state : MailLaw (b.setState pid .curr) := law.setState pid .curr (Or.inl from_) (by simp)
  exact state.congr rfl rfl

/-- A process in a queue neither waits for a message without a limit nor is it free. -/
theorem listed_of_place {q : Int} (inside : (b.proctab pid).place = some q) :
    (b.proctab pid).prstate ≠ .recv ∧ (b.proctab pid).prstate ≠ .free := by
  refine ⟨fun state => ?_, fun state => ?_⟩ <;> simp [Procent.place, state] at inside

/-- A message is stored, and its receiver does not wait for it any more. -/
theorem MailLaw.delivered (law : MailLaw b) (entry : Procent) {msg : UInt32}
    (vacant : (b.proctab pid).prhasmsg = false) (entries : List Entry) (mute : ∀ entry ∈ entries, entry.Mute)
    (proctab : after.proctab = Function.update b.proctab pid entry)
    (stored : entry.prmsg = msg ∧ entry.prhasmsg = true)
    (state : entry.prstate ≠ .recv ∧ entry.prstate ≠ .rectim)
    (log : after.log = entries ++ .sent pid msg :: b.log) : MailLaw after := by
  have noted : ∀ entries : List Entry, (∀ entry ∈ entries, entry.Mute) →
      (∀ other, Mail other (after.proctab other) (entries ++ .sent pid msg :: b.log)) ∧
        QuietTimeouts (entries ++ .sent pid msg :: b.log) := by
    intro entries mute
    induction entries with
    | nil =>
      refine ⟨fun other => ?_, law.timeouts, by simp⟩
      rw [proctab]
      have mail := law.mail other
      rcases eq_or_ne other pid with rfl | apart
      · have sends : sentTo other (.sent other msg :: b.log) = sentTo other b.log ++ [msg] :=
          if_pos rfl
        rw [Function.update_self]
        refine ⟨fun waits => absurd waits (not_or.mpr state), ?_, fun _ => Or.inr (Or.inr stored.2),
          fun _ none_ => ?_⟩
        · have messages := mail.messages
          unfold Procent.pending at messages ⊢
          rw [vacant] at messages
          rw [List.nil_append, sends, messages, stored.1, stored.2]
          simp [tookBy]
        · rw [stored.2] at none_
          cases none_
      · have sends : sentTo other (.sent pid msg :: b.log) = sentTo other b.log :=
          if_neg (Ne.symm apart)
        have disturbs : disturbed other (.sent pid msg :: b.log) = disturbed other b.log :=
          if_neg (Ne.symm apart)
        rw [Function.update_of_ne apart, List.nil_append]
        refine ⟨mail.vacant, sends.trans mail.messages, mail.received, ?_⟩
        rw [disturbs]
        exact mail.undisturbed
    | cons entry entries inductionHypothesis =>
      obtain ⟨mail, timeouts⟩ :=
        inductionHypothesis fun other member => mute other (List.mem_cons_of_mem _ member)
      have here := mute entry List.mem_cons_self
      refine ⟨fun other => (mail other).mute here, timeouts, ?_⟩
      rintro other rfl
      exact absurd here id
  obtain ⟨mail, timeouts⟩ := noted entries mute
  refine ⟨?_, ?_⟩
  · rw [log]
    exact mail
  · rw [log]
    exact timeouts

/-- A message is taken. -/
theorem MailLaw.take (law : MailLaw b) (pending : (b.proctab b.currpid).prhasmsg = true) :
    MailLaw (b.next .take) := by
  have taken : MailLaw ((b.setProc b.currpid { b.proctab b.currpid with
      prhasmsg := false, prstkptr := .user }).note (.took b.currpid (b.proctab b.currpid).prmsg)) := by
    refine ⟨fun other => ?_, law.timeouts, by simp⟩
    have mail := law.mail other
    rcases eq_or_ne other b.currpid with rfl | apart
    · have takes : tookBy b.currpid (.took b.currpid (b.proctab b.currpid).prmsg :: b.log) =
          tookBy b.currpid b.log ++ [(b.proctab b.currpid).prmsg] := if_pos rfl
      have messages := mail.messages
      unfold Procent.pending at messages
      rw [pending] at messages
      refine ⟨fun _ => ?_, ?_, fun here => ?_, fun here => ?_⟩
      · simp [Board.note, Board.setProc]
      · simp only [Board.note, Board.setProc, Function.update_self, Procent.pending, takes]
        simpa [sentTo] using messages
      · simp [Board.note, Board.setProc] at here
      · simp [Board.note, Board.setProc] at here
    · have takes : tookBy other (.took b.currpid (b.proctab b.currpid).prmsg :: b.log) =
          tookBy other b.log := if_neg (Ne.symm apart)
      simp only [Board.note, Board.setProc, Function.update_of_ne apart]
      refine ⟨mail.vacant, ?_, mail.received, mail.undisturbed⟩
      rw [takes]
      exact mail.messages
  refine (taken.note (.returned b.currpid (b.proctab b.currpid).prmsg.toNat) trivial).congr ?_ rfl
  simp [Board.next, Board.answer, Board.goOnAt, Board.setProc, Board.note]

/-- `send` stores the message and readies a receiver. -/
theorem MailLaw.deliver (law : MailLaw b) {msg : UInt32} (vacant : (b.proctab pid).prhasmsg = false) :
    MailLaw (b.next (.deliver pid msg)) := by
  unfold Board.next Board.alert
  dsimp only
  have state : (((b.setProc pid { b.proctab pid with prmsg := msg, prhasmsg := true }).note
      (.sent pid msg)).proctab pid).prstate = (b.proctab pid).prstate := by
    simp [Board.setProc, Board.note]
  split
  case h_1 =>
    refine law.delivered { b.proctab pid with
      prmsg := msg, prhasmsg := true, prstate := .ready } vacant [.readied pid]
      (by simp [Entry.Mute]) ?_ ⟨rfl, rfl⟩ (by simp) rfl
    simp [Board.becomeReady, Board.setState, Board.setProc, Board.setQueue, Board.setKey, Board.note]
  case h_2 =>
    refine law.delivered { b.proctab pid with
      prmsg := msg, prhasmsg := true, prstate := .ready } vacant [.readied pid, .roused pid]
      (by simp [Entry.Mute]) ?_ ⟨rfl, rfl⟩ (by simp) rfl
    simp [Board.becomeReady, Board.rouse, Board.leave, Board.setState, Board.setProc, Board.setQueue,
      Board.setKey, Board.note]
  all_goals
    rename_i other
    refine law.delivered _ vacant [] (by simp) rfl ⟨rfl, rfl⟩ ?_ rfl
    rw [state] at other
    simp [other]

theorem MailLaw.quit (law : MailLaw b) (pid : Int) : MailLaw (b.quit pid) := by
  unfold Board.quit
  split
  case h_2 | h_3 => exact (law.note (.roused pid) trivial).congr rfl rfl
  case h_4 => exact (law.note (.withdrawn pid (b.proctab pid).prsem) trivial).congr rfl rfl
  all_goals exact law.congr rfl rfl

/-- Every lawful action keeps the law of the mailboxes. -/
theorem MailLaw.next (law : MailLaw b) (agree : Agree b) {action : Action}
    (lawful : b.Lawful action) : MailLaw (b.next action) := by
  have running (settled : b.due = false) : (b.proctab b.currpid).prstate ≠ .recv ∧
      (b.proctab b.currpid).prstate ≠ .free := by
    rw [agree.running settled]
    simp
  cases action with
  | goOnAt point =>
    refine law.goOnAt point ?_ ?_ <;>
    · rintro rfl
      exact lawful.1
  | answer value => exact law.answer value
  | keep | semReset sem => exact law.congr rfl rfl
  | raise sem | semGone sem | tickEnd => exact law.congr rfl rfl
  | preempt pid =>
    obtain ⟨runs, first, _⟩ := lawful
    have inside := (agree.first isQueue_ready first).2
    have apart : pid ≠ b.currpid := by
      rintro rfl
      simp [Procent.place, runs] at inside
    refine MailLaw.dispatch (law.becomeReady (Or.inl (by simp [runs]))) ?_
    simpa [Board.becomeReady, Board.setState, Board.setProc, Board.setQueue, Board.setKey, Board.note,
      apart] using listed_of_place inside
  | dispatch pid => exact law.dispatch (listed_of_place (agree.first isQueue_ready lawful.2).2)
  | create pid priority base len =>
    refine ⟨fun other => ?_, law.timeouts, by simp⟩
    have mail := law.mail other
    rcases eq_or_ne other pid with rfl | apart
    · simp only [Board.next, Board.note, Board.setProc, Function.update_self]
      refine ⟨by simp [Procent.fresh], ?_, by simp [Procent.fresh], by simp [Procent.fresh]⟩
      simp [sentTo, tookBy, Procent.pending, Procent.fresh]
    · have sends : sentTo other (.created pid base len :: b.log) = sentTo other b.log :=
        if_neg (Ne.symm apart)
      have takes : tookBy other (.created pid base len :: b.log) = tookBy other b.log :=
        if_neg (Ne.symm apart)
      simp only [Board.next, Board.note, Board.setProc, Function.update_of_ne apart]
      refine ⟨mail.vacant, ?_, mail.received, mail.undisturbed⟩
      rw [sends, takes]
      exact mail.messages
  | leak base len => exact law.note _ trivial
  | resume pid => exact law.becomeReady (Or.inl (by simp [lawful.2.2]))
  | suspend pid =>
    have from_ : (b.proctab pid).prstate ≠ .recv ∧ (b.proctab pid).prstate ≠ .free := by
      rcases lawful.2.2.2 with state | state <;> simp [state]
    have stopped : MailLaw (b.setState pid .susp) := law.setState pid .susp (Or.inl from_) (by simp)
    unfold Board.next
    dsimp only
    split <;> exact stopped.congr rfl rfl
  | pass sem => exact (law.note (.passed b.currpid sem) trivial).congr rfl rfl
  | block sem =>
    have mail := law.mail b.currpid
    have stopped : MailLaw (b.setProc b.currpid { b.proctab b.currpid with
        prstate := .wait, prsem := sem }) := by
      refine law.setProc ⟨by simp, mail.messages, fun point => ?_, mail.undisturbed⟩
      rcases mail.received point with receives | isFree | pending
      · exact absurd receives (running lawful.1).1
      · exact absurd isFree (running lawful.1).2
      · exact Or.inr (Or.inr pending)
    exact (stopped.note (.blocked b.currpid sem) trivial).congr rfl rfl
  | signal sem => exact (law.note (.signalled sem) trivial).congr rfl rfl
  | release sem pid =>
    have inside := (agree.first (isQueue_sem lawful.1) lawful.2.2.2.2).2
    have noted := (law.note (.signalled sem) trivial).note (.released pid sem) trivial
    exact (noted.becomeReady (Or.inl (listed_of_place inside))).congr rfl rfl
  | semMake sem count => exact (law.note (.semSet sem count) trivial).congr rfl rfl
  | discharge sem pid =>
    have inside := (agree.first (isQueue_sem lawful.1) lawful.2.2.2).2
    have noted := law.note (.discharged pid sem) trivial
    exact (noted.becomeReady (Or.inl (listed_of_place inside))).congr rfl rfl
  | semSet sem count => exact (law.note (.semSet sem count) trivial).congr rfl rfl
  | semDelete sem => exact (law.note (.semGone sem) trivial).congr rfl rfl
  | dischargeOne sem pid =>
    have inside := (agree.first (isQueue_sem lawful.1) lawful.2.2.2.2).2
    have noted := law.note (.discharged pid sem) trivial
    exact (noted.becomeReady (Or.inl (listed_of_place inside))).congr rfl rfl
  | receive =>
    have mail := law.mail b.currpid
    have waits : MailLaw (b.setProc b.currpid { b.proctab b.currpid with
        prstate := .recv, prstkptr := .receiveEnd }) :=
      law.setProc ⟨fun _ => lawful.2.2, mail.messages, fun _ => Or.inl rfl, by simp⟩
    refine waits.congr ?_ rfl
    simp [Board.next, Board.setState, Board.setProc, Board.goOnAt]
  | sleep delay state =>
    have mail := law.mail b.currpid
    have stopped : MailLaw (b.setProc b.currpid { b.proctab b.currpid with
        prstate := state, prstkptr := if state = .rectim then .recvtimeEnd else .answer ok }) := by
      refine law.setProc ?_
      rcases lawful.2.2 with rfl | ⟨rfl, vacant, timed⟩
      · exact ⟨by simp, mail.messages, by simp, by simp⟩
      · refine ⟨fun _ => vacant, mail.messages, by simp, fun _ _ => ?_⟩
        obtain ⟨log, isLog⟩ := List.head?_eq_some_iff.mp timed
        rw [isLog]
        exact if_pos rfl
    refine (stopped.note (.slept b.currpid delay) trivial).congr ?_ rfl
    simp [Board.next, Board.setState, Board.setProc, Board.goOnAt, Board.fallAsleep, Board.note,
      Board.setQueue, Board.setKey]
  | timed =>
    refine ⟨fun other => ?_, law.timeouts, by simp⟩
    have mail := law.mail other
    refine ⟨mail.vacant, mail.messages, mail.received, fun point vacant => ?_⟩
    rcases eq_or_ne other b.currpid with rfl | apart
    · exact if_pos rfl
    · exact (if_neg (Ne.symm apart)).trans (mail.undisturbed point vacant)
  | timeOut =>
    have quiet := (law.mail b.currpid).undisturbed lawful.2.1 lawful.2.2
    have noted : MailLaw (b.note (.timedOut b.currpid)) := by
      refine ⟨fun other => ?_, law.timeouts, ?_⟩
      · have mail := law.mail other
        exact ⟨mail.vacant, mail.messages, mail.received, mail.undisturbed⟩
      · intro other same
        obtain rfl : b.currpid = other := by simpa using same
        exact quiet
    exact noted.answer _
  | deliver pid msg => exact law.deliver lawful.2.2.2
  | take =>
    refine law.take ?_
    rcases lawful.2 with point | ⟨pending, _⟩
    · rcases (law.mail b.currpid).received point with receives | isFree | pending
      · exact absurd receives (running lawful.1).1
      · exact absurd isFree (running lawful.1).2
      · exact pending
    · exact pending
  | tick => exact (law.note .ticked trivial).congr rfl rfl
  | wake pid =>
    have inside := (agree.first isQueue_sleep lawful.2.1).2
    have noted := law.note (.woken pid) trivial
    exact (noted.becomeReady (Or.inl (listed_of_place inside))).congr rfl rfl
  | chprio pid priority =>
    have mail := law.mail pid
    exact law.setProc ⟨mail.vacant, mail.messages, mail.received, mail.undisturbed⟩
  | killBegin pid =>
    have begun := (law.note (.killBegun pid) trivial).goOnAt (.killSent pid) (by simp) (by simp)
    exact begun.congr rfl rfl
  | finish pid =>
    have quits := (law.note (.stackFreed pid (b.proctab pid).prstkbase (b.proctab pid).prstklen)
      trivial).quit pid
    have gone := quits.setState pid .free (Or.inr (Or.inl rfl)) (by simp)
    have freed : MailLaw (b.freeSlot pid) := gone.note (.slotFreed pid) trivial
    unfold Board.next
    dsimp only
    split
    · exact freed.goOnAt _ (by simp) (by simp)
    · exact freed.answer _

end Steps

/-- In every run, after every step: a process that waits for a message has none; what each
process took since its creation is what was sent to it, except for a message that is still
there; and nothing was sent to a process between its call of `recvtime` and its time out. -/
theorem mailboxes_are_exact (events : List (Event Kernel Move Unit)) (last : Kernel)
    (run : Run step boot events last) :
    (∀ pid, InRange pid →
      ((last.proctab pid).prstate = .recv ∨ (last.proctab pid).prstate = .rectim →
        (last.proctab pid).prhasmsg = false) ∧
      sentTo pid last.log = tookBy pid last.log ++ (last.proctab pid).pending) ∧
    QuietTimeouts last.log := by
  have initial : MailLaw bootBoard := by
    refine ⟨fun pid => ⟨fun _ => rfl, rfl, ?_, ?_⟩, trivial⟩
    · simp [bootBoard, bootProc]
    · simp [bootBoard, bootProc]
  obtain ⟨b, sound, law⟩ := run_law MailLaw (fun _ _ => True) initial
    (fun _ _ _ _ _ _ _ _ agree law lawful _ => law.next agree lawful) events last run
    (fun _ _ => trivial)
  rw [sound.shows_.proctab, sound.shows_.log]
  exact ⟨fun pid _ => ⟨(law.mail pid).vacant, (law.mail pid).messages⟩, law.timeouts⟩

/-- A process takes a message that it waited for and one that it sent to itself, and its next
wait is over without a message. -/
theorem two_messages_taken : ∃ events last, Run step boot events last ∧
    tookBy 1 last.log = [5, 6] ∧ Entry.timedOut 1 ∈ last.log ∧ sentTo 1 last.log = [5, 6] ∧
      QuietTimeouts last.log := by
  obtain ⟨events, last, run, checked⟩ := trace_exists step boot
    [.call (.create 400 20 (some 4096)), .call (.resume 1), .call .receive, .goOn,
      .call (.send 1 5), .goOn, .call (.send 1 6), .goOn, .call (.recvtime 3), .call (.recvtime 1),
      .goOn, .tick .armQemu, .goOn]
    (fun _ last => decide (tookBy 1 last.log = [5, 6] ∧ Entry.timedOut 1 ∈ last.log ∧
      (last.proctab 1).pending = [])) (by decide +kernel)
  obtain ⟨takes, expired, vacant⟩ := of_decide_eq_true checked
  obtain ⟨mail, quiet⟩ := mailboxes_are_exact events last run
  refine ⟨events, last, run, takes, expired, ?_, quiet⟩
  rw [(mail 1 (by decide)).2, takes, vacant]
  rfl

end Xinu.Processes
