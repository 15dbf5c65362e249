import Xinu.DeltaList
import Xinu.Processes

/-!
# The process manager with lists for queues

The same tables with the queues as lists of processes. What the calls do is cut into
actions, each of which moves at most one process from one place to another, so that a law
about all calls is proved from one case for each action. An action is lawful in a state
under the condition under which the calls perform it.

Three marks record that a call is on its way: a reschedule is due, the clock is ticking, or
the queue of a semaphore is being cleared. They are down between the steps of a process.
-/

namespace Xinu.Processes

open DeltaList

/-- The queues: one for each semaphore, the ready list and the sleep queue. -/
def semQueue (sem : Int) : Int := nproc + 2 * sem

def readyQueue : Int := nproc + 2 * nsem

def sleepQueue : Int := nproc + 2 * nsem + 2

def InRange (pid : Int) : Prop := 0 ≤ pid ∧ pid < nproc

def SemRange (sem : Int) : Prop := 0 ≤ sem ∧ sem < nsem

instance : DecidablePred InRange := fun pid => inferInstanceAs (Decidable (0 ≤ pid ∧ pid < nproc))

instance : DecidablePred SemRange := fun sem => inferInstanceAs (Decidable (0 ≤ sem ∧ sem < nsem))

def IsQueue (q : Int) : Prop := ∃ index, 0 ≤ index ∧ index < nsem + 2 ∧ q = nproc + 2 * index

/-- The queue in which a process with this entry belongs. -/
def Procent.place (entry : Procent) : Option Int :=
  match entry.prstate with
  | .ready => some readyQueue
  | .wait => some (semQueue entry.prsem)
  | .sleep | .rectim => some sleepQueue
  | .free | .curr | .recv | .susp => none

/-- The tables, the queues as lists, and the marks. -/
structure Board where
  proctab : Int → Procent
  semtab : Int → Sentry
  queues : Int → List Int
  key : Int → Int32
  currpid : Int
  prcount : Int
  due : Bool
  ticking : Bool
  clearing : Option Int
  log : List Entry

def Board.note (b : Board) (entry : Entry) : Board := { b with log := entry :: b.log }

def Board.setProc (b : Board) (pid : Int) (entry : Procent) : Board :=
  { b with proctab := Function.update b.proctab pid entry }

def Board.setState (b : Board) (pid : Int) (state : Prstate) : Board :=
  b.setProc pid { b.proctab pid with prstate := state }

def Board.goOnAt (b : Board) (point : Point) : Board :=
  b.setProc b.currpid { b.proctab b.currpid with prstkptr := point }

def Board.answer (b : Board) (value : Int) : Board :=
  (b.goOnAt .user).note (.returned b.currpid value)

def Board.setCount (b : Board) (sem : Int) (count : Int32) : Board :=
  { b with semtab := Function.update b.semtab sem { b.semtab sem with scount := count } }

def Board.setQueue (b : Board) (q : Int) (queue : List Int) : Board :=
  { b with queues := Function.update b.queues q queue }

def Board.setKey (b : Board) (pid : Int) (key : Int32) : Board :=
  { b with key := Function.update b.key pid key }

/-- The processes with a key of at least this size stand in front. -/
def insertByKey (keys : Int → Int32) (pid : Int) (key : Int32) (queue : List Int) : List Int :=
  queue.takeWhile (fun other => key.toInt ≤ (keys other).toInt) ++
    pid :: queue.dropWhile (fun other => key.toInt ≤ (keys other).toInt)

/-- A process enters the ready list. -/
def Board.becomeReady (b : Board) (pid : Int) : Board :=
  let b := b.setState pid .ready
  let prio := (b.proctab pid).prprio.toInt32
  let b := b.setQueue readyQueue (insertByKey b.key pid prio (b.queues readyQueue))
  { (b.setKey pid prio).note (.readied pid) with due := true }

/-- A process leaves a queue. -/
def Board.leave (b : Board) (pid q : Int) : Board := b.setQueue q ((b.queues q).erase pid)

/-- A process enters the sleep queue. -/
def Board.fallAsleep (b : Board) (pid : Int) (delay : Int32) : Board :=
  let (front, rest, back) := deltaSplit b.key delay (b.queues sleepQueue)
  let b := (b.setQueue sleepQueue (front ++ pid :: back)).setKey pid rest
  { b with key := adjustFirst b.key (fun key => key - rest) back }

/-- A process leaves the sleep queue before its time. -/
def Board.rouse (b : Board) (pid : Int) : Board :=
  let behind := ((b.queues sleepQueue).dropWhile (fun other => other ≠ pid)).tail
  { b.leave pid sleepQueue with key := adjustFirst b.key (fun key => key + b.key pid) behind }

/-- The current process gives up the processor for the first ready one. -/
def Board.dispatch (b : Board) (pid : Int) : Board :=
  let b := b.leave pid readyQueue
  { b.setState pid .curr with currpid := pid, due := false }

/-- What can happen. -/
inductive Action where
  | goOnAt (point : Point)
  | answer (value : Int)
  | keep
  | preempt (pid : Int)
  | dispatch (pid : Int)
  | create (pid : Int) (priority : Int16) (base len : UInt32)
  | leak (base len : UInt32)
  | resume (pid : Int)
  | suspend (pid : Int)
  | pass (sem : Int)
  | block (sem : Int)
  | signal (sem : Int)
  | release (sem pid : Int)
  | semMake (sem : Int) (count : Int32)
  | semReset (sem : Int)
  | discharge (sem pid : Int)
  | semSet (sem : Int) (count : Int32)
  | semDelete (sem : Int)
  | dischargeOne (sem pid : Int)
  | raise (sem : Int)
  | semGone (sem : Int)
  | receive
  | sleep (delay : Int32) (state : Prstate)
  | timed
  | timeOut
  | deliver (pid : Int) (msg : UInt32)
  | take
  | tick
  | wake (pid : Int)
  | tickEnd
  | chprio (pid : Int) (priority : Int16)
  | killBegin (pid : Int)
  | finish (pid : Int)

/-- A place that a process does not leave through an action of its own. -/
def Point.Plain : Point → Prop
  | .receiveEnd | .recvtimeEnd | .killSent _ | .suicideEnd _ => False
  | .user | .answer _ | .suspendEnd _ | .clkWoken => True

/-- The place of the current process. -/
def Board.point (b : Board) : Point := (b.proctab b.currpid).prstkptr

/-- The condition of an action. -/
def Board.Lawful (b : Board) : Action → Prop
  | .goOnAt point => point.Plain ∧ b.point.Plain
  | .answer _ | .leak _ _ | .timed => b.due = false ∧ b.point.Plain
  | .keep => (b.proctab b.currpid).prstate = .curr ∧
    ∀ pid ∈ (b.queues readyQueue).head?,
      (b.key pid).toInt < (b.proctab b.currpid).prprio.toInt
  | .preempt pid => (b.proctab b.currpid).prstate = .curr ∧
    (b.queues readyQueue).head? = some pid ∧
      (b.proctab b.currpid).prprio.toInt ≤ (b.key pid).toInt
  | .dispatch pid => (b.proctab b.currpid).prstate ≠ .curr ∧
    (b.queues readyQueue).head? = some pid
  | .create pid priority _ _ => b.due = false ∧ InRange pid ∧ (b.proctab pid).prstate = .free ∧
    1 ≤ priority.toInt
  | .resume pid => b.due = false ∧ InRange pid ∧ (b.proctab pid).prstate = .susp
  | .suspend pid => b.due = false ∧ InRange pid ∧ pid ≠ nullproc ∧
    ((b.proctab pid).prstate = .ready ∨ (b.proctab pid).prstate = .curr)
  | .pass sem => b.due = false ∧ SemRange sem ∧ (b.semtab sem).sstate = .used ∧
    0 ≤ ((b.semtab sem).scount - 1).toInt ∧ b.clearing = none
  | .block sem => b.due = false ∧ SemRange sem ∧ (b.semtab sem).sstate = .used ∧
    ((b.semtab sem).scount - 1).toInt < 0 ∧ b.clearing = none
  | .signal sem => SemRange sem ∧ (b.semtab sem).sstate = .used ∧ b.clearing = none ∧
    (0 ≤ (b.semtab sem).scount.toInt ∨ b.queues (semQueue sem) = [])
  | .release sem pid => SemRange sem ∧ (b.semtab sem).sstate = .used ∧ b.clearing = none ∧
    (b.semtab sem).scount.toInt < 0 ∧ (b.queues (semQueue sem)).head? = some pid
  | .semMake sem count => b.due = false ∧ SemRange sem ∧ (b.semtab sem).sstate = .free ∧
    b.clearing = none ∧ 0 ≤ count.toInt
  | .semReset sem => SemRange sem ∧ (b.semtab sem).sstate = .used ∧ b.clearing = none
  | .discharge sem pid => SemRange sem ∧ (b.semtab sem).sstate = .used ∧ b.clearing = some sem ∧
    (b.queues (semQueue sem)).head? = some pid
  | .semSet sem count => SemRange sem ∧ (b.semtab sem).sstate = .used ∧ b.clearing = some sem ∧
    b.queues (semQueue sem) = [] ∧ 0 ≤ count.toInt
  | .semDelete sem => SemRange sem ∧ (b.semtab sem).sstate = .used ∧ b.clearing = none
  | .dischargeOne sem pid => SemRange sem ∧ (b.semtab sem).sstate = .free ∧
    b.clearing = some sem ∧ (b.semtab sem).scount.toInt < 0 ∧
      (b.queues (semQueue sem)).head? = some pid
  | .raise sem => SemRange sem ∧ (b.semtab sem).sstate = .free ∧ b.clearing = some sem ∧
    (b.semtab sem).scount.toInt < 0 ∧ b.queues (semQueue sem) = []
  | .semGone sem => SemRange sem ∧ (b.semtab sem).sstate = .free ∧ b.clearing = some sem ∧
    0 ≤ (b.semtab sem).scount.toInt
  | .receive => b.due = false ∧ b.point.Plain ∧ (b.proctab b.currpid).prhasmsg = false
  | .sleep _ state => b.due = false ∧ b.point.Plain ∧ (state = .sleep ∨
    state = .rectim ∧ (b.proctab b.currpid).prhasmsg = false ∧
      b.log.head? = some (.timed b.currpid))
  | .timeOut => b.due = false ∧ b.point = .recvtimeEnd ∧
    (b.proctab b.currpid).prhasmsg = false
  | .deliver pid _ => b.due = false ∧ InRange pid ∧ (b.proctab pid).prstate ≠ .free ∧
    (b.proctab pid).prhasmsg = false
  | .take => b.due = false ∧ (b.point = .receiveEnd ∨
    (b.proctab b.currpid).prhasmsg = true ∧ (b.point.Plain ∨ b.point = .recvtimeEnd))
  | .tick => b.due = false ∧ b.ticking = false
  | .wake pid => b.ticking = true ∧ (b.queues sleepQueue).head? = some pid ∧
    (b.key pid).toInt ≤ 0
  | .tickEnd => b.ticking = true ∧ ∀ pid ∈ (b.queues sleepQueue).head?, (b.key pid).toInt ≠ 0
  | .chprio pid _ => b.due = false ∧ InRange pid ∧ (b.proctab pid).prstate ≠ .free
  | .killBegin pid => b.due = false ∧ b.point.Plain ∧ InRange pid ∧ pid ≠ nullproc ∧
    (b.proctab pid).prstate ≠ .free
  | .finish pid => b.due = false ∧ b.point = .killSent pid ∧ InRange pid ∧ pid ≠ nullproc ∧
    b.clearing = none

/-- The entry of a new process. -/
def Procent.fresh (entry : Procent) (parent : Int) (priority : Int16) (base len : UInt32) :
    Procent :=
  { entry with
    prstate := .susp, prprio := priority, prstkbase := base, prstklen := len, prsem := -1,
    prparent := parent, prhasmsg := false, prstkptr := .user }

/-- A process gives up its entry, wherever it is. -/
def Board.quit (b : Board) (pid : Int) : Board :=
  match (b.proctab pid).prstate with
  | .curr => { b with due := true }
  | .sleep | .rectim => (b.rouse pid).note (.roused pid)
  | .wait =>
    let sem := (b.proctab pid).prsem
    ((b.setCount sem ((b.semtab sem).scount + 1)).note (.withdrawn pid sem)).leave pid (semQueue sem)
  | .ready => b.leave pid readyQueue
  | .free | .recv | .susp => b

/-- The stack and the entry of a process are given up. -/
def Board.freeSlot (b : Board) (pid : Int) : Board :=
  let entry := b.proctab pid
  let b := (b.note (.stackFreed pid entry.prstkbase entry.prstklen)).quit pid
  (b.setState pid .free).note (.slotFreed pid)

/-- A process that waits for a message is made ready. -/
def Board.alert (b : Board) (pid : Int) : Board :=
  match (b.proctab pid).prstate with
  | .recv => b.becomeReady pid
  | .rectim => ((b.rouse pid).note (.roused pid)).becomeReady pid
  | .free | .curr | .ready | .sleep | .susp | .wait => b

/-- What an action does. -/
def Board.next (b : Board) : Action → Board
  | .goOnAt point => b.goOnAt point
  | .answer value => b.answer value
  | .keep => { b with due := false }
  | .preempt pid => (b.becomeReady b.currpid).dispatch pid
  | .dispatch pid => b.dispatch pid
  | .create pid priority base len =>
    ({ b with prcount := b.prcount + 1 }.setProc pid
      ((b.proctab pid).fresh b.currpid priority base len)).note (.created pid base len)
  | .leak base len => b.note (.leaked base len)
  | .resume pid => b.becomeReady pid
  | .suspend pid =>
    if (b.proctab pid).prstate = .ready then (b.leave pid readyQueue).setState pid .susp
    else { b.setState pid .susp with due := true }
  | .pass sem => (b.setCount sem ((b.semtab sem).scount - 1)).note (.passed b.currpid sem)
  | .block sem =>
    let b := b.setCount sem ((b.semtab sem).scount - 1)
    let b := b.setProc b.currpid { b.proctab b.currpid with prstate := .wait, prsem := sem }
    let b := b.setQueue (semQueue sem) (b.queues (semQueue sem) ++ [b.currpid])
    { b.note (.blocked b.currpid sem) with due := true }
  | .signal sem => (b.setCount sem ((b.semtab sem).scount + 1)).note (.signalled sem)
  | .release sem pid =>
    let b := (b.setCount sem ((b.semtab sem).scount + 1)).note (.signalled sem)
    ((b.leave pid (semQueue sem)).note (.released pid sem)).becomeReady pid
  | .semMake sem count =>
    let entry := { b.semtab sem with sstate := .used, scount := count }
    { b with semtab := Function.update b.semtab sem entry }.note (.semSet sem count)
  | .semReset sem => { b with clearing := some sem }
  | .discharge sem pid =>
    ((b.leave pid (semQueue sem)).note (.discharged pid sem)).becomeReady pid
  | .semSet sem count => { (b.setCount sem count).note (.semSet sem count) with clearing := none }
  | .semDelete sem =>
    let b := { b with
      semtab := Function.update b.semtab sem { b.semtab sem with sstate := .free } }
    { b.note (.semGone sem) with clearing := some sem }
  | .dischargeOne sem pid =>
    let b := b.setCount sem ((b.semtab sem).scount + 1)
    ((b.leave pid (semQueue sem)).note (.discharged pid sem)).becomeReady pid
  | .raise sem => b.setCount sem ((b.semtab sem).scount + 1)
  | .semGone sem => { b.setCount sem ((b.semtab sem).scount + 1) with clearing := none }
  | .receive => { (b.setState b.currpid .recv).goOnAt .receiveEnd with due := true }
  | .sleep delay state =>
    let b := (b.fallAsleep b.currpid delay).setState b.currpid state
    { (b.note (.slept b.currpid delay)).goOnAt
        (if state = .rectim then .recvtimeEnd else .answer ok) with due := true }
  | .timed => b.note (.timed b.currpid)
  | .timeOut => (b.note (.timedOut b.currpid)).answer timeout.toNat
  | .deliver pid msg =>
    ((b.setProc pid { b.proctab pid with prmsg := msg, prhasmsg := true }).note
      (.sent pid msg)).alert pid
  | .take =>
    let entry := b.proctab b.currpid
    ((b.setProc b.currpid { entry with prhasmsg := false }).note
      (.took b.currpid entry.prmsg)).answer entry.prmsg.toNat
  | .tick =>
    { b.note .ticked with
      key := adjustFirst b.key (fun key => key - 1) (b.queues sleepQueue), ticking := true }
  | .wake pid => ((b.leave pid sleepQueue).note (.woken pid)).becomeReady pid
  | .tickEnd => { b with ticking := false }
  | .chprio pid priority => b.setProc pid { b.proctab pid with prprio := priority }
  | .killBegin pid =>
    ({ b with prcount := b.prcount - 1 }.note (.killBegun pid)).goOnAt (.killSent pid)
  | .finish pid =>
    if (b.proctab pid).prstate = .curr then (b.freeSlot pid).goOnAt (.suicideEnd pid)
    else (b.freeSlot pid).answer ok

theorem quit_proctab (b : Board) (pid : Int) : (b.quit pid).proctab = b.proctab := by
  unfold Board.quit
  split <;> rfl

theorem quit_currpid (b : Board) (pid : Int) : (b.quit pid).currpid = b.currpid := by
  unfold Board.quit
  split <;> rfl

theorem freeSlot_proctab (b : Board) (pid : Int) : (b.freeSlot pid).proctab =
    Function.update b.proctab pid { b.proctab pid with prstate := .free } := by
  unfold Board.freeSlot
  simp only [Board.note, Board.setState, Board.setProc, quit_proctab]

theorem freeSlot_currpid (b : Board) (pid : Int) : (b.freeSlot pid).currpid = b.currpid := by
  unfold Board.freeSlot
  simp only [Board.note, Board.setState, Board.setProc, quit_currpid]

/-- A sequence of lawful actions all of which meet a condition. -/
def Board.Leads (condition : Board → Action → Prop) : Board → Board → Prop :=
  Relation.ReflTransGen fun b after =>
    ∃ action, b.Lawful action ∧ condition b action ∧ after = b.next action

end Xinu.Processes
