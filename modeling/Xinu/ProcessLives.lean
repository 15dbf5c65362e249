import Xinu.ProcessAgreement

/-!
# Every process ends once

`kill` lowers the count of processes, sends a message to the parent, frees the stack and
gives up the entry. Where the message makes another process run, other kills and creates
come in between. An entry of the table should go through its lives one after another: it is
created, one kill begins on it, its stack is freed and the entry is given up.

This holds in the runs in which no kill begins on a process that is being killed, no kill
ends a process that is inside of a kill of another one, and no `create` fails after it got a
stack.
-/

namespace Xinu.Processes

open Runs

/-- Where the life of an entry of the table stands. -/
inductive Life where
  | empty
  | alive (base len : UInt32)
  | doomed (base len : UInt32)
  | stackless
deriving DecidableEq

/-- How a life goes on with an entry of the log about it, if it can. -/
def Life.next : Life → Entry → Option Life
  | .empty, .created _ base len => some (.alive base len)
  | .alive base len, .killBegun _ => some (.doomed base len)
  | .doomed base len, .stackFreed _ stack size =>
    if stack = base ∧ size = len then some .stackless else none
  | .stackless, .slotFreed _ => some .empty
  | _, _ => none

/-- The process that an entry of the log creates or kills. -/
def Entry.subject : Entry → Option Int
  | .created pid _ _ | .killBegun pid | .stackFreed pid _ _ | .slotFreed pid => some pid
  | _ => none

/-- The lives of an entry of the table after the log. -/
def life (pid : Int) : List Entry → Option Life
  | [] => some .empty
  | entry :: log =>
    if entry.subject = some pid then (life pid log).bind fun before => before.next entry
    else life pid log

/-- A process that is in use is inside of a kill of this one. -/
def Kills (proctab : Int → Procent) (killer pid : Int) : Prop :=
  InRange killer ∧ (proctab killer).prstate ≠ .free ∧ (proctab killer).prstkptr = .killSent pid

/-- The life of an entry fits the table. -/
def Life.Fits (proctab : Int → Procent) (pid : Int) : Life → Prop
  | .empty => (proctab pid).prstate = .free ∧ ∀ killer, ¬ Kills proctab killer pid
  | .alive base len => (proctab pid).prstate ≠ .free ∧ (proctab pid).prstkbase = base ∧
    (proctab pid).prstklen = len ∧ ∀ killer, ¬ Kills proctab killer pid
  | .doomed base len => (proctab pid).prstate ≠ .free ∧ (proctab pid).prstkbase = base ∧
    (proctab pid).prstklen = len ∧ ∃! killer, Kills proctab killer pid
  | .stackless => False

/-- A life that the count of the processes includes. -/
def Life.stands : Life → Bool
  | .alive _ _ => true
  | .empty | .doomed _ _ | .stackless => false

/-- An entry that counts: that of the null process, or one whose process is not being killed. -/
def standing (log : List Entry) (index : Nat) : Bool :=
  decide (index = 0) || (life index log).any Life.stands

/-- The law of the process table. -/
structure LifeLaw (b : Board) : Prop where
  null : (b.proctab nullproc).prstate ≠ .free
  fits : ∀ pid, InRange pid → pid ≠ nullproc →
    ∃ phase, life pid b.log = some phase ∧ phase.Fits b.proctab pid
  count : b.prcount = (List.range nproc.toNat).countP (standing b.log)
  kept : ∀ base len, .leaked base len ∉ b.log

section Counting

variable {before after : Nat → Bool} {index : Nat}

theorem countP_same (count : Nat) (same : ∀ other < count, after other = before other) :
    (List.range count).countP after = (List.range count).countP before := by
  refine List.countP_congr fun other member => ?_
  rw [same other (List.mem_range.mp member)]

/-- One index counts or does not. -/
theorem countP_change (count : Nat) (inside : index < count)
    (same : ∀ other, other ≠ index → after other = before other) :
    (List.range count).countP after + (before index).toNat =
      (List.range count).countP before + (after index).toNat := by
  induction count with
  | zero => cases inside
  | succ count inductionHypothesis =>
    rw [List.range_succ, List.countP_append, List.countP_append, List.countP_singleton,
      List.countP_singleton]
    rcases eq_or_ne count index with rfl | apart
    · rw [countP_same count fun other below => same other (by omega)]
      cases before count <;> cases after count <;> simp
    · have rest := inductionHypothesis (by lia)
      rw [same count apart]
      lia

end Counting

section Log

variable {pid : Int} {log entries : List Entry} {entry : Entry}

theorem life_silent (silent : ∀ entry ∈ entries, entry.subject ≠ some pid) :
    life pid (entries ++ log) = life pid log := by
  induction entries with
  | nil => rfl
  | cons entry entries inductionHypothesis =>
    rw [List.cons_append, life, if_neg (silent entry List.mem_cons_self)]
    exact inductionHypothesis fun other member => silent other (List.mem_cons_of_mem _ member)

theorem life_cons (about : entry.subject = some pid) :
    life pid (entry :: log) = (life pid log).bind fun before => before.next entry := if_pos about

end Log

/-- An entry that neither creates nor kills nor loses a stack. -/
def Entry.Plain : Entry → Prop
  | .created _ _ _ | .killBegun _ | .stackFreed _ _ _ | .slotFreed _ | .leaked _ _ => False
  | _ => True

theorem Entry.Plain.subject {entry : Entry} (plain : entry.Plain) : entry.subject = none := by
  cases entry <;> first | rfl | exact absurd plain id

/-- The parts of a table entry that the lives are about. -/
def Procent.SameLife (entry other : Procent) : Prop :=
  (entry.prstate = .free ↔ other.prstate = .free) ∧ entry.prstkbase = other.prstkbase ∧
    entry.prstklen = other.prstklen ∧
    ∀ target, entry.prstkptr = .killSent target ↔ other.prstkptr = .killSent target

section Steps

variable {b after : Board} {pid : Int} {entry : Procent}

theorem Procent.SameLife.refl (entry : Procent) : entry.SameLife entry :=
  ⟨Iff.rfl, rfl, rfl, fun _ => Iff.rfl⟩

theorem Kills.congr (same : ∀ pid, (after.proctab pid).SameLife (b.proctab pid))
    (killer pid : Int) : Kills after.proctab killer pid ↔ Kills b.proctab killer pid := by
  unfold Kills
  rw [Ne, Ne, (same killer).1, (same killer).2.2.2 pid]

theorem Life.Fits.congr {phase : Life} (fits : phase.Fits b.proctab pid)
    (state : (after.proctab pid).prstate = .free ↔ (b.proctab pid).prstate = .free)
    (base : (after.proctab pid).prstkbase = (b.proctab pid).prstkbase)
    (len : (after.proctab pid).prstklen = (b.proctab pid).prstklen)
    (kills : ∀ killer, Kills after.proctab killer pid ↔ Kills b.proctab killer pid) :
    phase.Fits after.proctab pid := by
  cases phase <;> simp only [Life.Fits, kills, state, base, len, ne_eq] at fits ⊢ <;> exact fits

/-- Nothing about lives changes. -/
theorem LifeLaw.frame (law : LifeLaw b) (entries : List Entry)
    (same : ∀ pid, (after.proctab pid).SameLife (b.proctab pid))
    (prcount : after.prcount = b.prcount) (log : after.log = entries ++ b.log)
    (plain : ∀ entry ∈ entries, entry.Plain) : LifeLaw after := by
  have lives : ∀ pid, life pid after.log = life pid b.log := fun pid => by
    rw [log]
    refine life_silent fun entry member => ?_
    rw [(plain entry member).subject]
    simp
  refine ⟨?_, ?_, ?_, ?_⟩
  · rw [Ne, (same nullproc).1]
    exact law.null
  · intro pid range real
    obtain ⟨phase, reads, fits⟩ := law.fits pid range real
    refine ⟨phase, (lives pid).trans reads, ?_⟩
    exact fits.congr (same pid).1 (same pid).2.1 (same pid).2.2.1 fun killer =>
      Kills.congr same killer pid
  · rw [prcount, law.count]
    refine congrArg _ (countP_same _ fun index _ => ?_).symm
    unfold standing
    rw [lives]
  · intro base len member
    rw [log, List.mem_append] at member
    rcases member with new | old
    · exact absurd (plain _ new) id
    · exact law.kept base len old

/-- The life of one entry goes on. -/
theorem LifeLaw.advance (law : LifeLaw b) {phase later : Life} (range : InRange pid)
    (real : pid ≠ nullproc) (reads : life pid b.log = some phase)
    (mine : life pid after.log = some later)
    (others : ∀ other, other ≠ pid → life other after.log = life other b.log)
    (tables : ∀ other, other ≠ pid →
      ((after.proctab other).prstate = .free ↔ (b.proctab other).prstate = .free) ∧
      (after.proctab other).prstkbase = (b.proctab other).prstkbase ∧
      (after.proctab other).prstklen = (b.proctab other).prstklen)
    (kills : ∀ killer target, target ≠ pid →
      (Kills after.proctab killer target ↔ Kills b.proctab killer target))
    (fits : later.Fits after.proctab pid)
    (prcount : after.prcount + phase.stands.toNat = b.prcount + later.stands.toNat)
    (kept : ∀ base len, .leaked base len ∈ after.log → .leaked base len ∈ b.log) :
    LifeLaw after := by
  refine ⟨?_, fun other otherRange otherReal => ?_, ?_, fun base len member =>
    law.kept base len (kept base len member)⟩
  · rw [Ne, (tables nullproc (Ne.symm real)).1]
    exact law.null
  · rcases eq_or_ne other pid with rfl | apart
    · exact ⟨later, mine, fits⟩
    · obtain ⟨phase, otherReads, otherFits⟩ := law.fits other otherRange otherReal
      obtain ⟨state, base, len⟩ := tables other apart
      refine ⟨phase, (others other apart).trans otherReads, ?_⟩
      exact otherFits.congr state base len fun killer => kills killer other apart
  · have index : ((pid.toNat : Nat) : Int) = pid := Int.toNat_of_nonneg range.1
    have notZero : pid.toNat ≠ 0 := fun zero => real (by rw [← index, zero]; rfl)
    have stood : standing b.log pid.toNat = phase.stands := by
      unfold standing
      rw [index, reads, decide_eq_false notZero]
      rfl
    have stands : standing after.log pid.toNat = later.stands := by
      unfold standing
      rw [index, mine, decide_eq_false notZero]
      rfl
    have counted := countP_change nproc.toNat (by have := range.2; lia : pid.toNat < nproc.toNat)
      (fun other apart => by
        unfold standing
        rw [others other fun same => apart (by rw [← same]; rfl)] :
        ∀ other, other ≠ pid.toNat → standing after.log other = standing b.log other)
    rw [stood, stands] at counted
    have before := law.count
    lia

/-- One entry of the table changes in other parts. -/
theorem sameLife_update (same : entry.SameLife (b.proctab pid)) (other : Int) :
    (Function.update b.proctab pid entry other).SameLife (b.proctab other) := by
  rcases eq_or_ne other pid with rfl | apart
  · rw [Function.update_self]
    exact same
  · rw [Function.update_of_ne apart]
    exact Procent.SameLife.refl _

theorem LifeLaw.quiet (law : LifeLaw b) (entries : List Entry) (proctab : after.proctab = b.proctab)
    (prcount : after.prcount = b.prcount) (log : after.log = entries ++ b.log)
    (plain : ∀ entry ∈ entries, entry.Plain) : LifeLaw after := by
  refine law.frame entries (fun pid => ?_) prcount log plain
  rw [proctab]
  exact Procent.SameLife.refl _

theorem LifeLaw.note (law : LifeLaw b) (entry : Entry) (plain : entry.Plain) :
    LifeLaw (b.note entry) :=
  law.quiet [entry] rfl rfl rfl (by simpa using plain)

theorem LifeLaw.setProc (law : LifeLaw b) (same : entry.SameLife (b.proctab pid)) :
    LifeLaw (b.setProc pid entry) :=
  law.frame [] (sameLife_update same) rfl rfl (by simp)

/-- A process in use changes its state to one in use. -/
theorem LifeLaw.setState (law : LifeLaw b) (pid : Int) (state : Prstate)
    (used : (b.proctab pid).prstate ≠ .free) (still : state ≠ .free) :
    LifeLaw (b.setState pid state) :=
  law.setProc ⟨iff_of_false still used, rfl, rfl, fun _ => Iff.rfl⟩

/-- The current process goes on from a place outside of `kill` to another one. -/
theorem LifeLaw.goOnAt (law : LifeLaw b) (point : Point) (before : ∀ target, b.point ≠ .killSent target)
    (later : ∀ target, point ≠ .killSent target) : LifeLaw (b.goOnAt point) :=
  law.setProc ⟨Iff.rfl, rfl, rfl, fun target => iff_of_false (later target) (before target)⟩

theorem LifeLaw.answer (law : LifeLaw b) (value : Int) (before : ∀ target, b.point ≠ .killSent target) :
    LifeLaw (b.answer value) :=
  (law.goOnAt .user before (by simp)).note _ trivial

theorem LifeLaw.becomeReady (law : LifeLaw b) (used : (b.proctab pid).prstate ≠ .free) :
    LifeLaw (b.becomeReady pid) :=
  (law.setState pid .ready used (by simp)).quiet [.readied pid] rfl rfl rfl (by simp [Entry.Plain])

theorem LifeLaw.dispatch (law : LifeLaw b) (used : (b.proctab pid).prstate ≠ .free) :
    LifeLaw (b.dispatch pid) :=
  (law.setState pid .curr used (by simp)).quiet [] rfl rfl rfl (by simp)

theorem Point.Plain.apart {point : Point} (plain : point.Plain) (target : Int) :
    point ≠ .killSent target := by
  rintro rfl
  exact plain

/-- A free entry is taken. -/
theorem LifeLaw.create (law : LifeLaw b) {priority : Int16} {base len : UInt32}
    (lawful : b.Lawful (.create pid priority base len)) :
    LifeLaw (b.next (.create pid priority base len)) := by
  obtain ⟨_, range, isFree, _⟩ := lawful
  have real : pid ≠ nullproc := by
    rintro rfl
    exact law.null isFree
  obtain ⟨phase, reads, fits⟩ := law.fits pid range real
  obtain rfl : phase = .empty := by
    cases phase with
    | empty => rfl
    | alive stack size => exact absurd isFree fits.1
    | doomed stack size => exact absurd isFree fits.1
    | stackless => exact absurd fits id
  have mine : (b.next (.create pid priority base len)).proctab pid =
      (b.proctab pid).fresh b.currpid priority base len := Function.update_self _ _ _
  have others : ∀ other, other ≠ pid →
      (b.next (.create pid priority base len)).proctab other = b.proctab other :=
    fun other apart => Function.update_of_ne apart _ _
  have kills : ∀ killer target, Kills (b.next (.create pid priority base len)).proctab killer target ↔
      Kills b.proctab killer target := by
    intro killer target
    unfold Kills
    rcases eq_or_ne killer pid with rfl | apart
    · rw [mine]
      simp [Procent.fresh, isFree]
    · rw [others killer apart]
  have log : (b.next (.create pid priority base len)).log = .created pid base len :: b.log := rfl
  have counted : (b.next (.create pid priority base len)).prcount = b.prcount + 1 := rfl
  have born : life pid (.created pid base len :: b.log) = some (.alive base len) := by
    rw [life_cons rfl, reads]
    rfl
  refine law.advance range real reads (log ▸ born) (fun other apart => ?_) (fun other apart => ?_)
    (fun killer target _ => kills killer target) ?_ ?_ (by simp [log])
  · rw [log]
    exact if_neg fun same => apart (Option.some.inj same).symm
  · rw [others other apart]
    exact ⟨Iff.rfl, rfl, rfl⟩
  · simp only [Life.Fits, kills, mine]
    exact ⟨by simp [Procent.fresh], rfl, rfl, fits.2⟩
  · rw [counted]
    simp [Life.stands]

/-- The life of an entry on which a kill begins. -/
theorem LifeLaw.alive (law : LifeLaw b) (range : InRange pid) (real : pid ≠ nullproc)
    (used : (b.proctab pid).prstate ≠ .free) (apart : ∀ killer, ¬ Kills b.proctab killer pid) :
    life pid b.log =
      some (.alive (b.proctab pid).prstkbase (b.proctab pid).prstklen) := by
  obtain ⟨phase, reads, fits⟩ := law.fits pid range real
  cases phase with
  | empty => exact absurd fits.1 used
  | alive base len => rw [reads, fits.2.1, fits.2.2.1]
  | doomed base len =>
    obtain ⟨killer, kills, _⟩ := fits.2.2.2
    exact absurd kills (apart killer)
  | stackless => exact absurd fits id

/-- The life of an entry that is being killed. -/
theorem LifeLaw.doomed (law : LifeLaw b) {killer : Int} (range : InRange pid) (real : pid ≠ nullproc)
    (kills : Kills b.proctab killer pid) : (∀ other, Kills b.proctab other pid → other = killer) ∧
      life pid b.log = some (.doomed (b.proctab pid).prstkbase (b.proctab pid).prstklen) := by
  obtain ⟨phase, reads, fits⟩ := law.fits pid range real
  cases phase with
  | empty => exact absurd kills (fits.2 killer)
  | alive base len => exact absurd kills (fits.2.2.2 killer)
  | doomed base len =>
    refine ⟨fun other otherKills => fits.2.2.2.unique otherKills kills, ?_⟩
    rw [reads, fits.2.1, fits.2.2.1]
  | stackless => exact absurd fits id

/-- A kill begins on a process that is not being killed. -/
theorem LifeLaw.killBegin (law : LifeLaw b) (agree : Agree b) (lawful : b.Lawful (.killBegin pid))
    (apart : ∀ killer, ¬ Kills b.proctab killer pid) : LifeLaw (b.next (.killBegin pid)) := by
  obtain ⟨settled, plain, range, real, used⟩ := lawful
  have reads := law.alive range real used apart
  have running : (b.proctab b.currpid).prstate ≠ .free := by
    rw [agree.running settled]
    simp
  have mine : (b.next (.killBegin pid)).proctab b.currpid =
      { b.proctab b.currpid with prstkptr := .killSent pid } := Function.update_self _ _ _
  have others : ∀ other, other ≠ b.currpid → (b.next (.killBegin pid)).proctab other =
      b.proctab other := fun other apart => Function.update_of_ne apart _ _
  have tables : ∀ other, ((b.next (.killBegin pid)).proctab other).prstate =
      (b.proctab other).prstate ∧ ((b.next (.killBegin pid)).proctab other).prstkbase =
      (b.proctab other).prstkbase ∧ ((b.next (.killBegin pid)).proctab other).prstklen =
      (b.proctab other).prstklen := by
    intro other
    rcases eq_or_ne other b.currpid with rfl | away
    · rw [mine]
      exact ⟨rfl, rfl, rfl⟩
    · rw [others other away]
      exact ⟨rfl, rfl, rfl⟩
  have kills : ∀ killer target, Kills (b.next (.killBegin pid)).proctab killer target ↔
      (killer = b.currpid ∧ target = pid) ∨ Kills b.proctab killer target := by
    intro killer target
    unfold Kills
    rcases eq_or_ne killer b.currpid with rfl | away
    · have outside : ¬ (b.proctab b.currpid).prstkptr = .killSent target := plain.apart target
      simp [mine, agree.current, running, outside, eq_comm]
    · simp [others killer away, away]
  have log : (b.next (.killBegin pid)).log = .killBegun pid :: b.log := rfl
  have counted : (b.next (.killBegin pid)).prcount = b.prcount - 1 := rfl
  have begun : life pid (.killBegun pid :: b.log) =
      some (.doomed (b.proctab pid).prstkbase (b.proctab pid).prstklen) := by
    rw [life_cons rfl, reads]
    rfl
  refine law.advance range real reads (log ▸ begun) (fun other away => ?_) (fun other _ => ?_)
    (fun killer target away => ?_) ?_ ?_ (by simp [log])
  · rw [log]
    exact if_neg fun same => away (Option.some.inj same).symm
  · obtain ⟨state, base, len⟩ := tables other
    exact ⟨by rw [state], base, len⟩
  · rw [kills]
    simp [away]
  · obtain ⟨state, base, len⟩ := tables pid
    refine ⟨state ▸ used, base, len, b.currpid, (kills _ _).mpr (Or.inl ⟨rfl, rfl⟩), ?_⟩
    intro killer killsNow
    rcases (kills killer pid).mp killsNow with ⟨same, _⟩ | old
    · exact same
    · exact absurd old (apart killer)
  · rw [counted]
    simp [Life.stands]

theorem quit_log (b : Board) (pid : Int) :
    ∃ entries, (b.quit pid).log = entries ++ b.log ∧ ∀ entry ∈ entries, entry.Plain := by
  unfold Board.quit
  split
  case h_1 => exact ⟨[], rfl, by simp⟩
  case h_2 | h_3 => exact ⟨[.roused pid], rfl, by simp [Entry.Plain]⟩
  case h_4 => exact ⟨[.withdrawn pid (b.proctab pid).prsem], rfl, by simp [Entry.Plain]⟩
  all_goals exact ⟨[], rfl, by simp⟩

theorem quit_prcount (b : Board) (pid : Int) : (b.quit pid).prcount = b.prcount := by
  unfold Board.quit
  split <;> rfl

theorem finish_log (b : Board) (pid : Int) : ∃ tail entries, (b.next (.finish pid)).log = tail ++
      .slotFreed pid :: (entries ++
        .stackFreed pid (b.proctab pid).prstkbase (b.proctab pid).prstklen :: b.log) ∧
    (∀ entry ∈ tail, entry.Plain) ∧ ∀ entry ∈ entries, entry.Plain := by
  obtain ⟨entries, log, plain⟩ := quit_log
    (b.note (.stackFreed pid (b.proctab pid).prstkbase (b.proctab pid).prstklen)) pid
  have freed : (b.freeSlot pid).log = .slotFreed pid :: (entries ++
      .stackFreed pid (b.proctab pid).prstkbase (b.proctab pid).prstklen :: b.log) :=
    congrArg (List.cons _) log
  unfold Board.next
  dsimp only
  split
  case isTrue => exact ⟨[], entries, freed, by simp, plain⟩
  case isFalse =>
    refine ⟨[.returned (b.freeSlot pid).currpid ok], entries, congrArg (List.cons _) freed, ?_, plain⟩
    simp [Entry.Plain]

theorem finish_prcount (b : Board) (pid : Int) : (b.next (.finish pid)).prcount = b.prcount := by
  have freed : (b.freeSlot pid).prcount = b.prcount := quit_prcount _ pid
  unfold Board.next
  dsimp only
  split <;> exact freed

/-- The entries after a kill: the killer is behind it, and the killed process is gone. -/
theorem finish_proctab (agree : Agree b) (lawful : b.Lawful (.finish pid)) :
    (b.next (.finish pid)).proctab = Function.update
      (Function.update b.proctab b.currpid { b.proctab b.currpid with
        prstkptr := if pid = b.currpid then .suicideEnd pid else .user }) pid
      { b.proctab pid with prstate := .free, prstkptr :=
        if pid = b.currpid then .suicideEnd pid else (b.proctab pid).prstkptr } := by
  obtain ⟨settled, _, range, _⟩ := lawful
  unfold Board.next
  dsimp only
  split
  case isTrue runs =>
    obtain rfl := agree.single pid range runs
    simp [Board.goOnAt, Board.setProc, freeSlot_proctab, freeSlot_currpid]
  case isFalse stopped =>
    have away : pid ≠ b.currpid := by
      rintro rfl
      exact stopped (agree.running settled)
    simp [Board.answer, Board.note, Board.goOnAt, Board.setProc, freeSlot_proctab, freeSlot_currpid,
      away, Ne.symm away, Function.update_comm away]

/-- A kill ends a process that is outside of every other kill. -/
theorem LifeLaw.finish (law : LifeLaw b) (agree : Agree b) (lawful : b.Lawful (.finish pid))
    (outside : pid = b.currpid ∨ ∀ target, (b.proctab pid).prstkptr ≠ .killSent target) :
    LifeLaw (b.next (.finish pid)) := by
  obtain ⟨settled, point, range, real, clearing⟩ := lawful
  have running : (b.proctab b.currpid).prstate = .curr := agree.running settled
  have killing : Kills b.proctab b.currpid pid := ⟨agree.current, by simp [running], point⟩
  obtain ⟨unique, reads⟩ := law.doomed range real killing
  have proctab := finish_proctab agree ⟨settled, point, range, real, clearing⟩
  have gone : ((b.next (.finish pid)).proctab pid).prstate = .free := by
    rw [proctab, Function.update_self]
  have tables : ∀ other, other ≠ pid → ((b.next (.finish pid)).proctab other).prstate =
      (b.proctab other).prstate ∧ ((b.next (.finish pid)).proctab other).prstkbase =
      (b.proctab other).prstkbase ∧ ((b.next (.finish pid)).proctab other).prstklen =
      (b.proctab other).prstklen := by
    intro other apart
    rw [proctab, Function.update_of_ne apart]
    rcases eq_or_ne other b.currpid with rfl | away
    · rw [Function.update_self]
      exact ⟨rfl, rfl, rfl⟩
    · rw [Function.update_of_ne away]
      exact ⟨rfl, rfl, rfl⟩
  have kills : ∀ killer target, Kills (b.next (.finish pid)).proctab killer target ↔
      killer ≠ b.currpid ∧ killer ≠ pid ∧ Kills b.proctab killer target := by
    intro killer target
    rcases eq_or_ne killer pid with rfl | apart
    · simp [Kills, gone]
    · unfold Kills
      rw [proctab, Function.update_of_ne apart]
      rcases eq_or_ne killer b.currpid with rfl | away
      · simp [Ne.symm apart]
      · simp [away, apart]
  obtain ⟨tail, entries, log, plainTail, plainEntries⟩ := finish_log b pid
  have silent : ∀ {entries : List Entry}, (∀ entry ∈ entries, entry.Plain) → ∀ other,
      ∀ entry ∈ entries, entry.subject ≠ some other := by
    intro entries plain other entry member
    rw [(plain entry member).subject]
    simp
  have ended : life pid (b.next (.finish pid)).log = some .empty := by
    rw [log, life_silent (silent plainTail pid), life_cons rfl, life_silent (silent plainEntries pid),
      life_cons rfl, reads]
    simp [Life.next]
  have prcount := finish_prcount b pid
  refine law.advance range real reads ended (fun other away => ?_) (fun other away => ?_)
    (fun killer target away => ?_) ?_ ?_ (fun base len member => ?_)
  · have notMine : ∀ {entry : Entry}, entry.subject = some pid → entry.subject ≠ some other := by
      intro entry about same
      exact away (Option.some.inj (same.symm.trans about))
    rw [log, life_silent (silent plainTail other), life, if_neg (notMine rfl),
      life_silent (silent plainEntries other), life, if_neg (notMine rfl)]
  · obtain ⟨state, base, len⟩ := tables other away
    exact ⟨by rw [state], base, len⟩
  · rw [kills]
    refine ⟨fun killsNow => killsNow.2.2, fun killed => ⟨?_, ?_, killed⟩⟩
    · rintro rfl
      exact away (Point.killSent.inj (killed.2.2.symm.trans point))
    · rintro rfl
      rcases outside with rfl | outside
      · exact away (Point.killSent.inj (killed.2.2.symm.trans point))
      · exact outside target killed.2.2
  · refine ⟨gone, fun killer killsNow => ?_⟩
    obtain ⟨notCurrent, _, killed⟩ := (kills killer pid).mp killsNow
    exact notCurrent (unique killer killed)
  · rw [prcount]
    simp [Life.stands]
  · rw [log] at member
    simp only [List.mem_append, List.mem_cons, reduceCtorEq, false_or] at member
    rcases member with new | new | old
    · exact absurd (plainTail _ new) id
    · exact absurd (plainEntries _ new) id
    · exact old

/-- The actions that keep the lives apart. -/
def Board.Apart (b : Board) : Action → Prop
  | .leak _ _ => False
  | .killBegin pid => ∀ killer, ¬ Kills b.proctab killer pid
  | .finish pid => pid = b.currpid ∨ ∀ target, (b.proctab pid).prstkptr ≠ .killSent target
  | _ => True

theorem LifeLaw.next (law : LifeLaw b) (agree : Agree b) {action : Action}
    (lawful : b.Lawful action) (apart : b.Apart action) : LifeLaw (b.next action) := by
  have used (settled : b.due = false) : (b.proctab b.currpid).prstate ≠ .free := by
    rw [agree.running settled]
    simp
  cases action with
  | leak => exact absurd apart id
  | create => exact law.create lawful
  | killBegin pid => exact law.killBegin agree lawful apart
  | finish pid => exact law.finish agree lawful apart
  | goOnAt point => exact law.goOnAt point lawful.2.apart lawful.1.apart
  | answer value => exact law.answer value lawful.2.apart
  | keep | semReset | raise | semGone | tickEnd => exact law.quiet [] rfl rfl rfl (by simp)
  | pass sem => exact law.quiet [.passed b.currpid sem] rfl rfl rfl (by simp [Entry.Plain])
  | signal sem => exact law.quiet [.signalled sem] rfl rfl rfl (by simp [Entry.Plain])
  | semMake sem count => exact law.quiet [.semSet sem count] rfl rfl rfl (by simp [Entry.Plain])
  | semSet sem count => exact law.quiet [.semSet sem count] rfl rfl rfl (by simp [Entry.Plain])
  | semDelete sem => exact law.quiet [.semGone sem] rfl rfl rfl (by simp [Entry.Plain])
  | timed => exact law.note (.timed b.currpid) trivial
  | tick => exact law.quiet [.ticked] rfl rfl rfl (by simp [Entry.Plain])
  | preempt pid =>
    have inside := (agree.first isQueue_ready lawful.2.1).2
    refine LifeLaw.dispatch (law.becomeReady (by simp [lawful.1])) ?_
    have away : pid ≠ b.currpid := by
      rintro rfl
      simp [Procent.place, lawful.1] at inside
    simpa [Board.becomeReady, Board.setState, Board.setProc, Board.setQueue, Board.setKey, Board.note,
      away] using used_of_place inside
  | dispatch pid => exact law.dispatch (used_of_place (agree.first isQueue_ready lawful.2).2)
  | resume pid => exact law.becomeReady (by simp [lawful.2.2])
  | suspend pid =>
    have stopped : LifeLaw (b.setState pid .susp) := by
      refine law.setState pid .susp ?_ (by simp)
      rcases lawful.2.2.2 with state | state <;> simp [state]
    unfold Board.next
    dsimp only
    split <;> exact stopped.quiet [] rfl rfl rfl (by simp)
  | block sem =>
    have waits : LifeLaw (b.setProc b.currpid { b.proctab b.currpid with
        prstate := .wait, prsem := sem }) :=
      law.setProc ⟨iff_of_false (by simp) (used lawful.1), rfl, rfl, fun _ => Iff.rfl⟩
    exact waits.quiet [.blocked b.currpid sem] rfl rfl rfl (by simp [Entry.Plain])
  | release sem pid =>
    have inside := (agree.first (isQueue_sem lawful.1) lawful.2.2.2.2).2
    have noted : LifeLaw (((((b.setCount sem ((b.semtab sem).scount + 1)).note (.signalled sem)).leave
        pid (semQueue sem))).note (.released pid sem)) :=
      law.quiet [.released pid sem, .signalled sem] rfl rfl rfl (by simp [Entry.Plain])
    exact noted.becomeReady (used_of_place inside)
  | discharge sem pid =>
    have inside := (agree.first (isQueue_sem lawful.1) lawful.2.2.2).2
    have noted : LifeLaw ((b.leave pid (semQueue sem)).note (.discharged pid sem)) :=
      law.quiet [.discharged pid sem] rfl rfl rfl (by simp [Entry.Plain])
    exact noted.becomeReady (used_of_place inside)
  | dischargeOne sem pid =>
    have inside := (agree.first (isQueue_sem lawful.1) lawful.2.2.2.2).2
    have noted : LifeLaw (((b.setCount sem ((b.semtab sem).scount + 1)).leave pid
        (semQueue sem)).note (.discharged pid sem)) :=
      law.quiet [.discharged pid sem] rfl rfl rfl (by simp [Entry.Plain])
    exact noted.becomeReady (used_of_place inside)
  | receive =>
    have stopped := law.setState b.currpid .recv (used lawful.1) (by simp)
    have moved : LifeLaw ((b.setState b.currpid .recv).goOnAt .receiveEnd) := by
      refine stopped.goOnAt .receiveEnd (fun target => ?_) (by simp)
      simpa [Board.point, Board.setState, Board.setProc] using lawful.2.1.apart target
    exact moved.quiet [] rfl rfl rfl (by simp)
  | sleep delay state =>
    have still : state ≠ .free := by
      rcases lawful.2.2 with rfl | ⟨rfl, _⟩ <;> simp
    have asleep : LifeLaw (((b.fallAsleep b.currpid delay).setState b.currpid state).note
        (.slept b.currpid delay)) :=
      (law.setState b.currpid state (used lawful.1) still).quiet [.slept b.currpid delay] rfl rfl rfl
        (by simp [Entry.Plain])
    have point : (((b.fallAsleep b.currpid delay).setState b.currpid state).note
        (.slept b.currpid delay)).point = (b.setState b.currpid state).point := rfl
    have moved := asleep.goOnAt (if state = .rectim then .recvtimeEnd else .answer ok)
      (fun target => by
        rw [point]
        simpa [Board.point, Board.setState, Board.setProc] using lawful.2.1.apart target)
      (fun target => by split <;> simp)
    exact moved.quiet [] rfl rfl rfl (by simp)
  | timeOut =>
    refine (law.note (.timedOut b.currpid) trivial).answer _ fun target => ?_
    rw [show (b.note (.timedOut b.currpid)).point = b.point from rfl, lawful.2.1]
    simp
  | deliver pid msg =>
    have changed : LifeLaw (b.setProc pid { b.proctab pid with prmsg := msg, prhasmsg := true }) :=
      law.setProc ⟨Iff.rfl, rfl, rfl, fun _ => Iff.rfl⟩
    have stored := changed.note (.sent pid msg) trivial
    have state : (((b.setProc pid { b.proctab pid with prmsg := msg, prhasmsg := true }).note
        (.sent pid msg)).proctab pid).prstate ≠ .free := by
      simpa [Board.note, Board.setProc] using lawful.2.2.1
    unfold Board.next Board.alert
    dsimp only
    split
    case h_1 => exact stored.becomeReady state
    case h_2 =>
      have roused : LifeLaw (((((b.setProc pid { b.proctab pid with
          prmsg := msg, prhasmsg := true }).note (.sent pid msg)).rouse pid)).note (.roused pid)) :=
        stored.quiet [.roused pid] rfl rfl rfl (by simp [Entry.Plain])
      exact roused.becomeReady state
    all_goals exact stored
  | take =>
    have changed : LifeLaw (b.setProc b.currpid { b.proctab b.currpid with prhasmsg := false }) :=
      law.setProc ⟨Iff.rfl, rfl, rfl, fun _ => Iff.rfl⟩
    have emptied := changed.note (.took b.currpid (b.proctab b.currpid).prmsg) trivial
    refine emptied.answer _ fun target => ?_
    have point : ((b.setProc b.currpid { b.proctab b.currpid with prhasmsg := false }).note
        (.took b.currpid (b.proctab b.currpid).prmsg)).point = b.point := by
      simp [Board.point, Board.note, Board.setProc]
    rw [point]
    rcases lawful.2 with here | ⟨_, plain | here⟩
    · simp [here]
    · exact plain.apart target
    · simp [here]
  | wake pid =>
    have inside := (agree.first isQueue_sleep lawful.2.1).2
    have noted : LifeLaw ((b.leave pid sleepQueue).note (.woken pid)) :=
      law.quiet [.woken pid] rfl rfl rfl (by simp [Entry.Plain])
    exact noted.becomeReady (used_of_place inside)
  | chprio pid priority => exact law.setProc ⟨Iff.rfl, rfl, rfl, fun _ => Iff.rfl⟩

end Steps

/-- No kill begins on a process that is being killed, no kill goes on to end a process that is
inside of a kill of another one, and no `create` is refused when it has its stack. -/
def KillsApart (k : Kernel) : Move → Prop
  | .call (.kill pid) => ∀ killer, ¬ Kills k.proctab killer pid
  | .call (.create _ priority (some _)) => 1 ≤ priority.toInt ∧
    ∃ pid, InRange pid ∧ (k.proctab pid).prstate = .free
  | .goOn => ∀ pid, (k.proctab k.currpid).prstkptr = .killSent pid → pid ≠ k.currpid →
    ∀ target, (k.proctab pid).prstkptr ≠ .killSent target
  | _ => True

/-- Moves of this kind make actions that keep the lives apart. -/
theorem killsApart_actions {k : Kernel} {first b : Board} {move : Move} {action : Action}
    (sound : Sound k first) (apart : KillsApart k move) (lawful : b.Lawful action)
    (origin : Origin move first b action) : b.Apart action := by
  have proctab := sound.shows_.proctab
  have currpid := sound.shows_.currpid
  unfold Board.Apart
  split
  case h_1 base len =>
    obtain ⟨rfl, ssize, priority, stack, rfl, refused | full⟩ := origin
    · have enough := apart.1
      omega
    · obtain ⟨pid, range, isFree⟩ := apart.2
      rw [proctab] at isFree
      exact full pid range isFree
  case h_2 pid =>
    obtain ⟨rfl, rfl⟩ := origin
    rw [← proctab]
    exact apart
  case h_3 pid =>
    obtain ⟨rfl, rfl⟩ := origin
    by_cases isCurrent : pid = b.currpid
    · exact Or.inl isCurrent
    · rw [← proctab]
      refine Or.inr (apart pid ?_ (by rwa [currpid]))
      rw [proctab, currpid]
      exact lawful.2.1
  case h_4 => trivial

/-- The entries of the table in use. -/
def Kernel.inUse (k : Kernel) : Nat :=
  (List.range nproc.toNat).countP fun index : Nat => decide ((k.proctab index).prstate ≠ .free)

/-- While no kill is under way the standing entries are those in use. -/
theorem LifeLaw.inUse {b : Board} (law : LifeLaw b) (calm : ∀ killer pid, ¬ Kills b.proctab killer pid) :
    (List.range nproc.toNat).countP (standing b.log) = (List.range nproc.toNat).countP
      fun index : Nat => decide ((b.proctab index).prstate ≠ .free) := by
  refine countP_same _ fun index below => ?_
  rcases Nat.eq_zero_or_pos index with rfl | positive
  · simpa [standing, nullproc] using law.null
  · have range : InRange index := ⟨by omega, by omega⟩
    have real : (index : Int) ≠ nullproc := by
      unfold nullproc
      omega
    obtain ⟨phase, reads, fits⟩ := law.fits index range real
    unfold standing
    rw [reads, decide_eq_false (by omega), Bool.false_or, Option.any_some]
    cases phase with
    | empty => simp [Life.stands, fits.1]
    | alive base len => simpa [Life.stands] using fits.1
    | doomed base len =>
      obtain ⟨killer, kills, _⟩ := fits.2.2.2
      exact absurd kills (calm killer index)
    | stackless => exact absurd fits id

/-- In every run of this kind, `prcount` is the number of entries in use whenever no kill is
under way. Every entry goes through its lives one after another: each process is created with
a stack, at most one kill begins on it, that kill frees this stack and no other, and gives up
the entry, before the entry is used again. No stack is lost, and a process that is being
killed has a killer that will go on. -/
theorem processes_end_once (events : List (Event Kernel Move Unit)) (last : Kernel)
    (run : Run step boot events last) (met : Meets KillsApart events) :
    ((∀ killer pid, ¬ Kills last.proctab killer pid) → last.prcount = last.inUse) ∧
    (∀ pid, InRange pid → pid ≠ nullproc →
      ∃ phase, life pid last.log = some phase ∧ phase.Fits last.proctab pid) ∧
    ∀ base len, .leaked base len ∉ last.log := by
  have initial : LifeLaw bootBoard := by
    refine ⟨by decide, fun pid range real => ⟨.empty, rfl, ?_⟩, by decide, by simp [bootBoard]⟩
    refine ⟨?_, ?_⟩
    · simp [bootBoard, bootProc, real]
    · simp [Kills, bootBoard, bootProc]
  obtain ⟨b, sound, law⟩ := run_law LifeLaw KillsApart initial
    (by
      intro k first move b action sound _ isApart agree law lawful origin
      exact law.next agree lawful (killsApart_actions sound isApart lawful origin)) events last run met
  unfold Kernel.inUse
  rw [sound.shows_.proctab, sound.shows_.prcount, sound.shows_.log]
  refine ⟨fun calm => ?_, law.fits, law.kept⟩
  rw [law.count, law.inUse calm]

/-- A place inside of `kill`, behind its message. -/
def Point.inKill : Point → Bool
  | .killSent _ => true
  | _ => false

/-- No process is inside of `kill`. -/
def Kernel.calm (k : Kernel) : Bool :=
  (List.range nproc.toNat).all fun index : Nat => !(k.proctab index).prstkptr.inKill

theorem Kernel.calm.no_kills {k : Kernel} (calm : k.calm = true) (killer pid : Int) :
    ¬ Kills k.proctab killer pid := by
  rintro ⟨range, _, point⟩
  have index : ((killer.toNat : Nat) : Int) = killer := Int.toNat_of_nonneg range.1
  have inside : killer.toNat ∈ List.range nproc.toNat := by
    have := range.2
    exact List.mem_range.mpr (by lia)
  have outside := List.all_eq_true.mp calm killer.toNat inside
  rw [index, point] at outside
  cases outside

/-- One kill at a time, and every `create` has a stack, a priority and an entry to take. -/
def Kernel.keepsApart (k : Kernel) : Move → Bool
  | .call (.kill _) => k.calm
  | .call (.create _ priority (some _)) =>
    decide (1 ≤ priority.toInt) && decide ((k.proctab 99).prstate = .free)
  | .goOn => !(k.proctab k.currpid).prstkptr.inKill || !(k.proctab 2).prstkptr.inKill &&
    decide ((k.proctab k.currpid).prstkptr = .killSent 2)
  | _ => true

theorem killsApart_of_keepsApart {k : Kernel} {move : Move} (keeps : k.keepsApart move = true) :
    KillsApart k move := by
  unfold KillsApart
  split
  case h_1 pid => exact fun killer => Kernel.calm.no_kills keeps killer pid
  case h_2 ssize priority base =>
    obtain ⟨enough, isFree⟩ := (Bool.and_eq_true _ _).mp keeps
    exact ⟨of_decide_eq_true enough, 99, by decide, of_decide_eq_true isFree⟩
  case h_3 =>
    intro pid point _ target here
    simp only [Kernel.keepsApart, point, Point.inKill, Bool.not_true, Bool.false_or,
      Bool.and_eq_true, Bool.not_eq_true', decide_eq_true_eq, Point.killSent.injEq] at keeps
    obtain ⟨outside, rfl⟩ := keeps
    rw [here] at outside
    cases outside
  case h_4 => trivial

/-- A process kills another one, and a new process takes the entry. -/
theorem entry_is_used_again : ∃ events last, Run step boot events last ∧ last.prcount = 3 ∧
    last.inUse = 3 ∧ life 2 last.log = some .empty ∧ (last.proctab 2).prstate = .free := by
  obtain ⟨events, last, run, checked⟩ := trace_exists step boot
    [.call (.create 400 30 (some 4096)), .call (.create 400 20 (some 8192)), .call (.resume 1),
      .call (.kill 2), .goOn, .call (.create 400 10 (some 8192))]
    (fun events last => decide (last.calm = true ∧ last.prcount = 3 ∧
      life 2 last.log = some .empty ∧
      ∀ event ∈ events, event.before.keepsApart event.call = true)) (by decide +kernel)
  obtain ⟨calm, count, ended, apart⟩ := of_decide_eq_true checked
  obtain ⟨counted, lives, _⟩ := processes_end_once events last run fun event member =>
    killsApart_of_keepsApart (apart event member)
  obtain ⟨phase, reads, fits⟩ := lives 2 (by decide) (by decide)
  obtain rfl : Life.empty = phase := Option.some.inj (ended.symm.trans reads)
  have inUse := counted fun killer pid => Kernel.calm.no_kills calm killer pid
  exact ⟨events, last, run, count, by lia, ended, fits.1⟩

/-- A process is killed by two others at once: its stack is freed twice, and the count is one
too low when both kills are over. -/
theorem stack_is_freed_twice : ∃ events last, Run step boot events last ∧
    (∀ killer pid, ¬ Kills last.proctab killer pid) ∧ last.prcount = 2 ∧ last.inUse = 3 ∧
    last.log.count (.created 3 12288 400) = 1 ∧ last.log.count (.stackFreed 3 12288 400) = 2 := by
  obtain ⟨events, last, run, checked⟩ := trace_exists step boot
    [.call (.create 400 30 (some 4096)), .call (.resume 1), .call (.create 400 20 (some 8192)),
      .call (.create 400 10 (some 12288)), .call (.resume 2), .goOn, .call (.resume 3), .goOn,
      .call .receive, .call (.kill 3), .goOn, .call (.kill 3), .goOn, .call .receive,
      .call .receive, .goOn]
    (fun _ last => decide (last.calm = true ∧ last.prcount = 2 ∧ last.inUse = 3 ∧
      last.log.count (.created 3 12288 400) = 1 ∧ last.log.count (.stackFreed 3 12288 400) = 2))
    (by decide +kernel)
  obtain ⟨calm, counts⟩ := of_decide_eq_true checked
  exact ⟨events, last, run, fun killer pid => Kernel.calm.no_kills calm killer pid, counts⟩

end Xinu.Processes
