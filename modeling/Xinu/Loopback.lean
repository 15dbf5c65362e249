import Xinu.SemaphoreTokens
import Xinu.RingBuffer
import Xinu.Runs

/-!
# The loopback device

`loopbackPutc` stores a character behind those that are waiting, and `loopbackGetc` removes the
first one. The number of waiting characters is the count of a semaphore: `loopbackPutc` takes the
place of a new character from this count. The count is below zero while readers wait, and does
not include characters whose reader was released and has not yet run.

The calls run with interrupts disabled; another process can run where `wait` blocks and where
`signal` makes a process ready. Which process goes on is left open. Beside the control block the
system records the places of the buffer that were used, and the characters that were accepted and
removed.
-/

namespace Xinu.Loopback

open Semaphores Runs RingBuffer

/-- `LOOP_BUFFER`. -/
def loopBuffer : Int := 1024

/-- `LOOP_NONBLOCK`, `LOOP_CTRL_SET_FLAG` and `LOOP_CTRL_CLR_FLAG`. -/
def loopNonblock : UInt32 := 1

def loopCtrlSetFlag : Int := 1

def loopCtrlClrFlag : Int := 2

/-- `SYSERR`, `OK` and `EOF`, as what the calls return. -/
def syserr : Int := -1

def ok : Int := 1

def eof : Int := -2

/-- `LOOP_STATE_FREE` and `LOOP_STATE_ALLOC`. -/
inductive LoopState where
  | free
  | alloc
deriving DecidableEq

/-- Where a process goes on: behind the `wait` of `loopbackGetc` and behind the `signal` of
`loopbackPutc`. -/
inductive Point where
  | getting
  | putting (ch : UInt8)
deriving DecidableEq

/-- `struct loopback` and the processes. -/
structure System where
  kernel : Kernel Point
  state : LoopState
  index : Int
  flags : UInt32
  sem : Int
  buffer : Int → UInt8
  used : List Int
  accepted : List UInt8
  removed : List UInt8

/-- `loopbackInit`. -/
def loopbackInit (s : System) : System := { s with state := .free, index := 0 }

/-- `loopbackOpen`. -/
def loopbackOpen (s : System) : Int × System :=
  if s.state ≠ .free then (syserr, s)
  else
    let (sem, kernel) := semcreate s.kernel 0
    let s := { s with kernel := kernel, sem := sem }
    if sem = Semaphores.syserr then (syserr, s)
    else (ok, { s with buffer := fun _ => 0, flags := 0, state := .alloc })

/-- `loopbackControl`. -/
def loopbackControl (s : System) (func : Int) (arg1 : UInt32) : Int × System :=
  if s.state ≠ .alloc then (syserr, s)
  else if func = loopCtrlSetFlag then (s.flags.toNat, { s with flags := s.flags ||| arg1 })
  else if func = loopCtrlClrFlag then ((s.flags &&& arg1).toNat, { s with flags := s.flags &&& ~~~arg1 })
  else (syserr, s)

/-- `loopbackPutc`. The remainder in C has the sign of the dividend. -/
def loopbackPutc (s : System) (pid : Nat) (ch : UInt8) : Option Int × System :=
  if loopBuffer ≤ semcount s.kernel s.sem then (some syserr, s)
  else
    let i := (s.index + semcount s.kernel s.sem).tmod loopBuffer
    let s := { s with
      buffer := Function.update s.buffer i ch, used := i :: s.used, accepted := s.accepted ++ [ch] }
    match signal s.kernel s.sem with
    | (true, kernel) => (none, { s with kernel := kernel.place pid (.ready (.putting ch)) })
    | (false, kernel) => (some ch.toNat, { s with kernel := kernel })

/-- `loopbackGetc` behind its `wait`. -/
def getcRest (s : System) : Option Int × System :=
  let ch := s.buffer s.index
  (some ch.toNat, { s with
    index := (s.index + 1).tmod loopBuffer, used := s.index :: s.used, removed := s.removed ++ [ch] })

/-- `loopbackGetc`. -/
def loopbackGetc (s : System) (pid : Nat) : Option Int × System :=
  if s.flags &&& loopNonblock = loopNonblock ∧ semcount s.kernel s.sem ≤ 0 then (some eof, s)
  else
    match wait s.kernel pid .getting s.sem with
    | (.blocked, kernel) => (none, { s with kernel := kernel })
    | (.passed, kernel) | (.refused, kernel) => getcRest { s with kernel := kernel }

/-- A process makes a call or goes on in one. -/
inductive Move where
  | putc (pid : Nat) (ch : UInt8)
  | getc (pid : Nat)
  | control (func : Int) (arg1 : UInt32)
  | goOn (pid : Nat)
deriving DecidableEq

/-- A process goes on. -/
def proceed (s : System) (pid : Nat) : Point → Option Int × System
  | .getting => getcRest { s with kernel := s.kernel.place pid .idle }
  | .putting ch => (some ch.toNat, { s with kernel := s.kernel.place pid .idle })

/-- One move, with what the call returns if it is over. -/
def step (s : System) : Move → Option (Option Int × System)
  | .putc pid ch => if s.kernel.process pid = .idle then some (loopbackPutc s pid ch) else none
  | .getc pid => if s.kernel.process pid = .idle then some (loopbackGetc s pid) else none
  | .control func arg1 =>
    let (old, s) := loopbackControl s func arg1
    some (some old, s)
  | .goOn pid => match s.kernel.process pid with
    | .ready point => some (proceed s pid point)
    | .idle | .waiting _ _ => none

/-- The device before it is initialised, with semaphores that others use. -/
def boot (used : Int → Processes.Sstate) : System where
  kernel := atBoot used
  state := .free
  index := 0
  flags := 0
  sem := 0
  buffer := fun _ => 0
  used := []
  accepted := []
  removed := []

/-- The device after `loopbackOpen`. -/
def opened (used : Int → Processes.Sstate) : Int × System := loopbackOpen (loopbackInit (boot used))

/-- The characters that wait in the buffer. -/
def System.stored (s : System) (count : Nat) : List UInt8 :=
  contents (fun place => s.buffer place) loopBuffer.toNat s.index.toNat count

/-- No process was released, and the characters that were accepted are those that were removed and
those that wait, as many as the semaphore counts. -/
structure Law (s : System) (count : Nat) : Prop where
  sems : Semaphores.Law s.kernel
  valid : s.kernel.Valid s.sem
  quiet : ∀ pid point, s.kernel.process pid ≠ .ready point
  counted : (count : Int) = max 0 (s.kernel.semtab s.sem).scount
  index : 0 ≤ s.index ∧ s.index < loopBuffer
  room : (count : Int) ≤ loopBuffer
  order : s.accepted = s.removed ++ s.stored count
  used : ∀ i ∈ s.used, 0 ≤ i ∧ i < loopBuffer

/-- No reader waits when a character comes. -/
def NoReader (s : System) : Move → Prop
  | .putc _ _ => 0 ≤ (s.kernel.semtab s.sem).scount
  | _ => True

section Steps

variable {s after : System} {count pid : Nat} {reply : Option Int} {move : Move}

/-- The place of an offset that is not negative. -/
theorem place_eq {offset : Int} (index : 0 ≤ s.index) (enough : 0 ≤ offset) :
    (s.index + offset).tmod loopBuffer = ((s.index.toNat + offset.toNat) % loopBuffer.toNat : Nat) := by
  have thousand : loopBuffer.toNat = 1024 := rfl
  rw [Int.tmod_eq_emod_of_nonneg (by omega), thousand]
  unfold loopBuffer
  lia

theorem place_inside {offset : Int} (index : 0 ≤ s.index) (enough : 0 ≤ offset) :
    0 ≤ (s.index + offset).tmod loopBuffer ∧ (s.index + offset).tmod loopBuffer < loopBuffer := by
  have below := Nat.mod_lt (s.index.toNat + offset.toNat) (by decide : 0 < loopBuffer.toNat)
  have thousand : loopBuffer.toNat = 1024 := rfl
  rw [place_eq index enough]
  unfold loopBuffer at *
  omega

/-- A character is stored behind those that wait. -/
theorem stored_push {ch : UInt8} (index : 0 ≤ s.index) (room : (count : Int) < loopBuffer) :
    contents (fun place : Nat => Function.update s.buffer ((s.index + count).tmod loopBuffer) ch place)
      loopBuffer.toNat s.index.toNat (count + 1) = s.stored count ++ [ch] := by
  have same : (fun place : Nat => Function.update s.buffer ((s.index + count).tmod loopBuffer) ch place) =
      Function.update (fun place : Nat => s.buffer place) ((s.index.toNat + count) % loopBuffer.toNat) ch := by
    funext place
    rw [place_eq index (Int.natCast_nonneg count), Int.toNat_natCast, Function.update_apply,
      Function.update_apply]
    simp only [Int.natCast_inj]
  rw [same]
  exact contents_push (by unfold loopBuffer at *; lia)

/-- The first character is removed. -/
theorem stored_pop (index : 0 ≤ s.index ∧ s.index < loopBuffer) : s.stored (count + 1) =
    s.buffer s.index :: contents (fun place : Nat => s.buffer place) loopBuffer.toNat
      ((s.index + 1).tmod loopBuffer).toNat count := by
  have next : ((s.index + 1).tmod loopBuffer).toNat = (s.index.toNat + 1) % loopBuffer.toNat := by
    rw [place_eq index.1 Int.one_nonneg]
    rfl
  have below : s.index.toNat < loopBuffer.toNat := by
    unfold loopBuffer at *
    omega
  have first : ((s.index.toNat % loopBuffer.toNat : Nat) : Int) = s.index := by
    rw [Nat.mod_eq_of_lt below]
    exact Int.toNat_of_nonneg index.1
  unfold System.stored
  rw [contents_succ, next, first]

/-- A character that comes while no reader waits. -/
theorem Law.putc (law : Law s count) (noReader : 0 ≤ (s.kernel.semtab s.sem).scount) (ch : UInt8) :
    (loopbackPutc s pid ch = (some syserr, s) ∧ (count : Int) = loopBuffer) ∨
    ∃ after, loopbackPutc s pid ch = (some (ch.toNat : Int), after) ∧ Law after (count + 1) ∧
      after.kernel.process = s.kernel.process := by
  have counted := law.counted
  have room := law.room
  have sems : Semaphores.Law (signal s.kernel s.sem).2 := law.sems.signal
  have counts : (s.kernel.semtab s.sem).scount = count := by lia
  unfold loopbackPutc
  rw [semcount_eq law.valid, counts]
  split
  case isTrue full => exact Or.inl ⟨rfl, by lia⟩
  case isFalse notFull =>
    obtain ⟨_, result⟩ | ⟨low, _⟩ := signal_cases law.sems law.valid
    · dsimp only
      rw [result] at sems ⊢
      refine Or.inr ⟨_, rfl, ⟨sems, ⟨law.valid.1, ?_⟩, law.quiet, ?_, law.index, ?_, ?_, ?_⟩, rfl⟩
      · simp [law.valid.2]
      · simp [counts]
        lia
      · push_cast
        lia
      · unfold System.stored
        dsimp only
        rw [stored_push law.index.1 (by omega), law.order, List.append_assoc]
      · intro i member
        rcases List.mem_cons.mp member with rfl | old
        · exact place_inside law.index.1 (Int.natCast_nonneg count)
        · exact law.used i old
    · omega

/-- The first character is taken. -/
theorem Law.taken {kernel : Kernel Point} (law : Law s (count + 1)) (sems : Semaphores.Law kernel)
    (valid : kernel.Valid s.sem) (process : kernel.process = s.kernel.process)
    (counted : (count : Int) = max 0 (kernel.semtab s.sem).scount) :
    Law (getcRest { s with kernel := kernel }).2 count := by
  have room := law.room
  refine ⟨sems, valid, process ▸ law.quiet, counted, place_inside law.index.1 Int.one_nonneg, ?_, ?_, ?_⟩
  · push_cast at room
    lia
  · rw [law.order, stored_pop law.index]
    exact List.append_cons _ _ _
  · intro i member
    rcases List.mem_cons.mp member with rfl | old
    · exact law.index
    · exact law.used i old

/-- `loopbackGetc` finds nothing, or waits, or takes the first character. -/
theorem Law.getc (law : Law s count) (idle : s.kernel.process pid = .idle) :
    ∃ left, Law (loopbackGetc s pid).2 left := by
  have counted := law.counted
  have awake : (s.kernel.process pid).Awake := idle ▸ awake_idle
  have sems : Semaphores.Law (wait s.kernel pid .getting s.sem).2 := law.sems.wait awake
  unfold loopbackGetc
  split
  case isTrue => exact ⟨count, law⟩
  case isFalse =>
    obtain ⟨positive, result⟩ | ⟨low, result⟩ := @wait_cases _ s.kernel pid .getting s.sem law.valid
    · rw [result] at sems ⊢
      obtain ⟨left, rfl⟩ : ∃ left, count = left + 1 := ⟨count - 1, by lia⟩
      refine ⟨left, law.taken sems ⟨law.valid.1, ?_⟩ rfl ?_⟩
      · simp [law.valid.2]
      · rw [setSem_self]
        dsimp only
        push_cast at counted
        lia
    · rw [result] at sems ⊢
      refine ⟨count, sems, ⟨law.valid.1, by simp⟩, fun this point => ?_, ?_, law.index, law.room, law.order,
        law.used⟩
      · rcases eq_or_ne this pid with rfl | apart
        · simp
        · rw [place_of_ne apart]
          exact law.quiet this point
      · dsimp only
        rw [place_semtab, setSem_self]
        dsimp only
        lia

/-- Every move at which no reader waits keeps the law. -/
theorem law_preserved (before : System) (move : Move) (reply : Option Int) (after : System)
    (law : ∃ count, Law before count) (noReader : NoReader before move)
    (completed : step before move = some (reply, after)) : ∃ count, Law after count := by
  obtain ⟨count, law⟩ := law
  cases move with
  | putc pid ch =>
    simp only [step] at completed
    split at completed
    case isTrue idle =>
      obtain ⟨result, _⟩ | ⟨_, result, lawAfter, _⟩ := @Law.putc before count pid law noReader ch
      · rw [result] at completed
        cases completed
        exact ⟨count, law⟩
      · rw [result] at completed
        cases completed
        exact ⟨_, lawAfter⟩
    case isFalse => cases completed
  | getc pid =>
    simp only [step] at completed
    split at completed
    case isTrue idle =>
      obtain ⟨left, lawAfter⟩ := law.getc idle
      rw [Option.some.inj completed] at lawAfter
      exact ⟨left, lawAfter⟩
    case isFalse => cases completed
  | control func arg1 =>
    have same : after = (loopbackControl before func arg1).2 := by
      unfold step at completed
      cases completed
      rfl
    have frame : ∀ flags, Law { before with flags := flags } count := fun flags =>
      ⟨law.sems, law.valid, law.quiet, law.counted, law.index, law.room, law.order, law.used⟩
    refine ⟨count, ?_⟩
    rw [same]
    unfold loopbackControl
    split
    · exact law
    · split
      · exact frame _
      · split
        · exact frame _
        · exact law
  | goOn pid =>
    simp only [step] at completed
    split at completed
    case h_1 point ready => exact absurd ready (law.quiet pid point)
    all_goals cases completed

end Steps

/-- The device after `loopbackOpen`. -/
theorem opened_law {used : Int → Processes.Sstate} (success : (opened used).1 = ok) :
    Law (opened used).2 0 := by
  have made : (semcreate (atBoot used : Kernel Point) 0).1 ≠ Semaphores.syserr := by
    intro failed
    have refused : (opened used).1 = syserr := congrArg Prod.fst (if_pos failed)
    rw [refused] at success
    cases success
  have isOpened : (opened used).2 = { boot used with
      kernel := (semcreate (atBoot used) 0).2, sem := (semcreate (atBoot used : Kernel Point) 0).1,
      buffer := fun _ => 0, flags := 0, state := .alloc } := congrArg Prod.snd (if_neg made)
  obtain ⟨sems, valid, _, semtab, process⟩ := (atBoot_law used).made (le_refl 0) made
  rw [isOpened]
  refine ⟨sems, valid, fun pid point ready => ?_, ?_, ⟨le_refl 0, (by decide : 0 < loopBuffer)⟩,
    (by decide : 0 ≤ loopBuffer), rfl, ?_⟩
  · dsimp only at ready
    rw [process] at ready
    cases ready
  · dsimp only
    rw [semtab, Function.update_self]
    rfl
  · intro i member
    cases member

/-- In every run in which no reader waits when a character comes: all places lie in the buffer, the
characters that were removed are the first of those that were accepted, and a character is refused
only when the buffer is full. -/
theorem characters_pass_in_order (used : Int → Processes.Sstate) (success : (opened used).1 = ok)
    (events : List (Event System Move (Option Int))) (last : System)
    (run : Run step (opened used).2 events last) (met : Meets NoReader events) :
    (∀ i ∈ last.used, 0 ≤ i ∧ i < loopBuffer) ∧ last.removed <+: last.accepted ∧
    ∀ event ∈ events, ∀ pid ch, event.call = .putc pid ch → event.reply = some syserr →
      (event.before.accepted.length : Int) - event.before.removed.length = loopBuffer := by
  obtain ⟨count, law⟩ := invariant_last (fun s => ∃ count, Law s count) NoReader law_preserved _ _ _ run
    ⟨0, opened_law success⟩ met
  refine ⟨law.used, ⟨last.stored count, law.order.symm⟩, fun event member pid ch isPutc refused => ?_⟩
  obtain ⟨⟨before, lawBefore⟩, _, completed⟩ := invariant_events (fun s => ∃ count, Law s count) NoReader
    law_preserved _ _ _ run ⟨0, opened_law success⟩ met event member
  have noReader := met event member
  rw [isPutc] at noReader completed
  simp only [step] at completed
  split at completed
  case isTrue idle =>
    obtain ⟨_, full⟩ | ⟨_, result, _⟩ := @Law.putc event.before before pid lawBefore noReader ch
    · have length := congrArg List.length lawBefore.order
      rw [List.length_append, System.stored, length_contents] at length
      lia
    · rw [result, refused] at completed
      have isChar : (ch.toNat : Int) = syserr :=
        Option.some.inj (congrArg Prod.fst (Option.some.inj completed))
      unfold syserr at isChar
      omega
  case isFalse => cases completed

/-- Two characters are stored, and one of them is read. -/
theorem two_characters_pass : ∃ events last, Run step (opened fun _ => .free).2 events last ∧
    last.removed <+: last.accepted ∧ last.removed = [97] ∧ last.accepted = [97, 98] := by
  obtain ⟨events, last, run, checked⟩ := trace_exists step (opened fun _ => .free).2
    [.putc 1 97, .putc 2 98, .getc 3]
    (fun events last => decide (last.removed = [97] ∧ last.accepted = [97, 98] ∧
      ∀ event ∈ events, 0 ≤ (event.before.kernel.semtab event.before.sem).scount)) (by decide +kernel)
  obtain ⟨removed, accepted, counts⟩ := of_decide_eq_true checked
  obtain ⟨_, order, _⟩ := characters_pass_in_order (fun _ => .free) (by decide +kernel) events last run
    fun event member => by
      unfold NoReader
      split
      · exact counts event member
      · trivial
  exact ⟨events, last, run, order, removed, accepted⟩

/-- A reader waits when a character comes. At the start of the buffer the character is stored in front
of it. Behind one character that was stored and removed, the reader gets another character. -/
theorem waiting_reader_misses_character :
    (∃ events last, Run step (opened fun _ => .free).2 events last ∧ ∃ i ∈ last.used, ¬ 0 ≤ i) ∧
    ∃ events last, Run step (opened fun _ => .free).2 events last ∧
      ¬ last.removed <+: last.accepted := by
  refine ⟨?_, ?_⟩
  · obtain ⟨events, last, run, checked⟩ := trace_exists step (opened fun _ => .free).2
      [.getc 1, .putc 2 97] (fun _ (last : System) => decide (∃ i ∈ last.used, ¬ 0 ≤ i)) (by decide +kernel)
    exact ⟨events, last, run, of_decide_eq_true checked⟩
  · obtain ⟨events, last, run, checked⟩ := trace_exists step (opened fun _ => .free).2
      [.putc 2 97, .getc 1, .getc 1, .putc 2 98, .goOn 1]
      (fun _ (last : System) => decide (¬ last.removed <+: last.accepted)) (by decide +kernel)
    exact ⟨events, last, run, of_decide_eq_true checked⟩

end Xinu.Loopback
