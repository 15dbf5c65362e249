import Xinu.Processes

/-!
# Semaphores with open scheduling

The buffer pools and the ports use semaphores and depend on no priorities. Here a semaphore
has a count and the queue of its waiting processes, oldest first, and which of the ready
processes goes on next is left open.

The calls run with interrupts disabled, so that another process can run only where a process
blocks, or where it makes another one ready: a process then goes on at a `point` inside of its
call. With at most `NPROC` processes a count does not leave the range of its type.
-/

namespace Xinu.Semaphores

open Processes (Sstate nsem isbadsem)

/-- A process outside of all calls, one that waits for a semaphore, and one that can go on. -/
inductive Process (π : Type) where
  | idle
  | waiting (sem : Int) (point : π)
  | ready (point : π)
deriving DecidableEq

/-- `struct sentry`, with its queue. -/
structure Sentry where
  sstate : Sstate
  scount : Int
  squeue : List Nat

/-- The semaphores and the processes. `nextsem` is the static variable of `newsem`. -/
structure Kernel (π : Type) where
  semtab : Int → Sentry
  nextsem : Nat
  process : Nat → Process π

/-- `SYSERR` as a semaphore. -/
def syserr : Int := -1

section Operations

variable {π : Type}

def Kernel.setSem (k : Kernel π) (sem : Int) (entry : Sentry) : Kernel π :=
  { k with semtab := Function.update k.semtab sem entry }

def Kernel.place (k : Kernel π) (pid : Nat) (process : Process π) : Kernel π :=
  { k with process := Function.update k.process pid process }

/-- The loop of `newsem`. -/
def newsemLoop : Nat → Kernel π → Int × Kernel π
  | 0, k => (syserr, k)
  | turns + 1, k =>
    let sem := k.nextsem
    let k := { k with nextsem := if nsem ≤ (sem + 1 : Nat) then 0 else sem + 1 }
    if (k.semtab sem).sstate = .free then
      (sem, k.setSem sem { k.semtab sem with sstate := .used })
    else newsemLoop turns k

/-- `newsem`. -/
def newsem (k : Kernel π) : Int × Kernel π := newsemLoop nsem.toNat k

/-- `semcreate`. -/
def semcreate (k : Kernel π) (count : Int) : Int × Kernel π :=
  if count < 0 then (syserr, k)
  else
    let (sem, k) := newsem k
    if sem = syserr then (syserr, k)
    else (sem, k.setSem sem { k.semtab sem with scount := count })

/-- What `wait` comes to. -/
inductive Waited where
  | refused
  | passed
  | blocked
deriving DecidableEq

/-- `wait` by a process that would go on at a point. -/
def wait (k : Kernel π) (pid : Nat) (point : π) (sem : Int) : Waited × Kernel π :=
  if isbadsem sem then (.refused, k)
  else
    let entry := k.semtab sem
    if entry.sstate = .free then (.refused, k)
    else if entry.scount - 1 < 0 then
      (.blocked, (k.setSem sem ⟨entry.sstate, entry.scount - 1, entry.squeue ++ [pid]⟩).place pid
        (.waiting sem point))
    else (.passed, k.setSem sem { entry with scount := entry.scount - 1 })

/-- A process that is made ready. -/
def Process.released : Process π → Process π
  | .waiting _ point => .ready point
  | .idle => .idle
  | .ready point => .ready point

/-- `ready` of the processes of a queue. -/
def Kernel.release (k : Kernel π) (queue : List Nat) : Kernel π :=
  { k with process := fun pid => if pid ∈ queue then (k.process pid).released else k.process pid }

/-- `signal`, which may switch when it makes a process ready. -/
def signal (k : Kernel π) (sem : Int) : Bool × Kernel π :=
  if isbadsem sem then (false, k)
  else
    let entry := k.semtab sem
    if entry.sstate = .free then (false, k)
    else
      let raised := k.setSem sem { entry with scount := entry.scount + 1 }
      if entry.scount < 0 then
        match entry.squeue with
        | [] => (false, raised)
        | pid :: queue =>
          (true, (k.setSem sem ⟨entry.sstate, entry.scount + 1, queue⟩).release [pid])
      else (false, raised)

/-- `semreset`, whose switch comes at its end. -/
def semreset (k : Kernel π) (sem count : Int) : Bool × Kernel π :=
  if count < 0 ∨ isbadsem sem ∨ (k.semtab sem).sstate = .free then (false, k)
  else
    let entry := k.semtab sem
    (!entry.squeue.isEmpty,
      (k.release entry.squeue).setSem sem ⟨entry.sstate, count, []⟩)

/-- `semdelete`, whose loop makes as many processes ready as the count says. -/
def semdelete (k : Kernel π) (sem : Int) : Bool × Kernel π :=
  if isbadsem sem then (false, k)
  else
    let entry := k.semtab sem
    if entry.sstate = .free then (false, k)
    else
      let released := entry.squeue.take (-entry.scount).toNat
      (!released.isEmpty, (k.release released).setSem sem
        ⟨.free, max entry.scount 0 + 1, entry.squeue.drop (-entry.scount).toNat⟩)

end Operations

/-- The processes that wait for a semaphore are those of its queue, as many as its count says. -/
structure Law {π : Type} (k : Kernel π) : Prop where
  distinct : ∀ sem, (k.semtab sem).squeue.Nodup
  queued : ∀ sem pid, pid ∈ (k.semtab sem).squeue ↔ ∃ point, k.process pid = .waiting sem point
  count : ∀ sem, (k.semtab sem).sstate = .used →
    ((k.semtab sem).squeue.length : Int) = max 0 (-(k.semtab sem).scount)
  unused : ∀ sem, (k.semtab sem).sstate = .free → (k.semtab sem).squeue = []
  next : (k.nextsem : Int) < nsem

/-- A semaphore that the calls accept. -/
def Kernel.Valid {π : Type} (k : Kernel π) (sem : Int) : Prop :=
  isbadsem sem = false ∧ (k.semtab sem).sstate = .used

/-- A process that does not wait. -/
def Process.Awake {π : Type} (process : Process π) : Prop :=
  ∀ sem point, process ≠ .waiting sem point

section Laws

variable {π : Type} {k : Kernel π} {pid : Nat} {point : π} {sem : Int}

@[simp] theorem setSem_self (entry : Sentry) : (k.setSem sem entry).semtab sem = entry :=
  Function.update_self _ _ _

@[simp] theorem setSem_process (entry : Sentry) : (k.setSem sem entry).process = k.process := rfl

@[simp] theorem place_semtab (process : Process π) : (k.place pid process).semtab = k.semtab := rfl

@[simp] theorem place_self (process : Process π) : (k.place pid process).process pid = process :=
  Function.update_self _ _ _

theorem place_of_ne {other : Nat} (apart : other ≠ pid) (process : Process π) :
    (k.place pid process).process other = k.process other := Function.update_of_ne apart _ _

@[simp] theorem awake_idle : (Process.idle : Process π).Awake := by simp [Process.Awake]

@[simp] theorem awake_ready : (Process.ready point).Awake := by simp [Process.Awake]

theorem awake_released (process : Process π) : process.released.Awake := by
  cases process <;> simp [Process.released]

/-- One semaphore changes, with its queue. -/
theorem Law.change (law : Law k) {entry : Sentry} {process : Nat → Process π} {nextsem : Nat}
    (distinct : entry.squeue.Nodup)
    (queued : ∀ pid, pid ∈ entry.squeue ↔ ∃ point, process pid = .waiting sem point)
    (elsewhere : ∀ other, other ≠ sem → ∀ pid point,
      process pid = .waiting other point ↔ k.process pid = .waiting other point)
    (count : entry.sstate = .used → (entry.squeue.length : Int) = max 0 (-entry.scount))
    (unused : entry.sstate = .free → entry.squeue = []) (next : (nextsem : Int) < nsem) :
    Law ⟨Function.update k.semtab sem entry, nextsem, process⟩ := by
  refine ⟨fun other => ?_, fun other pid => ?_, fun other => ?_, fun other => ?_, next⟩ <;>
    rcases eq_or_ne other sem with rfl | apart
  · simpa using distinct
  · simpa [apart] using law.distinct other
  · simpa using queued pid
  · simpa [apart, elsewhere other apart] using law.queued other pid
  · simpa using count
  · simpa [apart] using law.count other
  · simpa using unused
  · simpa [apart] using law.unused other

/-- A process moves while it does not wait. -/
theorem Law.place (law : Law k) {process : Process π} (before : (k.process pid).Awake)
    (later : process.Awake) : Law (k.place pid process) := by
  refine ⟨law.distinct, fun sem other => ?_, law.count, law.unused, law.next⟩
  refine (law.queued sem other).trans ?_
  rcases eq_or_ne other pid with rfl | apart
  · simp [Kernel.place, before sem, later sem]
  · simp [Kernel.place, apart]

/-- Only the count of a semaphore changes. -/
theorem Law.setCount (law : Law k) {count : Int} (used : (k.semtab sem).sstate = .used)
    (same : max 0 (-count) = max 0 (-(k.semtab sem).scount)) :
    Law (k.setSem sem { k.semtab sem with scount := count }) :=
  law.change (law.distinct sem) (law.queued sem) (fun _ _ _ _ => Iff.rfl)
    (fun _ => (law.count sem used).trans same.symm) (law.unused sem) law.next

/-- `wait` on a semaphore in use. -/
theorem wait_cases (valid : k.Valid sem) :
    (0 < (k.semtab sem).scount ∧ wait k pid point sem =
      (.passed, k.setSem sem { k.semtab sem with scount := (k.semtab sem).scount - 1 })) ∨
    ((k.semtab sem).scount ≤ 0 ∧ wait k pid point sem =
      (.blocked, (k.setSem sem ⟨.used, (k.semtab sem).scount - 1, (k.semtab sem).squeue ++ [pid]⟩).place
        pid (.waiting sem point))) := by
  unfold wait
  dsimp only
  rw [if_neg (by simp [valid.1]), if_neg (by simp [valid.2]), valid.2]
  by_cases positive : 0 < (k.semtab sem).scount
  · exact Or.inl ⟨positive, if_neg (by omega)⟩
  · exact Or.inr ⟨by omega, if_pos (by omega)⟩

theorem valid_of_not (inRange : ¬ isbadsem sem = true) (used : ¬ (k.semtab sem).sstate = .free) :
    k.Valid sem := by
  refine ⟨by simpa using inRange, ?_⟩
  cases state : (k.semtab sem).sstate with
  | free => exact absurd state used
  | used => rfl

theorem wait_refused (invalid : ¬ k.Valid sem) : wait k pid point sem = (.refused, k) := by
  unfold wait
  split
  case isTrue => rfl
  case isFalse inRange =>
    dsimp only
    split
    case isTrue => rfl
    case isFalse used => exact absurd (valid_of_not inRange used) invalid

theorem Law.wait (law : Law k) (awake : (k.process pid).Awake) :
    Law (wait k pid point sem).2 := by
  by_cases valid : k.Valid sem
  case neg =>
    rw [wait_refused valid]
    exact law
  have outside : pid ∉ (k.semtab sem).squeue := fun inside =>
    let ⟨point, waits⟩ := (law.queued sem pid).mp inside
    awake sem point waits
  obtain ⟨positive, result⟩ | ⟨low, result⟩ : _ ∨ _ := wait_cases valid
  · rw [result]
    exact law.setCount valid.2 (by lia)
  · rw [result]
    have length := law.count sem valid.2
    refine law.change ?_ (fun other => ?_) (fun other apart this here => ?_) (fun _ => ?_) ?_
      law.next
    · exact List.nodup_append.mpr ⟨law.distinct sem, List.nodup_singleton pid, by
        rintro a inside b isPid rfl
        exact outside (List.mem_singleton.mp isPid ▸ inside)⟩
    · rcases eq_or_ne other pid with rfl | away
      · simp [Kernel.setSem]
      · simpa [Kernel.setSem, away] using law.queued sem other
    · rcases eq_or_ne this pid with rfl | away
      · simp [Kernel.setSem, Ne.symm apart, awake other]
      · simp [Kernel.setSem, away]
    · simp only [List.length_append, List.length_singleton]
      push_cast
      lia
    · simp

/-- The processes of a queue stop to wait. -/
theorem release_waiting (law : Law k) {queue : List Nat} (inside : ∀ pid ∈ queue,
    pid ∈ (k.semtab sem).squeue) {other : Int} (apart : other ≠ sem) (pid : Nat) (point : π) :
    (k.release queue).process pid = .waiting other point ↔ k.process pid = .waiting other point := by
  unfold Kernel.release
  dsimp only
  split
  case isTrue member =>
    obtain ⟨here, waits⟩ := (law.queued sem pid).mp (inside pid member)
    rw [waits]
    simp [Process.released, Ne.symm apart]
  case isFalse => rfl

/-- The first processes of a queue are made ready. -/
theorem Law.releaseFront (law : Law k) {front back : List Nat}
    (queue : (k.semtab sem).squeue = front ++ back) {state : Sstate} {count : Int} {nextsem : Nat}
    (length : state = .used → (back.length : Int) = max 0 (-count))
    (unused : state = .free → back = []) (next : (nextsem : Int) < nsem) :
    Law ⟨Function.update k.semtab sem ⟨state, count, back⟩, nextsem, (k.release front).process⟩ := by
  have distinct := law.distinct sem
  rw [queue, List.nodup_append] at distinct
  refine law.change distinct.2.1 (fun pid => ?_) (fun other apart pid point => ?_) length unused
    next
  · have waits := law.queued sem pid
    rw [queue, List.mem_append] at waits
    unfold Kernel.release
    dsimp only
    split
    case isTrue member =>
      refine iff_of_false (fun inBack => distinct.2.2 pid member pid inBack rfl) ?_
      rintro ⟨point, here⟩
      exact awake_released _ sem point here
    case isFalse outside => simpa [outside] using waits
  · refine release_waiting law (fun pid member => ?_) apart pid point
    rw [queue]
    exact List.mem_append_left back member

theorem release_singleton : k.release [pid] = k.place pid (k.process pid).released := by
  unfold Kernel.release Kernel.place
  congr 1
  funext other
  rcases eq_or_ne other pid with rfl | apart
  · simp
  · simp [apart]

/-- `signal` of a semaphore in use. -/
theorem signal_cases (law : Law k) (valid : k.Valid sem) :
    (0 ≤ (k.semtab sem).scount ∧ signal k sem =
      (false, k.setSem sem { k.semtab sem with scount := (k.semtab sem).scount + 1 })) ∨
    ((k.semtab sem).scount < 0 ∧ ∃ pid point queue, (k.semtab sem).squeue = pid :: queue ∧
      k.process pid = .waiting sem point ∧ signal k sem =
        (true, (k.setSem sem ⟨.used, (k.semtab sem).scount + 1, queue⟩).place pid (.ready point))) := by
  have length := law.count sem valid.2
  unfold signal
  dsimp only
  rw [if_neg (by simp [valid.1]), if_neg (by simp [valid.2]), valid.2]
  by_cases negative : (k.semtab sem).scount < 0
  · right
    refine ⟨negative, ?_⟩
    rw [if_pos negative]
    cases queue : (k.semtab sem).squeue with
    | nil =>
      rw [queue, List.length_nil] at length
      omega
    | cons pid rest =>
      obtain ⟨point, waits⟩ := (law.queued sem pid).mp (queue ▸ List.mem_cons_self)
      refine ⟨pid, point, rest, rfl, waits, ?_⟩
      dsimp only
      rw [release_singleton, setSem_process, waits]
      rfl
  · exact Or.inl ⟨by omega, if_neg negative⟩

theorem signal_refused (invalid : ¬ k.Valid sem) : signal k sem = (false, k) := by
  unfold signal
  split
  case isTrue => rfl
  case isFalse inRange =>
    dsimp only
    split
    case isTrue => rfl
    case isFalse used => exact absurd (valid_of_not inRange used) invalid

theorem Law.signal (law : Law k) : Law (signal k sem).2 := by
  by_cases valid : k.Valid sem
  case neg =>
    rw [signal_refused valid]
    exact law
  have length := law.count sem valid.2
  obtain ⟨high, result⟩ | ⟨low, pid, point, queue, isQueue, waits, result⟩ := signal_cases law valid
  · rw [result]
    exact law.setCount valid.2 (by omega)
  · rw [result]
    rw [isQueue, List.length_cons] at length
    have front : (k.setSem sem ⟨.used, (k.semtab sem).scount + 1, queue⟩).place pid (.ready point) =
        (k.setSem sem ⟨.used, (k.semtab sem).scount + 1, queue⟩).release [pid] := by
      rw [release_singleton, setSem_process, waits]
      rfl
    rw [front]
    refine Law.releaseFront law (isQueue : _ = [pid] ++ queue) (fun _ => ?_) (by simp) law.next
    push_cast at length
    lia

/-- The loop of `newsem` finds a free semaphore or changes nothing but its place. -/
theorem newsemLoop_cases (turns : Nat) (next : (k.nextsem : Int) < nsem) :
    ((newsemLoop turns k).2.nextsem : Int) < nsem ∧ (newsemLoop turns k).2.process = k.process ∧
      (((newsemLoop turns k).1 = syserr ∧ (newsemLoop turns k).2.semtab = k.semtab) ∨
        ∃ sem, (newsemLoop turns k).1 = sem ∧ isbadsem sem = false ∧
          (k.semtab sem).sstate = .free ∧ (newsemLoop turns k).2.semtab =
            Function.update k.semtab sem { k.semtab sem with sstate := .used }) := by
  induction turns generalizing k with
  | zero => exact ⟨next, rfl, Or.inl ⟨rfl, rfl⟩⟩
  | succ turns inductionHypothesis =>
    have onward : (((if nsem ≤ (k.nextsem + 1 : Nat) then 0 else k.nextsem + 1 : Nat)) : Int) < nsem := by
      unfold nsem
      split <;> omega
    unfold newsemLoop
    dsimp only
    split
    case isTrue isFree =>
      refine ⟨onward, rfl, Or.inr ⟨k.nextsem, rfl, ?_, isFree, rfl⟩⟩
      simp [isbadsem, next]
    case isFalse =>
      have later := @inductionHypothesis { k with
        nextsem := if nsem ≤ (k.nextsem + 1 : Nat) then 0 else k.nextsem + 1 } onward
      exact later

/-- `semcreate` takes a free semaphore or fails. -/
theorem semcreate_cases (law : Law k) {count : Int} (enough : 0 ≤ count) :
    ((semcreate k count).2.nextsem : Int) < nsem ∧ (semcreate k count).2.process = k.process ∧
      (((semcreate k count).1 = syserr ∧ (semcreate k count).2.semtab = k.semtab) ∨
        ∃ sem, (semcreate k count).1 = sem ∧ isbadsem sem = false ∧
          (k.semtab sem).sstate = .free ∧
          (semcreate k count).2.semtab = Function.update k.semtab sem ⟨.used, count, []⟩) := by
  obtain ⟨next, process, ⟨failed, semtab⟩ | ⟨sem, found, inRange, isFree, semtab⟩⟩ :=
    newsemLoop_cases nsem.toNat law.next
  · have result : semcreate k count = (syserr, (newsem k).2) := by
      unfold semcreate
      rw [if_neg (by omega)]
      exact if_pos failed
    rw [result]
    exact ⟨next, process, Or.inl ⟨rfl, semtab⟩⟩
  · have notError : sem ≠ syserr := by
      rintro rfl
      simp [isbadsem, syserr] at inRange
    have result : semcreate k count = (sem, (newsem k).2.setSem sem
        { (newsem k).2.semtab sem with scount := count }) := by
      unfold semcreate
      rw [if_neg (by omega), ← found]
      exact if_neg (found ▸ notError)
    rw [result]
    refine ⟨next, process, Or.inr ⟨sem, rfl, inRange, isFree, ?_⟩⟩
    have entry : (newsem k).2.semtab sem = { k.semtab sem with sstate := .used } := by
      unfold newsem
      rw [semtab, Function.update_self]
    unfold Kernel.setSem
    dsimp only
    rw [entry]
    dsimp only
    rw [law.unused sem isFree]
    unfold newsem
    rw [semtab, Function.update_idem]

theorem Law.semcreate (law : Law k) (count : Int) : Law (semcreate k count).2 := by
  by_cases enough : 0 ≤ count
  case neg =>
    unfold Semaphores.semcreate
    rw [if_pos (by omega)]
    exact law
  obtain ⟨next, process, ⟨_, semtab⟩ | ⟨sem, _, _, isFree, semtab⟩⟩ := semcreate_cases law enough
  · exact ⟨semtab ▸ law.distinct, semtab ▸ process ▸ law.queued, semtab ▸ law.count,
      semtab ▸ law.unused, next⟩
  · have waits := law.queued sem
    rw [law.unused sem isFree] at waits
    have changed : Law ⟨Function.update k.semtab sem ⟨.used, count, []⟩,
        (Semaphores.semcreate k count).2.nextsem, k.process⟩ :=
      law.change List.nodup_nil waits (fun _ _ _ _ => Iff.rfl) (fun _ => by simp; omega) (by simp) next
    rwa [← semtab, ← process] at changed

/-- `semreset` of a semaphore in use makes all of its processes ready. -/
theorem semreset_valid (valid : k.Valid sem) {count : Int} (enough : 0 ≤ count) :
    semreset k sem count = (!(k.semtab sem).squeue.isEmpty,
      (k.release (k.semtab sem).squeue).setSem sem ⟨.used, count, []⟩) := by
  unfold semreset
  dsimp only
  rw [if_neg (by simp [valid.1, valid.2, enough]), valid.2]

theorem Law.semreset (law : Law k) (valid : k.Valid sem) {count : Int} (enough : 0 ≤ count) :
    Law (semreset k sem count).2 := by
  rw [semreset_valid valid enough]
  have whole : (k.semtab sem).squeue = (k.semtab sem).squeue ++ [] := (List.append_nil _).symm
  exact law.releaseFront whole (fun _ => by simp; omega) (by simp) law.next

/-- `semdelete` of a semaphore in use makes all of its processes ready. -/
theorem semdelete_valid (law : Law k) (valid : k.Valid sem) :
    semdelete k sem = (!(k.semtab sem).squeue.isEmpty, (k.release (k.semtab sem).squeue).setSem sem
      ⟨.free, max (k.semtab sem).scount 0 + 1, []⟩) := by
  have length := law.count sem valid.2
  have all : (k.semtab sem).squeue.length ≤ (-(k.semtab sem).scount).toNat := by lia
  unfold semdelete
  dsimp only
  rw [if_neg (by simp [valid.1]), if_neg (by simp [valid.2]), List.take_of_length_le all,
    List.drop_of_length_le all]

theorem Law.semdelete (law : Law k) (valid : k.Valid sem) : Law (semdelete k sem).2 := by
  rw [semdelete_valid law valid]
  have whole : (k.semtab sem).squeue = (k.semtab sem).squeue ++ [] := (List.append_nil _).symm
  exact law.releaseFront whole (by simp) (by simp) law.next

end Laws

end Xinu.Semaphores
