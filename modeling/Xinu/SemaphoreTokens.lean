import Xinu.Semaphores

/-!
# What a semaphore grants

A semaphore that counts things hands out one grant for each: a grant is in the count, or it was
given to a process that was released from `wait` and has not yet gone on. The number of grants
goes up by one with each `signal`, whoever waits, and down by one when a process goes through
`wait` or goes on behind it.
-/

namespace Xinu.Semaphores

open Processes (isbadsem)

variable {π : Type}

/-- The loop of `signaln`. No process is switched to before its end. -/
def signalnLoop (sem : Int) : Nat → Kernel π → Kernel π
  | 0, k => k
  | count + 1, k => signalnLoop sem count (signal k sem).2

/-- `signaln`. Each turn of its loop does what `signal` does. -/
def signaln (k : Kernel π) (sem count : Int) : Kernel π :=
  if isbadsem sem ∨ count < 0 ∨ (k.semtab sem).sstate = .free then k
  else signalnLoop sem count.toNat k

/-- `semcount` of a semaphore. -/
def semcount (k : Kernel π) (sem : Int) : Int :=
  if isbadsem sem ∨ (k.semtab sem).sstate = .free then syserr else (k.semtab sem).scount

/-- The processes that were released and have not yet gone on behind a `wait`. -/
def Released (k : Kernel π) (taking : π → Prop) (released : List Nat) : Prop :=
  released.Nodup ∧ ∀ pid, pid ∈ released ↔ ∃ point, taking point ∧ k.process pid = .ready point

/-- The grants of a semaphore, to processes that take something behind its `wait`. -/
structure Tokens (k : Kernel π) (sem : Int) (taking : π → Prop) (grants : Int) : Prop where
  valid : k.Valid sem
  waiting : ∀ pid point, k.process pid = .waiting sem point → taking point
  total : ∃ released, Released k taking released ∧
    grants = max 0 (k.semtab sem).scount + released.length

/-- The semaphores at the start, some of which others use. -/
def atBoot (used : Int → Processes.Sstate) : Kernel π where
  semtab := fun sem => ⟨used sem, 0, []⟩
  nextsem := 0
  process := fun _ => .idle

theorem atBoot_law (used : Int → Processes.Sstate) : Law (atBoot used : Kernel π) := by
  refine ⟨fun _ => List.nodup_nil, fun sem pid => ?_, fun sem _ => ?_, fun _ _ => rfl, ?_⟩
  · simp [atBoot]
  · simp [atBoot]
  · simp [atBoot, Processes.nsem]

/-- A semaphore that `semcreate` made. -/
structure Made (k after : Kernel π) (sem count : Int) : Prop where
  law : Law after
  valid : after.Valid sem
  wasFree : (k.semtab sem).sstate = .free
  semtab : after.semtab = Function.update k.semtab sem ⟨.used, count, []⟩
  process : after.process = k.process

theorem Law.made {k : Kernel π} (law : Law k) {count : Int} (enough : 0 ≤ count)
    (success : (Semaphores.semcreate k count).1 ≠ syserr) :
    Made k (Semaphores.semcreate k count).2 (Semaphores.semcreate k count).1 count := by
  obtain ⟨_, process, ⟨failed, _⟩ | ⟨sem, isSem, inRange, isFree, semtab⟩⟩ := semcreate_cases law enough
  · exact absurd failed success
  · refine ⟨law.semcreate count, ?_, isSem ▸ isFree, isSem ▸ semtab, process⟩
    rw [isSem]
    refine ⟨inRange, ?_⟩
    rw [semtab, Function.update_self]

/-- The point of a call at which a process is. -/
def Process.point : Process π → Option π
  | .idle => none
  | .waiting _ point | .ready point => some point

/-- A process stays where it is, or stops to wait there. -/
def Stays (before after : Process π) : Prop := after = before ∨ after = before.released

section Points

variable {k : Kernel π} {before middle after : Process π}

theorem Stays.trans (first : Stays before middle) (second : Stays middle after) : Stays before after := by
  rcases first with rfl | rfl
  · exact second
  · right
    rcases second with rfl | rfl
    · rfl
    · cases before <;> rfl

theorem Stays.point (stays : Stays before after) : after.point = before.point := by
  rcases stays with rfl | rfl
  · rfl
  · cases before <;> rfl

theorem Stays.waiting (stays : Stays before after) {sem : Int} {point : π} (waits : after = .waiting sem point) :
    before = .waiting sem point := by
  rcases stays with rfl | rfl
  · exact waits
  · exact absurd waits (awake_released before sem point)

/-- `signal` moves no process to another point. -/
theorem signal_stays (k : Kernel π) (sem : Int) (pid : Nat) :
    Stays (k.process pid) ((signal k sem).2.process pid) := by
  unfold signal
  split
  · exact Or.inl rfl
  · dsimp only
    split
    · exact Or.inl rfl
    · split
      · split
        · exact Or.inl rfl
        · unfold Kernel.release
          dsimp only
          split
          · exact Or.inr rfl
          · exact Or.inl rfl
      · exact Or.inl rfl

theorem signalnLoop_stays (k : Kernel π) (sem : Int) (count pid : Nat) :
    Stays (k.process pid) ((signalnLoop sem count k).process pid) := by
  induction count generalizing k with
  | zero => exact Or.inl rfl
  | succ count inductionHypothesis => exact (signal_stays k sem pid).trans (inductionHypothesis _)

theorem signaln_stays (k : Kernel π) (sem count : Int) (pid : Nat) :
    Stays (k.process pid) ((signaln k sem count).process pid) := by
  unfold signaln
  split
  · exact Or.inl rfl
  · exact signalnLoop_stays k sem _ pid

end Points

section Releases

variable {k after : Kernel π} {taking : π → Prop} {released : List Nat} {pid : Nat} {process : Process π}

/-- No process comes to such a place or leaves one. -/
theorem Released.congr (here : Released k taking released)
    (same : ∀ pid, (∃ point, taking point ∧ after.process pid = .ready point) ↔
      ∃ point, taking point ∧ k.process pid = .ready point) : Released after taking released :=
  ⟨here.1, fun pid => (here.2 pid).trans (same pid).symm⟩

theorem Released.place (here : Released k taking released)
    (before : ∀ point, taking point → k.process pid ≠ .ready point)
    (later : ∀ point, taking point → process ≠ .ready point) :
    Released (k.place pid process) taking released := by
  refine here.congr fun other => ?_
  rcases eq_or_ne other pid with rfl | apart
  · rw [place_self]
    constructor
    · rintro ⟨point, takes, ready⟩
      exact absurd ready (later point takes)
    · rintro ⟨point, takes, ready⟩
      exact absurd ready (before point takes)
  · rw [place_of_ne apart]

/-- A process is released. -/
theorem Released.arrive (here : Released k taking released) {point : π} (takes : taking point)
    (before : ∀ point, taking point → k.process pid ≠ .ready point) :
    Released (k.place pid (.ready point)) taking (pid :: released) := by
  refine ⟨List.nodup_cons.mpr ⟨fun member => ?_, here.1⟩, fun other => ?_⟩
  · obtain ⟨old, takesOld, ready⟩ := (here.2 pid).mp member
    exact before old takesOld ready
  · rcases eq_or_ne other pid with rfl | apart
    · simp only [List.mem_cons, true_or, place_self, Process.ready.injEq, true_iff]
      exact ⟨point, takes, rfl⟩
    · rw [place_of_ne apart, ← here.2 other, List.mem_cons]
      simp [apart]

/-- A released process goes on. -/
theorem Released.leave (here : Released k taking released) (member : pid ∈ released)
    (later : ∀ point, taking point → process ≠ .ready point) :
    Released (k.place pid process) taking (released.erase pid) := by
  refine ⟨here.1.erase pid, fun other => ?_⟩
  rw [here.1.mem_erase_iff]
  rcases eq_or_ne other pid with rfl | apart
  · rw [place_self]
    constructor
    · rintro ⟨apart, _⟩
      exact absurd rfl apart
    · rintro ⟨point, takes, ready⟩
      exact absurd ready (later point takes)
  · rw [place_of_ne apart, here.2 other]
    simp [apart]

end Releases

section Grants

variable {k : Kernel π} {sem other : Int} {taking others : π → Prop} {grants more : Int} {pid : Nat}
  {point : π} {process : Process π}

theorem Tokens.nonneg (tokens : Tokens k sem taking grants) : 0 ≤ grants := by
  obtain ⟨released, _, total⟩ := tokens.total
  omega

theorem semcount_eq (valid : k.Valid sem) : semcount k sem = (k.semtab sem).scount := by
  unfold semcount
  rw [if_neg]
  simp [valid.1, valid.2]

/-- `signal` adds a grant. -/
theorem Tokens.signal (tokens : Tokens k sem taking grants) (law : Law k) :
    Tokens (signal k sem).2 sem taking (grants + 1) := by
  obtain ⟨released, here, total⟩ := tokens.total
  obtain ⟨high, result⟩ | ⟨low, first, place, queue, _, waits, result⟩ := signal_cases law tokens.valid
  · rw [result]
    refine ⟨⟨tokens.valid.1, ?_⟩, tokens.waiting, released, here.congr fun _ => Iff.rfl, ?_⟩
    · simp [tokens.valid.2]
    · rw [setSem_self]
      dsimp only
      lia
  · rw [result]
    have notReady : ∀ point, taking point → k.process first ≠ .ready point := by
      intro point _ ready
      rw [waits] at ready
      cases ready
    refine ⟨⟨tokens.valid.1, ?_⟩, fun this point waiting => ?_, first :: released, ?_, ?_⟩
    · simp
    · rcases eq_or_ne this first with rfl | apart
      · rw [place_self] at waiting
        cases waiting
      · rw [place_of_ne apart] at waiting
        exact tokens.waiting this point waiting
    · exact Released.arrive (here.congr fun _ => Iff.rfl) (tokens.waiting first place waits) notReady
    · rw [place_semtab, setSem_self, List.length_cons]
      dsimp only
      push_cast
      lia

/-- `signal` of another semaphore. -/
theorem Tokens.signal_other (tokens : Tokens k sem taking grants) (law : Law k)
    (beside : Tokens k other others more) (disjoint : ∀ point, others point → ¬ taking point)
    (apart : sem ≠ other) : Tokens (Semaphores.signal k other).2 sem taking grants := by
  obtain ⟨released, here, total⟩ := tokens.total
  obtain ⟨_, result⟩ | ⟨_, first, place, queue, _, waits, result⟩ := signal_cases law beside.valid
  · rw [result]
    have entry : (k.setSem other { k.semtab other with
        scount := (k.semtab other).scount + 1 }).semtab sem = k.semtab sem := Function.update_of_ne apart _ _
    exact ⟨⟨tokens.valid.1, entry ▸ tokens.valid.2⟩, tokens.waiting, released,
      here.congr fun _ => Iff.rfl, entry ▸ total⟩
  · rw [result]
    have entry : (k.setSem other ⟨.used, (k.semtab other).scount + 1, queue⟩).semtab sem =
        k.semtab sem := Function.update_of_ne apart _ _
    refine ⟨⟨tokens.valid.1, ?_⟩, fun this point waiting => ?_, released, ?_, ?_⟩
    · rw [place_semtab, entry]
      exact tokens.valid.2
    · rcases eq_or_ne this first with rfl | away
      · rw [place_self] at waiting
        cases waiting
      · rw [place_of_ne away] at waiting
        exact tokens.waiting this point waiting
    · refine Released.place (here.congr fun _ => Iff.rfl) (fun point _ ready => ?_)
        (fun point takes ready => ?_)
      · rw [setSem_process, waits] at ready
        cases ready
      · cases ready
        exact disjoint _ (beside.waiting first place waits) takes
    · rw [place_semtab, entry]
      exact total

/-- The turns of `signaln` add as many grants. -/
theorem Tokens.signalnLoop (count : Nat) (tokens : Tokens k sem taking grants) (law : Law k) :
    Tokens (signalnLoop sem count k) sem taking (grants + count) ∧ Law (signalnLoop sem count k) := by
  induction count generalizing k grants with
  | zero => exact ⟨(Int.add_zero grants).symm ▸ tokens, law⟩
  | succ count inductionHypothesis =>
    obtain ⟨later, lawLater⟩ := inductionHypothesis (tokens.signal law) law.signal
    refine ⟨?_, lawLater⟩
    have sum : grants + 1 + (count : Int) = grants + ((count + 1 : Nat) : Int) := by
      push_cast
      lia
    exact sum ▸ later

theorem signaln_eq (valid : k.Valid sem) (count : Nat) : signaln k sem count = signalnLoop sem count k := by
  unfold signaln
  rw [if_neg, Int.toNat_natCast]
  simp [valid.1, valid.2]

theorem Tokens.signaln (tokens : Tokens k sem taking grants) (law : Law k) (count : Nat) :
    Tokens (signaln k sem count) sem taking (grants + count) ∧ Law (signaln k sem count) := by
  rw [signaln_eq tokens.valid]
  exact tokens.signalnLoop count law

/-- `signaln` of another semaphore. -/
theorem Tokens.signaln_other (tokens : Tokens k sem taking grants) (law : Law k)
    (beside : Tokens k other others more) (disjoint : ∀ point, others point → ¬ taking point)
    (apart : sem ≠ other) (count : Nat) : Tokens (Semaphores.signaln k other count) sem taking grants := by
  rw [signaln_eq beside.valid]
  induction count generalizing k more with
  | zero => exact tokens
  | succ count inductionHypothesis =>
    exact inductionHypothesis (tokens.signal_other law beside disjoint apart) law.signal
      (beside.signal law)

/-- `wait` goes through with a grant, or the process waits. -/
theorem Tokens.wait (tokens : Tokens k sem taking grants) (law : Law k) (takes : taking point)
    (awake : (k.process pid).Awake) (notReady : ∀ point, taking point → k.process pid ≠ .ready point) :
    (0 < grants ∧ ∃ kernel, Semaphores.wait k pid point sem = (.passed, kernel) ∧
      kernel.process = k.process ∧ Law kernel ∧ Tokens kernel sem taking (grants - 1)) ∨
    ∃ kernel, Semaphores.wait k pid point sem = (.blocked, kernel) ∧
      kernel.process = Function.update k.process pid (.waiting sem point) ∧ Law kernel ∧
      Tokens kernel sem taking grants := by
  have lawAfter : Law (Semaphores.wait k pid point sem).2 := law.wait awake
  obtain ⟨released, here, total⟩ := tokens.total
  obtain ⟨positive, result⟩ | ⟨low, result⟩ := @wait_cases _ k pid point sem tokens.valid
  · rw [result] at lawAfter
    refine Or.inl ⟨by omega, _, result, rfl, lawAfter, ⟨tokens.valid.1, ?_⟩, tokens.waiting, released,
      here.congr fun _ => Iff.rfl, ?_⟩
    · simp [tokens.valid.2]
    · rw [setSem_self]
      dsimp only
      lia
  · rw [result] at lawAfter
    refine Or.inr ⟨_, result, rfl, lawAfter, ⟨tokens.valid.1, by simp⟩, fun this place waiting => ?_,
      released, ?_, ?_⟩
    · rcases eq_or_ne this pid with rfl | apart
      · rw [place_self] at waiting
        cases waiting
        exact takes
      · rw [place_of_ne apart] at waiting
        exact tokens.waiting this place waiting
    · refine Released.place (here.congr fun _ => Iff.rfl) notReady fun _ _ ready => ?_
      cases ready
    · rw [place_semtab, setSem_self]
      dsimp only
      omega

/-- `wait` on another semaphore. -/
theorem Tokens.wait_other (tokens : Tokens k sem taking grants) (valid : k.Valid other)
    (apart : sem ≠ other) (notReady : ∀ point, taking point → k.process pid ≠ .ready point) :
    Tokens (Semaphores.wait k pid point other).2 sem taking grants := by
  obtain ⟨released, here, total⟩ := tokens.total
  obtain ⟨_, result⟩ | ⟨_, result⟩ := @wait_cases _ k pid point other valid
  · rw [result]
    have entry : (k.setSem other { k.semtab other with
        scount := (k.semtab other).scount - 1 }).semtab sem = k.semtab sem := Function.update_of_ne apart _ _
    exact ⟨⟨tokens.valid.1, entry ▸ tokens.valid.2⟩, tokens.waiting, released,
      here.congr fun _ => Iff.rfl, entry ▸ total⟩
  · rw [result]
    have entry : (k.setSem other ⟨.used, (k.semtab other).scount - 1,
        (k.semtab other).squeue ++ [pid]⟩).semtab sem = k.semtab sem := Function.update_of_ne apart _ _
    refine ⟨⟨tokens.valid.1, ?_⟩, fun this place waiting => ?_, released, ?_, ?_⟩
    · rw [place_semtab, entry]
      exact tokens.valid.2
    · rcases eq_or_ne this pid with rfl | away
      · rw [place_self] at waiting
        cases waiting
        exact absurd rfl apart
      · rw [place_of_ne away] at waiting
        exact tokens.waiting this place waiting
    · refine Released.place (here.congr fun _ => Iff.rfl) notReady fun _ _ ready => ?_
      cases ready
    · rw [place_semtab, entry]
      exact total

/-- A released process goes on with its grant. -/
theorem Tokens.goOn (tokens : Tokens k sem taking grants) (takes : taking point)
    (ready : k.process pid = .ready point) (later : ∀ point, taking point → process ≠ .ready point)
    (awake : process.Awake) : 0 < grants ∧ Tokens (k.place pid process) sem taking (grants - 1) := by
  obtain ⟨released, here, total⟩ := tokens.total
  have member : pid ∈ released := (here.2 pid).mpr ⟨point, takes, ready⟩
  have length := List.length_erase_of_mem member
  have some_ : 0 < released.length := List.length_pos_of_mem member
  refine ⟨by lia, tokens.valid, fun this place waiting => ?_, released.erase pid,
    here.leave member later, ?_⟩
  · rcases eq_or_ne this pid with rfl | apart
    · rw [place_self] at waiting
      exact absurd waiting (awake _ _)
    · rw [place_of_ne apart] at waiting
      exact tokens.waiting this place waiting
  · rw [place_semtab]
    lia

/-- A process moves that takes nothing, before or after. -/
theorem Tokens.place (tokens : Tokens k sem taking grants)
    (before : ∀ point, taking point → k.process pid ≠ .ready point)
    (later : ∀ point, taking point → process ≠ .ready point) (awake : process.Awake) :
    Tokens (k.place pid process) sem taking grants := by
  obtain ⟨released, here, total⟩ := tokens.total
  refine ⟨tokens.valid, fun this place waiting => ?_, released, here.place before later, total⟩
  rcases eq_or_ne this pid with rfl | apart
  · rw [place_self] at waiting
    exact absurd waiting (awake _ _)
  · rw [place_of_ne apart] at waiting
    exact tokens.waiting this place waiting

/-- The grants of a semaphore that was just made. -/
theorem Made.tokens {after : Kernel π} {count : Int} (made : Made k after sem count) (enough : 0 ≤ count)
    (nobody : ∀ pid point, taking point → after.process pid ≠ .ready point) :
    Tokens after sem taking count := by
  have entry : after.semtab sem = ⟨.used, count, []⟩ := by rw [made.semtab, Function.update_self]
  refine ⟨made.valid, fun pid point waits => ?_, [], ⟨List.nodup_nil, fun pid => ?_⟩, ?_⟩
  · have queued := (made.law.queued sem pid).mpr ⟨point, waits⟩
    rw [entry] at queued
    cases queued
  · simp only [List.not_mem_nil, false_iff, not_exists, not_and]
    exact fun point takes => nobody pid point takes
  · rw [entry, List.length_nil]
    dsimp only
    lia

theorem Made.apart {after : Kernel π} {count : Int} (made : Made k after other count) (valid : k.Valid sem) :
    sem ≠ other := by
  rintro rfl
  have used := valid.2
  rw [made.wasFree] at used
  cases used

/-- A semaphore is made beside another one. -/
theorem Made.keeps {after : Kernel π} {count : Int} (made : Made k after other count)
    (tokens : Tokens k sem taking grants) : Tokens after sem taking grants := by
  have entry : after.semtab sem = k.semtab sem := by
    rw [made.semtab, Function.update_of_ne (made.apart tokens.valid)]
  obtain ⟨released, here, total⟩ := tokens.total
  refine ⟨⟨tokens.valid.1, entry ▸ tokens.valid.2⟩, made.process ▸ tokens.waiting, released, ?_, entry ▸ total⟩
  exact here.congr fun pid => by rw [made.process]

/-- While nobody was released the grants are in the count. -/
theorem Tokens.counted (tokens : Tokens k sem taking grants)
    (nobody : ∀ pid point, taking point → k.process pid ≠ .ready point) :
    grants = max 0 (k.semtab sem).scount := by
  obtain ⟨released, ⟨_, isReady⟩, total⟩ := tokens.total
  have none_ : released = [] := by
    refine List.eq_nil_iff_forall_not_mem.mpr fun pid member => ?_
    obtain ⟨point, takes, ready⟩ := (isReady pid).mp member
    exact nobody pid point takes ready
  rw [none_, List.length_nil] at total
  lia

theorem Tokens.count_le (tokens : Tokens k sem taking grants) : max 0 (k.semtab sem).scount ≤ grants := by
  obtain ⟨released, _, total⟩ := tokens.total
  omega

/-- A process blocks or waits for want of grants. -/
theorem Tokens.none_of_blocked {after : Kernel π} (tokens : Tokens k sem taking grants)
    (nobody : ∀ pid point, taking point → k.process pid ≠ .ready point)
    (blocked : Semaphores.wait k pid point sem = (.blocked, after)) : grants = 0 := by
  have counted := tokens.counted nobody
  obtain ⟨_, result⟩ | ⟨low, _⟩ := @wait_cases _ k pid point sem tokens.valid
  · rw [result] at blocked
    cases blocked
  · lia

theorem Tokens.none_of_waiting (tokens : Tokens k sem taking grants) (law : Law k)
    (nobody : ∀ pid point, taking point → k.process pid ≠ .ready point)
    (waits : k.process pid = .waiting sem point) : grants = 0 := by
  have counted := tokens.counted nobody
  have length := law.count sem tokens.valid.2
  have member := List.length_pos_of_mem ((law.queued sem pid).mpr ⟨point, waits⟩)
  lia

/-- What `isbadsem` accepts is no error. -/
theorem ne_syserr_of_good (good : ¬ isbadsem sem = true) : sem ≠ syserr := by
  rintro rfl
  exact good rfl

end Grants

end Xinu.Semaphores
