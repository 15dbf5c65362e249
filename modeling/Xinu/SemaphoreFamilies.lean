import Xinu.SemaphoreTokens

/-!
# Families of semaphores

A table of objects, each with some semaphores of its own, is a family of semaphores: each member
that is kept has a number of grants, and the processes that wait for it are at points of their own.
Where `semcreate` failed a member has no semaphore, and no process comes through to its points.

Each call on the semaphore of one member changes the grants of that member and leaves the other
members alone.
-/

namespace Xinu.Semaphores

open Processes (isbadsem)

variable {π ι : Type}

/-- The grants of a semaphore that may not have been made. -/
def Granted (k : Kernel π) (sem : Int) (taking : π → Prop) (grants : Int) : Prop :=
  (sem = syserr ∧ ∀ pid point, taking point → k.process pid ≠ .ready point) ∨ Tokens k sem taking grants

/-- The kept members have semaphores and points of their own. -/
structure Family (k : Kernel π) (kept : ι → Prop) (sem : ι → Int) (taking : ι → π → Prop)
    (grants : ι → Int) : Prop where
  law : Law k
  granted : ∀ i, kept i → Granted k (sem i) (taking i) (grants i)
  apart : ∀ i j, kept i → kept j → sem i = sem j → sem i ≠ syserr → i = j
  exclusive : ∀ i j point, kept i → kept j → taking i point → taking j point → i = j

section Operations

variable {k after : Kernel π} {sem other count : Int} {taking others : π → Prop} {grants more : Int}
  {pid : Nat} {point : π} {process : Process π}

/-- What a semaphore grants depends on its entry and on the processes at its points. -/
theorem Granted.congr (granted : Granted k sem taking grants) (entry : after.semtab sem = k.semtab sem)
    (waiting : ∀ pid point, after.process pid = .waiting sem point → k.process pid = .waiting sem point)
    (ready : ∀ pid point, taking point →
      (after.process pid = .ready point ↔ k.process pid = .ready point)) :
    Granted after sem taking grants := by
  rcases granted with ⟨missing, nobody⟩ | tokens
  · exact Or.inl ⟨missing, fun pid point takes here => nobody pid point takes ((ready pid point takes).mp here)⟩
  · obtain ⟨released, here, total⟩ := tokens.total
    refine Or.inr ⟨⟨tokens.valid.1, entry ▸ tokens.valid.2⟩,
      fun pid point waits => tokens.waiting pid point (waiting pid point waits), released,
      here.congr fun pid => ?_, entry ▸ total⟩
    exact exists_congr fun point => and_congr_right fun takes => ready pid point takes

theorem syserr_invalid : ¬ k.Valid syserr := by
  rintro ⟨good, _⟩
  cases good

theorem signal_syserr : signal k syserr = (false, k) := signal_refused syserr_invalid

theorem semreset_syserr : semreset k syserr count = (false, k) := by
  unfold semreset
  exact if_pos (Or.inr (Or.inl rfl))

theorem semdelete_syserr : semdelete k syserr = (false, k) := by
  unfold semdelete
  rw [if_pos (by decide)]

/-- What changes when processes are made ready from the queue of one semaphore. -/
structure Frees (k after : Kernel π) (sem : Int) : Prop where
  semtab : ∀ other, other ≠ sem → after.semtab other = k.semtab other
  process : ∀ pid, after.process pid = k.process pid ∨
    ∃ point, k.process pid = .waiting sem point ∧ after.process pid = .ready point

/-- Another semaphore grants as before. -/
theorem Frees.granted (frees : Frees k after other) (granted : Granted k sem taking grants)
    (beside : ∀ pid point, k.process pid = .waiting other point → ¬ taking point) (apart : sem ≠ other) :
    Granted after sem taking grants := by
  have ready : ∀ pid point, taking point →
      (after.process pid = .ready point ↔ k.process pid = .ready point) := by
    intro pid point takes
    rcases frees.process pid with same | ⟨place, waits, released⟩
    · rw [same]
    · rw [waits, released]
      refine iff_of_false (fun here => ?_) (by simp)
      cases here
      exact beside pid point waits takes
  refine granted.congr (frees.semtab sem apart) (fun pid point waits => ?_) ready
  rcases frees.process pid with same | ⟨place, _, released⟩
  · exact same ▸ waits
  · rw [released] at waits
    cases waits

/-- The processes of a queue or of a part of it are made ready. -/
theorem release_frees (law : Law k) {queue : List Nat} (inside : ∀ pid ∈ queue, pid ∈ (k.semtab sem).squeue)
    (entry : Sentry) : Frees k ((k.release queue).setSem sem entry) sem := by
  refine ⟨fun other apart => Function.update_of_ne apart _ _, fun pid => ?_⟩
  rw [setSem_process]
  unfold Kernel.release
  dsimp only
  split
  case isTrue member =>
    obtain ⟨point, waits⟩ := (law.queued sem pid).mp (inside pid member)
    exact Or.inr ⟨point, waits, by rw [waits]; rfl⟩
  case isFalse => exact Or.inl rfl

theorem signal_frees (law : Law k) (valid : k.Valid sem) : Frees k (signal k sem).2 sem := by
  obtain ⟨_, result⟩ | ⟨_, first, place, queue, isQueue, waits, result⟩ := signal_cases law valid
  · rw [result]
    exact ⟨fun other apart => Function.update_of_ne apart _ _, fun pid => Or.inl rfl⟩
  · rw [result]
    refine ⟨fun other apart => Function.update_of_ne apart _ _, fun pid => ?_⟩
    rcases eq_or_ne pid first with rfl | apart
    · exact Or.inr ⟨place, waits, place_self _⟩
    · exact Or.inl (place_of_ne apart _)

theorem semreset_frees (law : Law k) (valid : k.Valid sem) (enough : 0 ≤ count) :
    Frees k (semreset k sem count).2 sem := by
  rw [semreset_valid valid enough]
  exact release_frees law (fun _ => id) _

theorem semdelete_frees (law : Law k) (valid : k.Valid sem) : Frees k (semdelete k sem).2 sem := by
  rw [semdelete_valid law valid]
  exact release_frees law (fun _ => id) _

theorem release_stays (k : Kernel π) (queue : List Nat) (pid : Nat) :
    Stays (k.process pid) ((k.release queue).process pid) := by
  unfold Kernel.release
  dsimp only
  split
  · exact Or.inr rfl
  · exact Or.inl rfl

theorem semreset_stays (k : Kernel π) (sem count : Int) (pid : Nat) :
    Stays (k.process pid) ((semreset k sem count).2.process pid) := by
  unfold semreset
  split
  · exact Or.inl rfl
  · exact release_stays k _ pid

theorem semdelete_stays (k : Kernel π) (sem : Int) (pid : Nat) :
    Stays (k.process pid) ((semdelete k sem).2.process pid) := by
  unfold semdelete
  split
  · exact Or.inl rfl
  · dsimp only
    split
    · exact Or.inl rfl
    · exact release_stays k _ pid

/-- The processes at a point after a release were there before. -/
theorem release_ready {queue : List Nat} (ready : (k.release queue).process pid = .ready point) :
    k.process pid = .ready point ∨ (pid ∈ queue ∧ ∃ sem, k.process pid = .waiting sem point) := by
  unfold Kernel.release at ready
  dsimp only at ready
  split at ready
  case isTrue member =>
    cases here : k.process pid with
    | idle =>
      rw [here] at ready
      cases ready
    | waiting sem place =>
      rw [here] at ready
      cases ready
      exact Or.inr ⟨member, sem, rfl⟩
    | ready place =>
      rw [here] at ready
      exact Or.inl ready
  case isFalse => exact Or.inl ready

/-- A semaphore that is reset grants its new count, if nobody is at the points that count from now
on. -/
theorem Tokens.semreset (tokens : Tokens k sem taking grants) (enough : 0 ≤ count) (law : Law k)
    (nobody : ∀ pid point, others point → (k.process pid).point ≠ some point) :
    Tokens (semreset k sem count).2 sem others count := by
  rw [semreset_valid tokens.valid enough]
  have noReady : ∀ pid point, others point →
      (k.release (k.semtab sem).squeue).process pid ≠ .ready point := by
    intro pid point takes ready
    rcases release_ready ready with already | ⟨_, other, waits⟩
    · exact nobody pid point takes (by rw [already]; rfl)
    · exact nobody pid point takes (by rw [waits]; rfl)
  refine ⟨⟨tokens.valid.1, by simp⟩, fun pid point waits => ?_, [], ⟨List.nodup_nil, fun pid => ?_⟩, ?_⟩
  · have lawAfter := law.semreset tokens.valid enough
    rw [semreset_valid tokens.valid enough] at lawAfter
    have queued := (lawAfter.queued sem pid).mpr ⟨point, waits⟩
    rw [setSem_self] at queued
    cases queued
  · simp only [List.not_mem_nil, false_iff, not_exists, not_and]
    exact fun point takes => noReady pid point takes
  · rw [setSem_self, List.length_nil]
    dsimp only
    omega

end Operations

section Members

variable {k after : Kernel π} {kept : ι → Prop} {sem : ι → Int} {taking : ι → π → Prop} {grants : ι → Int}
  {i : ι} {pid : Nat} {point : π} {process : Process π} {count : Int}

/-- Only what belongs to the kept members matters. -/
theorem Family.congr (family : Family k kept sem taking grants) {kept' : ι → Prop} {sem' : ι → Int}
    {taking' : ι → π → Prop} {grants' : ι → Int} (fewer : ∀ i, kept' i → kept i)
    (sems : ∀ i, kept' i → sem' i = sem i) (points : ∀ i, kept' i → taking' i = taking i)
    (numbers : ∀ i, kept' i → sem i ≠ syserr → grants' i = grants i) :
    Family k kept' sem' taking' grants' := by
  refine ⟨family.law, fun i keeps => ?_, fun i j left right => ?_, fun i j point left right => ?_⟩
  · rw [sems i keeps, points i keeps]
    rcases family.granted i (fewer i keeps) with missing | tokens
    · exact Or.inl missing
    · have good : sem i ≠ syserr := fun same => syserr_invalid (same ▸ tokens.valid)
      exact Or.inr (numbers i keeps good ▸ tokens)
  · rw [sems i left, sems j right]
    exact family.apart i j (fewer i left) (fewer j right)
  · rw [points i left, points j right]
    exact family.exclusive i j point (fewer i left) (fewer j right)

/-- The points of other members. -/
theorem Family.others (family : Family k kept sem taking grants) (keeps : kept i) {j : ι}
    (keepsOther : kept j) (apart : j ≠ i) (point : π) (takes : taking i point) : ¬ taking j point :=
  fun takesOther => apart (family.exclusive j i point keepsOther keeps takesOther takes)

/-- The members beside the one whose processes are made ready. -/
theorem Family.elsewhere (family : Family k kept sem taking grants) (keeps : kept i) {number : Int}
    (tokens : Tokens k (sem i) (taking i) number) (frees : Frees k after (sem i)) {j : ι}
    (keepsOther : kept j) (apart : j ≠ i) : Granted after (sem j) (taking j) (grants j) := by
  rcases family.granted j keepsOther with ⟨missing, nobody⟩ | beside
  · refine frees.granted (Or.inl ⟨missing, nobody⟩) (fun pid point waits => ?_) ?_
    · exact family.others keeps keepsOther apart point (tokens.waiting pid point waits)
    · exact fun same => syserr_invalid (missing ▸ same ▸ tokens.valid)
  · refine frees.granted (Or.inr beside) (fun pid point waits => ?_) ?_
    · exact family.others keeps keepsOther apart point (tokens.waiting pid point waits)
    · intro same
      refine apart (family.apart j i keepsOther keeps same ?_)
      exact fun isError => syserr_invalid (isError ▸ beside.valid)

/-- A process that changes its place takes nothing there, before or after, and waits for no other member. -/
theorem Family.aside (family : Family k kept sem taking grants) (keeps : kept i)
    (entry : after.semtab (sem i) = k.semtab (sem i))
    (moved : ∀ other, other ≠ pid → after.process other = k.process other)
    (before : ∀ point, taking i point → k.process pid ≠ .ready point)
    (later : ∀ point, taking i point → after.process pid ≠ .ready point)
    (awake : ∀ point, after.process pid ≠ .waiting (sem i) point) :
    Granted after (sem i) (taking i) (grants i) := by
  refine (family.granted i keeps).congr entry (fun other point waits => ?_) fun other point takes => ?_
  · rcases eq_or_ne other pid with rfl | apart
    · exact absurd waits (awake point)
    · exact moved other apart ▸ waits
  · rcases eq_or_ne other pid with rfl | apart
    · exact iff_of_false (later point takes) (before point takes)
    · rw [moved other apart]

/-- A process moves that takes nothing, before or after. -/
theorem Family.place (family : Family k kept sem taking grants) (wasAwake : (k.process pid).Awake)
    (awake : process.Awake) (before : ∀ i point, kept i → taking i point → k.process pid ≠ .ready point)
    (later : ∀ i point, kept i → taking i point → process ≠ .ready point) :
    Family (k.place pid process) kept sem taking grants := by
  refine ⟨family.law.place wasAwake awake, fun i keeps => ?_, family.apart, family.exclusive⟩
  refine family.aside keeps rfl (fun other apart => place_of_ne apart _)
    (fun point => before i point keeps) (fun point takes => ?_) fun point => ?_
  · rw [place_self]
    exact later i point keeps takes
  · rw [place_self]
    exact awake _ point

/-- `semdelete` of a member, which is not kept then. -/
theorem Family.semdelete (family : Family k kept sem taking grants) (keeps : kept i) :
    Family (Semaphores.semdelete k (sem i)).2 (fun j => kept j ∧ j ≠ i) sem taking grants := by
  have fewer : ∀ after, Law after → (∀ j, kept j → j ≠ i → Granted after (sem j) (taking j) (grants j)) →
      Family after (fun j => kept j ∧ j ≠ i) sem taking grants := fun after law granted =>
    ⟨law, fun j keepsOther => granted j keepsOther.1 keepsOther.2,
      fun j l left right => family.apart j l left.1 right.1,
      fun j l point left right => family.exclusive j l point left.1 right.1⟩
  rcases family.granted i keeps with ⟨missing, _⟩ | tokens
  · rw [missing, semdelete_syserr]
    exact fewer k family.law fun j keepsOther _ => family.granted j keepsOther
  · exact fewer _ (family.law.semdelete tokens.valid)
      fun j => family.elsewhere keeps tokens (semdelete_frees family.law tokens.valid)

section Updates

variable [DecidableEq ι]

/-- One member changes its grants, the others keep theirs. -/
theorem Family.change (family : Family k kept sem taking grants) (law : Law after) {number : Int}
    (here : Granted after (sem i) (taking i) number)
    (elsewhere : ∀ j, kept j → j ≠ i → Granted after (sem j) (taking j) (grants j)) :
    Family after kept sem taking (Function.update grants i number) := by
  refine ⟨law, fun j keeps => ?_, family.apart, family.exclusive⟩
  rcases eq_or_ne j i with rfl | apart
  · rw [Function.update_self]
    exact here
  · rw [Function.update_of_ne apart]
    exact elsewhere j keeps apart

/-- `signal`. -/
theorem Family.signal (family : Family k kept sem taking grants) (keeps : kept i) :
    Family (signal k (sem i)).2 kept sem taking (Function.update grants i (grants i + 1)) := by
  rcases family.granted i keeps with ⟨missing, nobody⟩ | tokens
  · rw [missing, signal_syserr]
    exact family.change family.law (Or.inl ⟨missing, nobody⟩) fun j keepsOther _ => family.granted j keepsOther
  · exact family.change family.law.signal (Or.inr (tokens.signal family.law))
      fun j => family.elsewhere keeps tokens (signal_frees family.law tokens.valid)

/-- `wait`. -/
theorem Family.wait (family : Family k kept sem taking grants) (keeps : kept i) (takes : taking i point)
    (awake : (k.process pid).Awake)
    (notReady : ∀ i point, kept i → taking i point → k.process pid ≠ .ready point) :
    (sem i = syserr ∧ Semaphores.wait k pid point (sem i) = (.refused, k)) ∨
    (0 < grants i ∧ ∃ kernel, Semaphores.wait k pid point (sem i) = (.passed, kernel) ∧
      kernel.process = k.process ∧ Family kernel kept sem taking (Function.update grants i (grants i - 1))) ∨
    ∃ kernel, Semaphores.wait k pid point (sem i) = (.blocked, kernel) ∧
      kernel.process = Function.update k.process pid (.waiting (sem i) point) ∧
      Family kernel kept sem taking grants := by
  rcases family.granted i keeps with ⟨missing, nobody⟩ | tokens
  · refine Or.inl ⟨missing, ?_⟩
    rw [missing]
    exact wait_refused syserr_invalid
  have good : sem i ≠ syserr := fun isError => syserr_invalid (isError ▸ tokens.valid)
  have entries : ∀ j, kept j → j ≠ i →
      (Semaphores.wait k pid point (sem i)).2.semtab (sem j) = k.semtab (sem j) := by
    intro j keepsOther apart
    have different : sem j ≠ sem i := fun same =>
      apart (family.apart i j keeps keepsOther same.symm good).symm
    obtain ⟨_, result⟩ | ⟨_, result⟩ := @wait_cases _ k pid point _ tokens.valid
    · rw [result]
      exact Function.update_of_ne different _ _
    · rw [result]
      exact Function.update_of_ne different _ _
  rcases tokens.wait family.law takes awake (fun point => notReady i point keeps) with
    ⟨some_, kernel, passed, same, law, after⟩ | ⟨kernel, blocked, moved, law, after⟩
  · refine Or.inr (Or.inl ⟨some_, kernel, passed, same, family.change law (Or.inr after) ?_⟩)
    intro j keepsOther apart
    have entry := entries j keepsOther apart
    rw [passed] at entry
    exact (family.granted j keepsOther).congr entry (by simp [same]) (by simp [same])
  · refine Or.inr (Or.inr ⟨kernel, blocked, moved, ?_⟩)
    have changed : Family kernel kept sem taking (Function.update grants i (grants i)) := by
      refine family.change law (Or.inr after) fun j keepsOther apart => ?_
      have entry := entries j keepsOther apart
      rw [blocked] at entry
      have different : sem i ≠ sem j := fun same => apart (family.apart i j keeps keepsOther same good).symm
      refine @Family.aside _ _ _ _ _ _ _ _ _ pid family keepsOther entry (fun other away => ?_)
        (fun point => notReady j point keepsOther) (fun point _ => ?_) fun point => ?_
      · rw [moved, Function.update_of_ne away]
      · rw [moved, Function.update_self]
        simp
      · rw [moved, Function.update_self]
        simp [different]
    rwa [Function.update_eq_self] at changed

/-- A process that came through goes on. -/
theorem Family.goOn (family : Family k kept sem taking grants) (keeps : kept i) (takes : taking i point)
    (ready : k.process pid = .ready point) (awake : process.Awake)
    (later : ∀ i point, kept i → taking i point → process ≠ .ready point) :
    sem i ≠ syserr ∧ 0 < grants i ∧
      Family (k.place pid process) kept sem taking (Function.update grants i (grants i - 1)) := by
  rcases family.granted i keeps with ⟨missing, nobody⟩ | tokens
  · exact absurd ready (nobody pid point takes)
  · obtain ⟨some_, after⟩ := tokens.goOn takes ready (fun point => later i point keeps) awake
    refine ⟨fun isError => syserr_invalid (isError ▸ tokens.valid), some_, ?_⟩
    refine family.change (family.law.place (by simp [ready]) awake) (Or.inr after) fun j keepsOther apart => ?_
    refine family.aside keepsOther rfl (fun other away => place_of_ne away _) (fun place takesOther here => ?_)
      (fun place takesOther => ?_) fun place => ?_
    · rw [ready] at here
      cases here
      exact family.others keeps keepsOther apart _ takes takesOther
    · rw [place_self]
      exact later j place keepsOther takesOther
    · rw [place_self]
      exact awake _ place

/-- `semreset` of a member whose processes are at new points from now on. -/
theorem Family.semreset (family : Family k kept sem taking grants) (keeps : kept i) (enough : 0 ≤ count)
    {points : π → Prop} (nobody : ∀ pid point, points point → (k.process pid).point ≠ some point)
    (exclusive : ∀ j point, kept j → taking j point → points point → j = i) :
    Family (Semaphores.semreset k (sem i) count).2 kept sem (Function.update taking i points)
      (Function.update grants i count) := by
  have distinct : ∀ j l point, kept j → kept l → Function.update taking i points j point →
      Function.update taking i points l point → j = l := by
    intro j l point left right first second
    rcases eq_or_ne j i with rfl | apart
    · rcases eq_or_ne l j with rfl | away
      · rfl
      · rw [Function.update_self] at first
        rw [Function.update_of_ne away] at second
        exact (exclusive l point right second first).symm
    · rw [Function.update_of_ne apart] at first
      rcases eq_or_ne l i with rfl | away
      · rw [Function.update_self] at second
        exact exclusive j point left first second
      · rw [Function.update_of_ne away] at second
        exact family.exclusive j l point left right first second
  rcases family.granted i keeps with ⟨missing, _⟩ | tokens
  · rw [missing, semreset_syserr]
    refine ⟨family.law, fun j keepsOther => ?_, family.apart, distinct⟩
    rcases eq_or_ne j i with rfl | apart
    · rw [Function.update_self, Function.update_self]
      exact Or.inl ⟨missing, fun pid point takes here => nobody pid point takes (by rw [here]; rfl)⟩
    · rw [Function.update_of_ne apart, Function.update_of_ne apart]
      exact family.granted j keepsOther
  · refine ⟨family.law.semreset tokens.valid enough, fun j keepsOther => ?_, family.apart, distinct⟩
    rcases eq_or_ne j i with rfl | apart
    · rw [Function.update_self, Function.update_self]
      exact Or.inr (tokens.semreset enough family.law nobody)
    · rw [Function.update_of_ne apart, Function.update_of_ne apart]
      exact family.elsewhere keeps tokens (semreset_frees family.law tokens.valid enough) keepsOther apart

/-- `semcreate` for a new member, to whose points no process has come. -/
theorem Family.semcreate (family : Family k kept sem taking grants) (fresh : ¬ kept i) (enough : 0 ≤ count)
    {points : π → Prop} (nobody : ∀ pid point, points point → (k.process pid).point ≠ some point)
    (exclusive : ∀ j point, kept j → taking j point → ¬ points point) :
    (Semaphores.semcreate k count).2.process = k.process ∧
    Family (Semaphores.semcreate k count).2 (fun j => kept j ∨ j = i)
      (Function.update sem i (Semaphores.semcreate k count).1) (Function.update taking i points)
      (Function.update grants i count) := by
  obtain ⟨_, process, found⟩ := semcreate_cases family.law enough
  have members : ∀ j, kept j → j ≠ i := fun j keeps same => fresh (same ▸ keeps)
  -- The new semaphore is none of those that are kept.
  have different : ∀ j, kept j → (Semaphores.semcreate k count).1 ≠ syserr →
      sem j ≠ (Semaphores.semcreate k count).1 := by
    intro j keeps success
    rcases family.granted j keeps with ⟨missing, _⟩ | tokens
    · exact missing ▸ success.symm
    · exact (family.law.made enough success).apart tokens.valid
  have entries : ∀ j, kept j → (Semaphores.semcreate k count).2.semtab (sem j) = k.semtab (sem j) := by
    intro j keeps
    rcases found with ⟨_, same⟩ | ⟨new, isNew, good, _, semtab⟩
    · rw [same]
    · have success : (Semaphores.semcreate k count).1 ≠ syserr :=
        isNew ▸ ne_syserr_of_good (by simp [good])
      rw [semtab, Function.update_of_ne (isNew ▸ different j keeps success)]
  refine ⟨process, family.law.semcreate count, fun j keeps => ?_, fun j l left right => ?_,
    fun j l point left right => ?_⟩
  · rcases eq_or_ne j i with rfl | apart
    · rw [Function.update_self, Function.update_self, Function.update_self]
      have nobodyReady : ∀ pid point, points point →
          (Semaphores.semcreate k count).2.process pid ≠ .ready point := by
        intro pid point takes ready
        rw [process] at ready
        exact nobody pid point takes (by rw [ready]; rfl)
      by_cases failed : (Semaphores.semcreate k count).1 = syserr
      · exact Or.inl ⟨failed, nobodyReady⟩
      · exact Or.inr ((family.law.made enough failed).tokens enough nobodyReady)
    · have keepsOld : kept j := keeps.resolve_right apart
      rw [Function.update_of_ne apart, Function.update_of_ne apart, Function.update_of_ne apart]
      exact (family.granted j keepsOld).congr (entries j keepsOld) (by simp [process]) (by simp [process])
  · rcases eq_or_ne j i with rfl | apart
    · rcases eq_or_ne l j with rfl | away
      · exact fun _ _ => rfl
      · rw [Function.update_self, Function.update_of_ne away]
        exact fun same good => absurd same.symm (different l (right.resolve_right away) good)
    · rw [Function.update_of_ne apart]
      rcases eq_or_ne l i with rfl | away
      · rw [Function.update_self]
        exact fun same good => absurd same (different j (left.resolve_right apart) (same ▸ good))
      · rw [Function.update_of_ne away]
        exact family.apart j l (left.resolve_right apart) (right.resolve_right away)
  · rcases eq_or_ne j i with rfl | apart
    · rcases eq_or_ne l j with rfl | away
      · exact fun _ _ => rfl
      · rw [Function.update_self, Function.update_of_ne away]
        exact fun first second => absurd first (exclusive l point (right.resolve_right away) second)
    · rw [Function.update_of_ne apart]
      rcases eq_or_ne l i with rfl | away
      · rw [Function.update_self]
        exact fun first second => absurd second (exclusive j point (left.resolve_right apart) first)
      · rw [Function.update_of_ne away]
        exact family.exclusive j l point (left.resolve_right apart) (right.resolve_right away)

end Updates

end Members

end Xinu.Semaphores
