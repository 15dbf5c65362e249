import Xinu.LocalRuns
import Xinu.RunConditions

/-!
# Concurrent opens of local files

`lfsopen` looks for a free pseudo-device and for the name among the open files before it waits for the mutex
of the directory. While it waits, and while it reads the directory, other processes open and close files. The
opens stay exclusive just when the pseudo-device that an open claims is still free then, and its name is
still not open.
-/

namespace Xinu.ConcurrentOpens

open LocalFiles Runs

section Source

/-- `lfsopen` up to its `wait`: the bits of the mode, and the pseudo-device that the search has found. -/
def searchOpen (s : System) (name mode : CString) : Option (Mbits × Nat) :=
  if lfNameLen ≤ name.chars.length then none
  else (lfgetmode mode).bind fun mbits =>
    (searchDevices s.lfltab name.chars (List.range nlfl) none).join.map fun lfnext => (mbits, lfnext)

/-- `lfsopen` behind its `wait`. -/
def claimOpen (s : System) (name : CString) (mbits : Mbits) (lfnext : Nat) : Int × System :=
  match openEntry s name.chars mbits with
  | (none, s) => (syserr, s)
  | (some entry, s) => ((lfile0 + lfnext : Nat), s.setFile lfnext ((s.lfltab lfnext).opened entry name.chars))

/-- `lflclose` behind its `wait`, for a file that is open. -/
def closeFile (s : System) (minor : Nat) : System :=
  let file := s.lfltab minor
  let s := if s.lfDirdirty ∨ file.lfdbdirty ∨ file.lfibdirty then lfflush s minor else s
  s.setFile minor { s.lfltab minor with lfused := false }

/-- Where a process is in its call: in `lfsopen` at the `wait` or behind it, where the directory may have to be
read, and in `lflclose` at the `wait` or behind it, where the blocks are written. -/
inductive At
  | outside
  | waiting (name : CString) (mbits : Mbits) (lfnext : Nat)
  | inside (name : CString) (mbits : Mbits) (lfnext : Nat)
  | closing (minor : Nat)
  | flushing (minor : Nat)

/-- The file system, the processes that have its mutexes, the places of all processes, and the pseudo-devices
of the opens that have not been closed. -/
structure State where
  files : System
  lfMutex : Option Nat
  lfmutex : Nat → Option Nat
  at_ : Nat → At
  opens : List Nat

/-- What a process does next. Which of the waiting processes gets a mutex is left open. -/
inductive Action
  | open (pid : Nat) (name mode : CString)
  | enter (pid : Nat)
  | readFails (pid : Nat)
  | claim (pid : Nat)
  | close (pid minor : Nat)
  | enterFile (pid : Nat)
  | finishClose (pid : Nat)

def State.move (s : State) (pid : Nat) (place : At) : State := { s with at_ := Function.update s.at_ pid place }

/-- One step, with the value of a call that returns. -/
def step (s : State) : Action → Option (Option Int × State)
  | .open pid name mode =>
    match s.at_ pid, searchOpen s.files name mode with
    | .outside, none => some (some syserr, s)
    | .outside, some (mbits, lfnext) => some (none, s.move pid (.waiting name mbits lfnext))
    | _, _ => none
  | .enter pid =>
    match s.at_ pid, s.lfMutex with
    | .waiting name mbits lfnext, none =>
      some (none, { s.move pid (.inside name mbits lfnext) with lfMutex := some pid })
    | _, _ => none
  | .readFails pid =>
    match s.at_ pid, s.files.lfDirpresent with
    | .inside _ _ _, false => some (some syserr, { s.move pid .outside with lfMutex := none })
    | _, _ => none
  | .claim pid =>
    match s.at_ pid with
    | .inside name mbits lfnext =>
      let claimed := claimOpen s.files name mbits lfnext
      let opens := if claimed.1 = syserr then s.opens else lfnext :: s.opens
      some (some claimed.1, { s.move pid .outside with files := claimed.2, lfMutex := none, opens := opens })
    | _ => none
  | .close pid minor =>
    match s.at_ pid with
    | .outside => if minor < nlfl then some (none, s.move pid (.closing minor)) else none
    | _ => none
  | .enterFile pid =>
    match s.at_ pid with
    | .closing minor =>
      if s.lfmutex minor = none then
        if (s.files.lfltab minor).lfused = false then some (some syserr, s.move pid .outside)
        else some (none, { s.move pid (.flushing minor) with lfmutex := Function.update s.lfmutex minor (some pid) })
      else none
    | _ => none
  | .finishClose pid =>
    match s.at_ pid with
    | .flushing minor =>
      some (some ok, { s.move pid .outside with
        files := closeFile s.files minor
        lfmutex := Function.update s.lfmutex minor none
        opens := s.opens.erase minor })
    | _ => none

/-- A new file system, where no process is in a call. -/
def start (disk : Disk) : State := ⟨lfsinit disk, none, fun _ => none, fun _ => .outside, []⟩

end Source

section Exclusion

def Used (s : System) (i : Nat) : Prop := (s.lfltab i).lfused = true

/-- A pseudo-device has a name. -/
def Named (s : System) (i : Nat) (name : CString) : Prop := sameName name.chars (s.lfltab i).lfname 0 = true

/-- No two opens have the same pseudo-device, and no name is open on two pseudo-devices. -/
structure Exclusive (s : State) : Prop where
  devices : s.opens.Nodup
  names : ∀ i j name, i < nlfl → j < nlfl → Used s.files i → Used s.files j → Named s.files i name →
    Named s.files j name → i = j

instance (s : System) (i : Nat) : Decidable (Used s i) := inferInstanceAs (Decidable ((s.lfltab i).lfused = true))

instance (s : System) (i : Nat) (name : CString) : Decidable (Named s i name) :=
  inferInstanceAs (Decidable (sameName name.chars (s.lfltab i).lfname 0 = true))

/-- An open that succeeds from some place claims a pseudo-device that is free, and a name that is not open. -/
def Fresh (s : System) : At → Prop
  | .inside name mbits lfnext => (openEntry s name.chars mbits).1 = none ∨
      ¬ Used s lfnext ∧ ∀ i < nlfl, Used s i → ¬ Named s i name
  | .outside | .waiting _ _ _ | .closing _ | .flushing _ => True

instance (s : System) (place : At) : Decidable (Fresh s place) :=
  match place with
  | .inside name mbits lfnext => inferInstanceAs (Decidable ((openEntry s name.chars mbits).1 = none ∨
      ¬ Used s lfnext ∧ ∀ i < nlfl, Used s i → ¬ Named s i name))
  | .outside | .waiting _ _ _ | .closing _ | .flushing _ => .isTrue trivial

/-- Between its search and its claim an open was not disturbed by another one. -/
def Undisturbed (s : State) : Action → Prop
  | .claim pid => Fresh s.files (s.at_ pid)
  | .open _ _ _ | .enter _ | .readFails _ | .close _ _ | .enterFile _ | .finishClose _ => True

instance (s : State) (action : Action) : Decidable (Undisturbed s action) :=
  match action with
  | .claim pid => inferInstanceAs (Decidable (Fresh s.files (s.at_ pid)))
  | .open _ _ _ | .enter _ | .readFails _ | .close _ _ | .enterFile _ | .finishClose _ => .isTrue trivial

/-- The opens have the pseudo-devices that are used, and a search has found a pseudo-device. -/
structure Law (s : State) : Prop where
  exclusive : Exclusive s
  used : ∀ i, i ∈ s.opens ↔ Used s.files i
  found : ∀ pid name mbits lfnext,
    s.at_ pid = .waiting name mbits lfnext ∨ s.at_ pid = .inside name mbits lfnext → lfnext < nlfl

end Exclusion

section Calls

variable {s : System} {name mode : CString} {mbits : Mbits} {lfnext entry minor i : Nat}

/-- The two parts of an open are the whole of it, where nothing happens between them. -/
theorem lfsopen_eq : lfsopen s name mode =
    (searchOpen s name mode).elim (syserr, s) fun found => claimOpen s name found.1 found.2 := by
  unfold lfsopen searchOpen
  split
  · rfl
  · cases lfgetmode mode with
    | none => rfl
    | some mbits =>
      dsimp only [Option.bind_some]
      rcases searchDevices s.lfltab name.chars (List.range nlfl) none with _ | _ | lfnext
      · rfl
      · rfl
      · rfl

theorem lflclose_eq (used : Used s minor) : lflclose s minor = (ok, closeFile s minor) := by
  have notFree : ¬ (s.lfltab minor).lfused = false := by
    rw [show (s.lfltab minor).lfused = true from used]
    decide
  unfold lflclose
  dsimp only
  rw [if_neg notFree]
  rfl

theorem searchOpen_lt (isFound : searchOpen s name mode = some (mbits, lfnext)) : lfnext < nlfl := by
  unfold searchOpen at isFound
  split at isFound
  · cases isFound
  · obtain ⟨bits, _, isFound⟩ := Option.bind_eq_some_iff.mp isFound
    obtain ⟨next, isNext, same⟩ := Option.map_eq_some_iff.mp isFound
    cases same
    rw [Option.join_eq_some_iff, searchDevices_eq] at isNext
    split at isNext
    · cases isNext
    · rw [Option.none_or] at isNext
      exact List.mem_range.mp (List.mem_of_find?_eq_some (Option.some.inj isNext))

theorem openEntry_lfltab : (openEntry s name.chars mbits).2.lfltab = s.lfltab := by
  unfold openEntry
  dsimp only
  split
  · split
    · split <;> rfl
    · split
      · split <;> rfl
      · split <;> rfl
  · split
    · split <;> rfl
    · split <;> rfl

theorem claimOpen_none (isNone : (openEntry s name.chars mbits).1 = none) :
    (claimOpen s name mbits lfnext).1 = syserr ∧ (claimOpen s name mbits lfnext).2.lfltab = s.lfltab := by
  have table := @openEntry_lfltab s name mbits
  unfold claimOpen
  revert isNone table
  rcases openEntry s name.chars mbits with ⟨entry, after⟩
  rintro rfl table
  exact ⟨rfl, table⟩

theorem claimOpen_some (isSome : (openEntry s name.chars mbits).1 ≠ none) :
    (claimOpen s name mbits lfnext).1 ≠ syserr ∧ ∃ entry, (claimOpen s name mbits lfnext).2.lfltab =
      Function.update s.lfltab lfnext ((s.lfltab lfnext).opened entry name.chars) := by
  have table := @openEntry_lfltab s name mbits
  unfold claimOpen
  revert isSome table
  rcases openEntry s name.chars mbits with ⟨entry, after⟩
  intro isSome table
  cases entry with
  | none => exact absurd rfl isSome
  | some entry =>
    refine ⟨fun isError => ?_, entry, ?_⟩
    · dsimp only at isError
      unfold syserr at isError
      omega
    · dsimp only [System.setFile]
      dsimp only at table
      rw [table]

theorem lfflush_state : ((lfflush s minor).lfltab i).lfused = (s.lfltab i).lfused ∧
    ((lfflush s minor).lfltab i).lfname = (s.lfltab i).lfname := by
  cases isUsed : (s.lfltab minor).lfused with
  | false =>
    unfold lfflush
    dsimp only
    rw [if_pos isUsed]
    exact ⟨rfl, rfl⟩
  | true =>
    rw [lfflush_eq isUsed]
    dsimp only
    by_cases same : i = minor
    · subst same
      rw [Function.update_self]
      exact ⟨rfl, rfl⟩
    · rw [Function.update_of_ne same]
      exact ⟨rfl, rfl⟩

/-- A close frees its pseudo-device, and leaves the others and all names as they are. -/
theorem closeFile_state : (Used (closeFile s minor) i ↔ i ≠ minor ∧ Used s i) ∧
    ((closeFile s minor).lfltab i).lfname = (s.lfltab i).lfname := by
  obtain ⟨flushed, isFlushed, kept⟩ : ∃ flushed : System,
      closeFile s minor = flushed.setFile minor { flushed.lfltab minor with lfused := false } ∧
        ∀ i, (flushed.lfltab i).lfused = (s.lfltab i).lfused ∧ (flushed.lfltab i).lfname = (s.lfltab i).lfname := by
    by_cases dirty : s.lfDirdirty ∨ (s.lfltab minor).lfdbdirty ∨ (s.lfltab minor).lfibdirty
    · refine ⟨lfflush s minor, ?_, fun i => lfflush_state⟩
      unfold closeFile
      dsimp only
      rw [if_pos dirty]
    · refine ⟨s, ?_, fun i => ⟨rfl, rfl⟩⟩
      unfold closeFile
      dsimp only
      rw [if_neg dirty]
  rw [isFlushed]
  unfold Used System.setFile
  dsimp only
  by_cases same : i = minor
  · subst same
    rw [Function.update_self]
    exact ⟨iff_of_false (fun used => Bool.noConfusion used) fun both => both.1 rfl, (kept i).2⟩
  · rw [Function.update_of_ne same, (kept i).1]
    exact ⟨(and_iff_right same).symm, (kept i).2⟩

end Calls

section Laws

variable {s after : State} {action : Action} {reply : Option Int} {pid lfnext minor entry i : Nat} {place : At}
variable {name other : CString} {mbits : Mbits} {disk : Disk}

/-- A process moves to a place where its search has found a pseudo-device, if it is in an open. -/
def Finds (place : At) : Prop :=
  ∀ name mbits lfnext, place = .waiting name mbits lfnext ∨ place = .inside name mbits lfnext → lfnext < nlfl

theorem Law.finds (law : Law s) (pid : Nat) : Finds (s.at_ pid) :=
  fun name mbits lfnext => law.found pid name mbits lfnext

theorem Law.found_move (law : Law s) (finds : Finds place) (moved : after.at_ = Function.update s.at_ pid place) :
    ∀ other name mbits lfnext, after.at_ other = .waiting name mbits lfnext ∨
      after.at_ other = .inside name mbits lfnext → lfnext < nlfl := by
  intro other
  by_cases same : other = pid
  · subst same
    rw [moved, Function.update_self]
    exact finds
  · rw [moved, Function.update_of_ne same]
    exact law.finds other

theorem finds_outside : Finds .outside := by
  rintro name mbits lfnext (isWaiting | isInside)
  · cases isWaiting
  · cases isInside

/-- A step that leaves all pseudo-devices and opens as they are. -/
theorem Law.quiet (law : Law s) (finds : Finds place) (moved : after.at_ = Function.update s.at_ pid place)
    (sameOpens : after.opens = s.opens) (sameTable : after.files.lfltab = s.files.lfltab) : Law after := by
  refine ⟨⟨?_, ?_⟩, ?_, law.found_move finds moved⟩
  · rw [sameOpens]
    exact law.exclusive.devices
  · unfold Used Named
    rw [sameTable]
    exact law.exclusive.names
  · unfold Used
    rw [sameOpens, sameTable]
    exact law.used

theorem used_claimed (claimed : after.files.lfltab =
    Function.update s.files.lfltab lfnext ((s.files.lfltab lfnext).opened entry name.chars)) :
    Used after.files i ↔ i = lfnext ∨ Used s.files i := by
  unfold Used
  rw [claimed]
  by_cases same : i = lfnext
  · subst same
    rw [Function.update_self]
    exact iff_of_true rfl (Or.inl rfl)
  · rw [Function.update_of_ne same]
    exact (or_iff_right same).symm

theorem named_claimed (claimed : after.files.lfltab =
    Function.update s.files.lfltab lfnext ((s.files.lfltab lfnext).opened entry name.chars)) :
    (Named after.files lfnext other ↔ other = name) ∧
      ∀ i, i ≠ lfnext → (Named after.files i other ↔ Named s.files i other) := by
  unfold Named
  rw [claimed]
  constructor
  · rw [Function.update_self]
    constructor
    · intro named
      exact cstring_ext (sameName_unique other.terminated name.terminated named sameName_copyName)
    · rintro rfl
      exact sameName_copyName
  · intro i away
    rw [Function.update_of_ne away]

/-- A claim of a pseudo-device that is free, with a name that is not open. -/
theorem Law.claimed (law : Law s)
    (claims : after.files.lfltab =
      Function.update s.files.lfltab lfnext ((s.files.lfltab lfnext).opened entry name.chars))
    (free : ¬ Used s.files lfnext) (notOpen : ∀ i < nlfl, Used s.files i → ¬ Named s.files i name)
    (opened : after.opens = lfnext :: s.opens) (moved : after.at_ = Function.update s.at_ pid .outside) : Law after := by
  refine ⟨⟨?_, ?_⟩, fun i => ?_, law.found_move finds_outside moved⟩
  · rw [opened, List.nodup_cons, law.used]
    exact ⟨free, law.exclusive.devices⟩
  · intro i j other inner outer usedFirst usedSecond first second
    rw [used_claimed claims] at usedFirst usedSecond
    by_cases isFirst : i = lfnext
    · by_cases isSecond : j = lfnext
      · rw [isFirst, isSecond]
      · rw [isFirst, (named_claimed claims).1] at first
        rw [(named_claimed claims).2 j isSecond, first] at second
        exact absurd second (notOpen j outer (usedSecond.resolve_left isSecond))
    · by_cases isSecond : j = lfnext
      · rw [isSecond, (named_claimed claims).1] at second
        rw [(named_claimed claims).2 i isFirst, second] at first
        exact absurd first (notOpen i inner (usedFirst.resolve_left isFirst))
      · rw [(named_claimed claims).2 i isFirst] at first
        rw [(named_claimed claims).2 j isSecond] at second
        exact law.exclusive.names i j other inner outer (usedFirst.resolve_left isFirst)
          (usedSecond.resolve_left isSecond) first second
  · rw [opened, List.mem_cons, used_claimed claims, law.used]

theorem Law.closed (law : Law s) (isClosed : after.files = closeFile s.files minor)
    (opens : after.opens = s.opens.erase minor) (moved : after.at_ = Function.update s.at_ pid .outside) :
    Law after := by
  have named : ∀ i other, Named after.files i other ↔ Named s.files i other := fun i other => by
    unfold Named
    rw [isClosed, (@closeFile_state s.files minor i).2]
  have used : ∀ i, Used after.files i ↔ i ≠ minor ∧ Used s.files i := fun i => by
    rw [isClosed]
    exact closeFile_state.1
  refine ⟨⟨?_, ?_⟩, fun i => ?_, law.found_move finds_outside moved⟩
  · rw [opens]
    exact law.exclusive.devices.erase minor
  · intro i j other inner outer usedFirst usedSecond first second
    rw [named] at first second
    exact law.exclusive.names i j other inner outer ((used i).mp usedFirst).2 ((used j).mp usedSecond).2 first second
  · rw [opens, law.exclusive.devices.mem_erase_iff, used, law.used]

theorem step_claim (inside : s.at_ pid = .inside name mbits lfnext)
    (completed : step s (.claim pid) = some (reply, after)) :
    after.files = (claimOpen s.files name mbits lfnext).2 ∧
      after.opens = (if (claimOpen s.files name mbits lfnext).1 = syserr then s.opens else lfnext :: s.opens) ∧
      after.at_ = Function.update s.at_ pid .outside := by
  unfold step at completed
  dsimp only at completed
  rw [inside] at completed
  cases completed
  exact ⟨rfl, rfl, rfl⟩

/-- Every step of which no open is disturbed keeps the law. -/
theorem Law.step (law : Law s) (undisturbed : Undisturbed s action) (completed : step s action = some (reply, after)) :
    Law after := by
  cases action with
  | «open» pid name mode =>
    unfold ConcurrentOpens.step at completed
    dsimp only at completed
    split at completed
    · cases completed
      exact law
    · rename_i mbits lfnext isOutside isFound
      cases completed
      refine @Law.quiet _ _ _ (.waiting name mbits lfnext) law ?_ rfl rfl rfl
      rintro _ _ _ (isWaiting | isInside)
      · cases isWaiting
        exact searchOpen_lt isFound
      · cases isInside
    · cases completed
  | enter pid =>
    unfold ConcurrentOpens.step at completed
    dsimp only at completed
    split at completed
    · rename_i name mbits lfnext isWaiting isFree
      cases completed
      refine @Law.quiet _ _ _ (.inside name mbits lfnext) law ?_ rfl rfl rfl
      rintro _ _ _ (isWaiting' | isInside)
      · cases isWaiting'
      · cases isInside
        exact law.found pid _ _ _ (Or.inl isWaiting)
    · cases completed
  | readFails pid =>
    unfold ConcurrentOpens.step at completed
    dsimp only at completed
    split at completed
    · cases completed
      exact law.quiet finds_outside rfl rfl rfl
    · cases completed
  | claim pid =>
    cases inside : s.at_ pid with
    | inside name mbits lfnext =>
      have fresh : Fresh s.files (s.at_ pid) := undisturbed
      rw [inside] at fresh
      obtain ⟨isClaim, opens, moved⟩ := step_claim inside completed
      by_cases isNone : (openEntry s.files name.chars mbits).1 = none
      · obtain ⟨isError, sameTable⟩ := @claimOpen_none s.files name mbits lfnext isNone
        rw [if_pos isError] at opens
        exact law.quiet finds_outside moved opens (by rw [isClaim, sameTable])
      · obtain ⟨notError, entry, claims⟩ := @claimOpen_some s.files name mbits lfnext isNone
        rw [if_neg notError] at opens
        obtain ⟨free, notOpen⟩ := fresh.resolve_left isNone
        exact law.claimed (by rw [isClaim, claims]) free notOpen opens moved
    | _ =>
      unfold ConcurrentOpens.step at completed
      dsimp only at completed
      rw [inside] at completed
      cases completed
  | close pid minor =>
    unfold ConcurrentOpens.step at completed
    dsimp only at completed
    split at completed
    · split at completed
      · cases completed
        refine @Law.quiet _ _ _ (.closing minor) law ?_ rfl rfl rfl
        rintro _ _ _ (isWaiting | isInside)
        · cases isWaiting
        · cases isInside
      · cases completed
    · cases completed
  | enterFile pid =>
    unfold ConcurrentOpens.step at completed
    dsimp only at completed
    split at completed
    · rename_i minor isClosing
      split at completed
      · split at completed
        · cases completed
          exact law.quiet finds_outside rfl rfl rfl
        · cases completed
          refine @Law.quiet _ _ _ (.flushing minor) law ?_ rfl rfl rfl
          rintro _ _ _ (isWaiting | isInside)
          · cases isWaiting
          · cases isInside
      · cases completed
    · cases completed
  | finishClose pid =>
    unfold ConcurrentOpens.step at completed
    dsimp only at completed
    split at completed
    · cases completed
      exact law.closed rfl rfl rfl
    · cases completed

/-- Where the exclusion holds behind a claim, its pseudo-device was free and its name was not open. -/
theorem Law.still_free (law : Law s) (exclusive : Exclusive after) (inside : s.at_ pid = .inside name mbits lfnext)
    (completed : ConcurrentOpens.step s (.claim pid) = some (reply, after))
    (isSome : (openEntry s.files name.chars mbits).1 ≠ none) :
    ¬ Used s.files lfnext ∧ ∀ i < nlfl, Used s.files i → ¬ Named s.files i name := by
  obtain ⟨isClaim, opens, _⟩ := step_claim inside completed
  obtain ⟨notError, entry, claims⟩ := @claimOpen_some s.files name mbits lfnext isSome
  rw [← isClaim] at claims
  rw [if_neg notError] at opens
  have distinct := exclusive.devices
  rw [opens, List.nodup_cons, law.used] at distinct
  refine ⟨distinct.1, fun i inner used named => distinct.1 ?_⟩
  have same : i = lfnext := by
    by_contra away
    have isOther := ((named_claimed claims).2 i away).mpr named
    exact away (exclusive.names i lfnext name inner (law.found pid name mbits lfnext (Or.inr inside))
      ((used_claimed claims).mpr (Or.inr used)) ((used_claimed claims).mpr (Or.inl rfl)) isOther
      ((named_claimed claims).1.mpr rfl))
  rw [← same]
  exact used

/-- A claim that is disturbed breaks the exclusion. -/
theorem Law.disturbed (law : Law s) (disturbed : ¬ Undisturbed s action)
    (completed : ConcurrentOpens.step s action = some (reply, after)) : ¬ Exclusive after := by
  intro exclusive
  apply disturbed
  cases action with
  | claim pid =>
    change Fresh s.files (s.at_ pid)
    cases inside : s.at_ pid with
    | inside name mbits lfnext =>
      by_cases isNone : (openEntry s.files name.chars mbits).1 = none
      · exact Or.inl isNone
      · exact Or.inr (law.still_free exclusive inside completed isNone)
    | _ => trivial
  | _ => trivial

theorem start_law (disk : Disk) : Law (start disk) := by
  refine ⟨⟨List.nodup_nil, ?_⟩, fun i => ?_, ?_⟩
  · intro i j name _ _ used
    cases used
  · exact iff_of_false List.not_mem_nil (fun used => Bool.noConfusion used)
  · rintro pid name mbits lfnext (isWaiting | isInside)
    · cases isWaiting
    · cases isInside

/-- The opens of a run stay exclusive just when no claim is disturbed. -/
theorem opens_stay_exclusive_iff {last : State} {events : List (Event State Action (Option Int))}
    (run : Run step (start disk) events last) :
    (∀ event ∈ events, Exclusive event.after) ↔ Meets Undisturbed events :=
  good_iff_meets Law Exclusive (fun _ _ => True) Undisturbed
    (fun _ _ _ _ law _ undisturbed completed => law.step undisturbed completed) (fun _ law => law.exclusive)
    (fun _ _ _ _ law disturbed completed => law.disturbed disturbed completed)
    _ _ _ run (fun _ _ => trivial) (start_law disk)

/-- One process opens a file. -/
theorem one_open_is_exclusive : ∃ events last, Run step (start newDisk) events last ∧ last.opens = [0] ∧
    ∀ event ∈ events, Exclusive event.after := by
  obtain ⟨events, last, run, passed⟩ := trace_exists step (start newDisk)
    [.open 1 ⟨[97], name_a⟩ ⟨[], List.not_mem_nil⟩, .enter 1, .claim 1]
    (fun events last => decide (last.opens = [0] ∧ ∀ event ∈ events, Undisturbed event.before event.call))
    (by decide +kernel)
  obtain ⟨opens, undisturbed⟩ := of_decide_eq_true passed
  exact ⟨events, last, run, opens, (opens_stay_exclusive_iff run).mpr undisturbed⟩

theorem name_b : (0 : UInt8) ∉ [98] := by decide

/-- While one process waits to open a file, another one opens another file. Both have the pseudo-device 0. -/
theorem two_opens_share_a_device : ∃ events last, Run step (start newDisk) events last ∧ last.opens = [0, 0] ∧
    ¬ Exclusive last := by
  obtain ⟨events, last, run, passed⟩ := trace_exists step (start newDisk)
    [.open 1 ⟨[97], name_a⟩ ⟨[], List.not_mem_nil⟩, .enter 1,
      .open 2 ⟨[98], name_b⟩ ⟨[], List.not_mem_nil⟩, .claim 1, .enter 2, .claim 2]
    (fun _ last => decide (last.opens = [0, 0])) (by decide +kernel)
  have opens := of_decide_eq_true passed
  refine ⟨events, last, run, opens, ?_⟩
  intro exclusive
  have distinct := exclusive.devices
  rw [opens] at distinct
  exact absurd distinct (by decide)

end Laws

end Xinu.ConcurrentOpens
