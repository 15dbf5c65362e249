import Xinu.LocalCalls

/-!
# Names of local files

A name is compared byte by byte with its NUL, and it is copied with it. `lfsopen` looks for the name among
the open files and then in the directory, and it adds an entry for a new file. The searches find a name
where it stands, since no name has a NUL inside.
-/

namespace Xinu.LocalFiles

open CIntegers WordMemory

section Names

variable {name other : List UInt8} {memory target cmp : Memory} {at_ place : Nat}

theorem sameName_congr (same : ∀ k ≤ name.length, memory (place + k) = cmp (at_ + k)) :
    sameName name memory place = sameName name cmp at_ := by
  induction name generalizing at_ place with
  | nil =>
    have here := same 0 (Nat.zero_le _)
    rw [Nat.add_zero, Nat.add_zero] at here
    unfold sameName
    rw [here]
  | cons ch rest inductionHypothesis =>
    have here := same 0 (Nat.zero_le _)
    rw [Nat.add_zero, Nat.add_zero] at here
    unfold sameName
    rw [here]
    split
    · rfl
    · refine inductionHypothesis fun k below => ?_
      have next := same (k + 1) (Nat.succ_le_succ below)
      rwa [← Nat.add_assoc, ← Nat.add_assoc, Nat.add_right_comm, Nat.add_right_comm at_] at next

/-- Only one name stands at a place. -/
theorem sameName_unique (terminated : 0 ∉ name) (isOther : 0 ∉ other) (first : sameName name cmp at_ = true)
    (second : sameName other cmp at_ = true) : name = other := by
  induction name generalizing other at_ with
  | nil =>
    cases other with
    | nil => rfl
    | cons ch rest =>
      unfold sameName at first second
      have isNul : cmp at_ = 0 := of_decide_eq_true first
      split at second
      · cases second
      case isFalse same =>
        rw [not_not.mp same, isNul] at isOther
        exact absurd List.mem_cons_self isOther
  | cons ch rest inductionHypothesis =>
    unfold sameName at first
    split at first
    · cases first
    case isFalse here =>
      cases other with
      | nil =>
        unfold sameName at second
        rw [not_not.mp here, of_decide_eq_true second] at terminated
        exact absurd List.mem_cons_self terminated
      | cons other_ more =>
        unfold sameName at second
        split at second
        · cases second
        case isFalse there =>
          rw [not_not.mp here, not_not.mp there, inductionHypothesis
            (fun inside => terminated (List.mem_cons_of_mem _ inside))
            (fun inside => isOther (List.mem_cons_of_mem _ inside)) first second]

theorem copyName_outside {byte : Nat} (outside : byte < at_ ∨ at_ + name.length < byte) :
    copyName name target at_ byte = target byte := by
  induction name generalizing target at_ with
  | nil =>
    rw [List.length_nil] at outside
    exact Function.update_of_ne (by omega) _ _
  | cons ch rest inductionHypothesis =>
    rw [List.length_cons] at outside
    unfold copyName
    rw [inductionHypothesis (by omega), Function.update_of_ne (by lia)]

/-- A copied name is found. -/
theorem sameName_copyName : sameName name (copyName name target at_) at_ = true := by
  induction name generalizing target at_ with
  | nil =>
    unfold sameName copyName
    rw [Function.update_self]
    rfl
  | cons ch rest inductionHypothesis =>
    have here : copyName (ch :: rest) target at_ at_ = ch := by
      unfold copyName
      rw [copyName_outside (by omega), Function.update_self]
    unfold sameName
    rw [here, if_neg (not_not.mpr rfl)]
    exact inductionHypothesis

end Names

section Searches

variable {lfltab : Nat → Lflcblk} {name : List UInt8} {dir : Memory}

/-- The search over the pseudo-devices. -/
theorem searchDevices_eq (devices : List Nat) (lfnext : Option Nat) :
    searchDevices lfltab name devices lfnext =
      if ∃ i ∈ devices, (lfltab i).lfused = true ∧ sameName name (lfltab i).lfname 0 = true then none
      else some (lfnext.or (devices.find? fun i => (lfltab i).lfused = false)) := by
  induction devices generalizing lfnext with
  | nil =>
    rw [if_neg (by simp)]
    show some lfnext = some (lfnext.or none)
    rw [Option.or_none]
  | cons i rest inductionHypothesis =>
    unfold searchDevices
    cases used : (lfltab i).lfused with
    | false =>
      rw [if_pos rfl, inductionHypothesis]
      have same : (∃ j ∈ i :: rest, (lfltab j).lfused = true ∧ sameName name (lfltab j).lfname 0 = true) ↔
          ∃ j ∈ rest, (lfltab j).lfused = true ∧ sameName name (lfltab j).lfname 0 = true := by
        simp [used]
      rw [if_congr same rfl rfl, List.find?_cons_of_pos (by simp [used])]
      cases lfnext <;> rfl
    | true =>
      rw [if_neg (by decide)]
      cases found : sameName name (lfltab i).lfname 0 with
      | true =>
        rw [if_pos rfl, if_pos ⟨i, List.mem_cons_self, used, found⟩]
      | false =>
        have same : (∃ j ∈ i :: rest, (lfltab j).lfused = true ∧ sameName name (lfltab j).lfname 0 = true) ↔
            ∃ j ∈ rest, (lfltab j).lfused = true ∧ sameName name (lfltab j).lfname 0 = true := by
          simp [found]
        rw [if_neg (by decide), inductionHypothesis, if_congr same rfl rfl,
          List.find?_cons_of_neg (by simp [used])]

/-- The entries of a directory have the names of a list. -/
structure Named (dir : Memory) (names : List CString) : Prop where
  length : names.length = lfdNfiles dir
  short : ∀ name ∈ names, name.chars.length < lfNameLen
  named : ∀ e name, names[e]? = some name → sameName name.chars dir (ldName e) = true
  distinct : names.Nodup

/-- The search over the directory. -/
theorem Named.searchDir {names : List CString} (isNamed : Named dir names) (name : CString) :
    (name ∉ names ∧ searchDir dir name.chars = none) ∨
    ∃ e, names[e]? = some name ∧ searchDir dir name.chars = some e := by
  have found : ∀ e < lfdNfiles dir, sameName name.chars dir (ldName e) = true → names[e]? = some name := by
    intro e below same
    have inNames : e < names.length := by
      rw [isNamed.length]
      exact below
    have here := List.getElem?_eq_getElem inNames
    rw [here]
    exact congrArg some (cstring_ext (sameName_unique names[e].terminated name.terminated
      (isNamed.named e names[e] here) same))
  unfold LocalFiles.searchDir
  cases search : (List.range (lfdNfiles dir)).find? fun i => sameName name.chars dir (ldName i) with
  | none =>
    refine Or.inl ⟨fun member => ?_, rfl⟩
    obtain ⟨e, here⟩ := List.mem_iff_getElem?.mp member
    have below := (List.getElem?_eq_some_iff.mp here).1
    rw [isNamed.length] at below
    exact List.find?_eq_none.mp search e (List.mem_range.mpr below) (isNamed.named e name here)
  | some e =>
    have same := List.find?_some search
    exact Or.inr ⟨e, found e (List.mem_range.mp (List.mem_of_find?_eq_some search)) same, rfl⟩

end Searches

section Entries

variable {dir : Memory} {name : List UInt8} {names : List CString}

/-- Words outside of a name that is copied. -/
theorem load_copyName {at_ place : Nat} (apart : place + 4 ≤ at_ ∨ at_ + name.length < place) :
    load (copyName name dir at_) place = load dir place :=
  load_congr fun k below => copyName_outside (by lia)

/-- The directory with a new entry. -/
structure AddedDir (dir after : Memory) : Prop where
  nfiles : lfdNfiles after = lfdNfiles dir + 1
  dfree : lfdDfree after = lfdDfree dir
  ifree : lfdIfree after = lfdIfree dir
  ilist : ∀ f, ldIlist after f = if f = lfdNfiles dir then lfInull else ldIlist dir f
  size : ∀ f, ldSize after f = if f = lfdNfiles dir then 0 else ldSize dir f
  name : ∀ f k, f ≠ lfdNfiles dir → k < 16 → after (ldName f + k) = dir (ldName f + k)

theorem addedDir (room : lfdNfiles dir < lfNumDirEnt) (short : name.length < lfNameLen) :
    AddedDir dir (addEntry dir name) := by
  unfold lfNameLen at short
  unfold addEntry
  dsimp only
  refine ⟨?_, ?_, ?_, fun f => ?_, fun f => ?_, fun f k apart below => ?_⟩
  · rw [lfdNfiles_store (by unfold lfdFiles; lia) (by unfold lfdFiles; omega)]
    have copied : lfdNfiles (copyName name (store (store dir 8 (load dir 8 + 1)) (lfdFiles (lfdNfiles dir)) 0)
        (ldName (lfdNfiles dir))) = lfdNfiles (store (store dir 8 (load dir 8 + 1)) (lfdFiles (lfdNfiles dir)) 0) :=
      congrArg UInt32.toNat (load_copyName (by unfold ldName lfdFiles; lia))
    rw [copied, lfdNfiles_store (by unfold lfdFiles; lia) (by unfold lfdFiles; omega)]
    show (load (store dir 8 (load dir 8 + 1)) 8).toNat = (load dir 8).toNat + 1
    have small : (load dir 8).toNat < 20 := room
    rw [load_store_same]
    exact toNat_succ (Nat.lt_succ_self _) (by lia)
  · rw [lfdDfree_store (by unfold lfdFiles; lia) (by unfold lfdFiles; omega)]
    refine (load_copyName (by unfold ldName lfdFiles; lia)).trans ?_
    exact (lfdDfree_store (by unfold lfdFiles; lia) (by unfold lfdFiles; omega)).trans
      (lfdDfree_store (by decide) (by decide))
  · rw [lfdIfree_store (by unfold lfdFiles; lia) (by unfold lfdFiles; omega)]
    refine (load_copyName (by unfold ldName lfdFiles; lia)).trans ?_
    exact (lfdIfree_store (by unfold lfdFiles; lia) (by unfold lfdFiles; omega)).trans
      (lfdIfree_store (by decide) (by decide))
  · split
    case isTrue isNew => exact isNew ▸ load_store_same
    case isFalse apart =>
      rw [ldIlist_store (by unfold lfdFiles; lia) (by unfold lfdFiles; omega)]
      refine (load_copyName (by unfold ldName lfdFiles; lia)).trans ?_
      exact (ldIlist_store (by unfold lfdFiles; lia) (by unfold lfdFiles; omega)).trans
        (ldIlist_store (by unfold lfdFiles; lia) (by decide))
  · rw [ldSize_store (by unfold lfdFiles; lia) (by unfold lfdFiles; omega)]
    refine (load_copyName (by unfold ldName lfdFiles; lia)).trans ?_
    split
    case isTrue isNew => exact isNew ▸ load_store_same
    case isFalse apart =>
      exact (ldSize_store (by unfold lfdFiles; lia) (by unfold lfdFiles; omega)).trans
        (ldSize_store (by unfold lfdFiles; lia) (by decide))
  · rw [name_store (Or.inr ⟨_, Or.inr rfl⟩) (by unfold lfdFiles; omega) f k below,
      copyName_outside (by unfold ldName lfdFiles; lia),
      name_store (Or.inr ⟨_, Or.inl rfl⟩) (by unfold lfdFiles; omega) f k below,
      name_store (Or.inl (by decide)) (by decide) f k below]

/-- The name of the new entry. -/
theorem sameName_addEntry (short : name.length < lfNameLen) :
    sameName name (addEntry dir name) (ldName (lfdNfiles dir)) = true := by
  unfold lfNameLen at short
  rw [← @sameName_copyName name (store (store dir 8 (load dir 8 + 1)) (lfdFiles (lfdNfiles dir)) 0)
    (ldName (lfdNfiles dir))]
  exact sameName_congr fun k below =>
    name_store (Or.inr ⟨_, Or.inr rfl⟩) (by unfold lfdFiles; omega) _ k (by omega)

theorem Named.congr {after : Memory} (isNamed : Named dir names) (nfiles : lfdNfiles after = lfdNfiles dir)
    (same : ∀ f k, k < 16 → after (ldName f + k) = dir (ldName f + k)) : Named after names := by
  refine ⟨isNamed.length.trans nfiles.symm, isNamed.short, fun e name here => ?_, isNamed.distinct⟩
  have short := isNamed.short name (List.mem_of_getElem? here)
  unfold lfNameLen at short
  rw [sameName_congr fun k below => same e k (by lia)]
  exact isNamed.named e name here

/-- A new name comes to the end. -/
theorem Named.added {name : CString} (isNamed : Named dir names) (room : lfdNfiles dir < lfNumDirEnt)
    (short : name.chars.length < lfNameLen) (isNew : name ∉ names) :
    Named (addEntry dir name.chars) (names ++ [name]) := by
  have added := addedDir room short
  refine ⟨?_, fun other member => ?_, fun e other here => ?_, ?_⟩
  · rw [List.length_append, List.length_singleton, isNamed.length, added.nfiles]
  · rcases List.mem_append.mp member with old | new
    · exact isNamed.short other old
    · rw [List.mem_singleton.mp new]
      exact short
  · rcases Nat.lt_or_ge e names.length with old | new
    · rw [List.getElem?_append_left old] at here
      have isShort := isNamed.short other (List.mem_of_getElem? here)
      rw [isNamed.length] at old
      unfold lfNameLen at isShort
      rw [sameName_congr fun k below => added.name e k (by lia) (by lia)]
      exact isNamed.named e other here
    · have isEnd : e = names.length := by
        have below := (List.getElem?_eq_some_iff.mp here).1
        rw [List.length_append, List.length_singleton] at below
        lia
      rw [isEnd, List.getElem?_concat_length] at here
      cases here
      rw [isEnd, isNamed.length]
      exact sameName_addEntry short
  · exact List.nodup_append.mpr ⟨isNamed.distinct, List.nodup_singleton _, fun a inNames b isName =>
      fun same => isNew ((same.trans (List.mem_singleton.mp isName)) ▸ inNames)⟩

end Entries

end Xinu.LocalFiles
