import Mathlib

/-!
# Write-back caches of one entry

Clients share a store of values. Each client may keep one key with its value in a slot, and may change
the value there; it is written back to the store later. What the store means is a function from keys to
values: the value in a slot, where some client keeps the key, and the value in the store elsewhere. A
slot that is not dirty agrees with the store, and no two clients keep the same key.

Fetching, evicting and writing back change the store or the slots and not their meaning.
-/

namespace Xinu.WriteBack

variable {ι κ β : Type*}

/-- A key with its value, and whether the value was changed. -/
structure Slot (κ β : Type*) where
  key : κ
  value : β
  dirty : Bool

/-- The store and the slots mean a function. -/
structure Coherent (valid : κ → Prop) (store : κ → β) (slot : ι → Option (Slot κ β)) (logical : κ → β) :
    Prop where
  uncached : ∀ k, valid k → (∀ i c, slot i = some c → c.key ≠ k) → store k = logical k
  cached : ∀ i c, slot i = some c → valid c.key ∧ c.value = logical c.key ∧
    (c.dirty = false → store c.key = logical c.key)
  alone : ∀ i j c d, slot i = some c → slot j = some d → c.key = d.key → i = j

section Operations

variable [DecidableEq ι] [DecidableEq κ] {valid : κ → Prop} {store other : κ → β}
  {slot : ι → Option (Slot κ β)} {logical : κ → β} {i : ι} {k : κ} {b : β} {c : Slot κ β}

/-- No client but one keeps a key. -/
def Unkept (slot : ι → Option (Slot κ β)) (i : ι) (k : κ) : Prop :=
  ∀ j c, j ≠ i → slot j = some c → c.key ≠ k

omit [DecidableEq ι] [DecidableEq κ] in
theorem Coherent.unkept (coherent : Coherent valid store slot logical) (holds : slot i = some c) :
    Unkept slot i c.key := by
  intro j d away other same
  exact away (coherent.alone j i d c other holds same)

omit [DecidableEq ι] [DecidableEq κ] in
/-- Where nobody keeps anything, the store means itself. -/
theorem coherent_store (nobody : ∀ i, slot i = none) : Coherent valid store slot store := by
  refine ⟨fun _ _ _ => rfl, fun i c holds => ?_, fun i j c d holds => ?_⟩
  · rw [nobody i] at holds
    cases holds
  · rw [nobody i] at holds
    cases holds

omit [DecidableEq ι] [DecidableEq κ] in
/-- Only valid keys matter. -/
theorem Coherent.congr (coherent : Coherent valid store slot logical)
    (same : ∀ k, valid k → other k = store k) : Coherent valid other slot logical := by
  refine ⟨fun k isValid nobody => ?_, fun i c holds => ?_, coherent.alone⟩
  · exact (same k isValid).trans (coherent.uncached k isValid nobody)
  · obtain ⟨isValid, value, clean⟩ := coherent.cached i c holds
    exact ⟨isValid, value, fun notDirty => (same c.key isValid).trans (clean notDirty)⟩

/-- A slot is replaced, and the store and the meaning change at one key at most. -/
theorem Coherent.replace (coherent : Coherent valid store slot logical) {later : κ → β} {meaning : κ → β}
    {entry : Option (Slot κ β)}
    -- what the client kept before is in the store, or it is kept again
    (before : ∀ c, slot i = some c → (∀ d, entry = some d → d.key ≠ c.key) → later c.key = meaning c.key)
    (here : ∀ d, entry = some d → valid d.key ∧ d.value = meaning d.key ∧
      (d.dirty = false → later d.key = meaning d.key) ∧ Unkept slot i d.key)
    (elsewhere : ∀ k, (∀ c, slot i = some c → c.key ≠ k) → (∀ d, entry = some d → d.key ≠ k) →
      later k = store k ∧ meaning k = logical k) :
    Coherent valid later (Function.update slot i entry) meaning := by
  refine ⟨fun k isValid nobody => ?_, fun j c holds => ?_, fun j m c d first second same => ?_⟩
  · have notHere : ∀ d, entry = some d → d.key ≠ k := fun d isEntry =>
      nobody i d (by rw [Function.update_self]; exact isEntry)
    by_cases kept : ∃ c, slot i = some c ∧ c.key = k
    · obtain ⟨c, holds, rfl⟩ := kept
      exact before c holds notHere
    · have notBefore : ∀ c, slot i = some c → c.key ≠ k := fun c holds same => kept ⟨c, holds, same⟩
      obtain ⟨sameStore, sameMeaning⟩ := elsewhere k notBefore notHere
      rw [sameStore, sameMeaning]
      refine coherent.uncached k isValid fun j c holds => ?_
      rcases eq_or_ne j i with rfl | away
      · exact notBefore c holds
      · exact nobody j c (by rw [Function.update_of_ne away]; exact holds)
  · rcases eq_or_ne j i with rfl | away
    · rw [Function.update_self] at holds
      obtain ⟨isValid, value, clean, _⟩ := here c holds
      exact ⟨isValid, value, clean⟩
    · rw [Function.update_of_ne away] at holds
      obtain ⟨isValid, value, clean⟩ := coherent.cached j c holds
      have notHere : ∀ d, entry = some d → d.key ≠ c.key := fun d isEntry same =>
        (here d isEntry).2.2.2 j c away holds same.symm
      have notBefore : ∀ d, slot i = some d → d.key ≠ c.key := fun d kept same =>
        away (coherent.alone j i c d holds kept same.symm)
      obtain ⟨sameStore, sameMeaning⟩ := elsewhere c.key notBefore notHere
      rw [sameStore, sameMeaning]
      exact ⟨isValid, value, clean⟩
  · rcases eq_or_ne j i with rfl | awayFirst <;> rcases eq_or_ne m j with isFirst | awaySecond
    · exact isFirst.symm
    · rw [Function.update_self] at first
      rw [Function.update_of_ne awaySecond] at second
      exact absurd same.symm ((here c first).2.2.2 m d awaySecond second)
    · exact isFirst.symm
    · rw [Function.update_of_ne awayFirst] at first
      rcases eq_or_ne m i with rfl | away
      · rw [Function.update_self] at second
        exact absurd same ((here d second).2.2.2 j c awayFirst first)
      · rw [Function.update_of_ne away] at second
        exact coherent.alone j m c d first second same

/-- A value is written back. -/
theorem Coherent.flush (coherent : Coherent valid store slot logical) (holds : slot i = some c) :
    Coherent valid (Function.update store c.key c.value)
      (Function.update slot i (some { c with dirty := false })) logical := by
  obtain ⟨isValid, value, _⟩ := coherent.cached i c holds
  refine coherent.replace (fun d kept notHere => ?_) (fun d isEntry => ?_) (fun k notBefore _ => ?_)
  · cases holds.symm.trans kept
    exact absurd rfl (notHere { c with dirty := false } rfl)
  · cases isEntry
    have unkept : Unkept slot i c.key := coherent.unkept holds
    exact ⟨isValid, value, fun _ => by rw [Function.update_self, value], unkept⟩
  · exact ⟨Function.update_of_ne (notBefore c holds).symm _ _, rfl⟩

/-- A clean slot is given up. -/
theorem Coherent.evict (coherent : Coherent valid store slot logical)
    (clean : ∀ c, slot i = some c → c.dirty = false) :
    Coherent valid store (Function.update slot i none) logical := by
  refine coherent.replace (fun c holds _ => ?_) (fun d isEntry => ?_) (fun _ _ _ => ⟨rfl, rfl⟩)
  · exact (coherent.cached i c holds).2.2 (clean c holds)
  · cases isEntry

/-- A value that no other client keeps is fetched into a clean slot. -/
theorem Coherent.fetch (coherent : Coherent valid store slot logical)
    (clean : ∀ c, slot i = some c → c.dirty = false) (isValid : valid k) (nobody : Unkept slot i k) :
    store k = logical k ∧
      Coherent valid store (Function.update slot i (some ⟨k, store k, false⟩)) logical := by
  have agrees : store k = logical k := by
    by_cases kept : ∃ c, slot i = some c ∧ c.key = k
    · obtain ⟨c, holds, rfl⟩ := kept
      exact (coherent.cached i c holds).2.2 (clean c holds)
    · refine coherent.uncached k isValid fun j c holds => ?_
      rcases eq_or_ne j i with rfl | away
      · exact fun same => kept ⟨c, holds, same⟩
      · exact nobody j c away holds
  refine ⟨agrees, coherent.replace (fun c holds _ => ?_) (fun d isEntry => ?_) (fun _ _ _ => ⟨rfl, rfl⟩)⟩
  · exact (coherent.cached i c holds).2.2 (clean c holds)
  · cases isEntry
    exact ⟨isValid, agrees, fun _ => agrees, nobody⟩

/-- A client changes the value that it keeps. -/
theorem Coherent.modify (coherent : Coherent valid store slot logical) (holds : slot i = some c) (b : β) :
    Coherent valid store (Function.update slot i (some ⟨c.key, b, true⟩))
      (Function.update logical c.key b) := by
  obtain ⟨isValid, _, _⟩ := coherent.cached i c holds
  refine coherent.replace (fun d kept notHere => ?_) (fun d isEntry => ?_) (fun k notBefore _ => ?_)
  · cases holds.symm.trans kept
    exact absurd rfl (notHere ⟨c.key, b, true⟩ rfl)
  · cases isEntry
    have unkept : Unkept slot i c.key := coherent.unkept holds
    exact ⟨isValid, by rw [Function.update_self], fun clean => Bool.noConfusion clean, unkept⟩
  · exact ⟨rfl, Function.update_of_ne (notBefore c holds).symm _ _⟩

/-- A client makes a value for a key that no other client keeps, in a clean slot. -/
theorem Coherent.create (coherent : Coherent valid store slot logical)
    (clean : ∀ c, slot i = some c → c.dirty = false ∧ c.key ≠ k) (isValid : valid k)
    (nobody : Unkept slot i k) (b : β) :
    Coherent valid store (Function.update slot i (some ⟨k, b, true⟩)) (Function.update logical k b) := by
  refine coherent.replace (fun c holds _ => ?_) (fun d isEntry => ?_) (fun m _ notHere => ?_)
  · obtain ⟨notDirty, away⟩ := clean c holds
    rw [Function.update_of_ne away]
    exact (coherent.cached i c holds).2.2 notDirty
  · cases isEntry
    exact ⟨isValid, by rw [Function.update_self], fun clean => Bool.noConfusion clean, nobody⟩
  · exact ⟨rfl, Function.update_of_ne (notHere _ rfl).symm _ _⟩

/-- A client writes a new value for its key, and makes a value for another key. -/
theorem Coherent.spill (coherent : Coherent valid store slot logical) (holds : slot i = some c)
    (away : c.key ≠ k) (isValid : valid k) (nobody : Unkept slot i k) (value b : β) :
    Coherent valid (Function.update store c.key value) (Function.update slot i (some ⟨k, b, true⟩))
      (Function.update (Function.update logical c.key value) k b) := by
  have flushed := (coherent.modify holds value).flush (Function.update_self i _ slot)
  rw [Function.update_idem] at flushed
  have still : Unkept (Function.update slot i (some ⟨c.key, value, false⟩)) i k := fun j d apart kept => by
    rw [Function.update_of_ne apart] at kept
    exact nobody j d apart kept
  have created := flushed.create (fun d kept => by
    rw [Function.update_self] at kept
    cases kept
    exact ⟨rfl, away⟩) isValid still b
  rw [Function.update_idem] at created
  exact created

omit [DecidableEq ι] in
/-- A value that nobody keeps is written to the store. -/
theorem Coherent.write (coherent : Coherent valid store slot logical)
    (nobody : ∀ i c, slot i = some c → c.key ≠ k) (b : β) :
    Coherent valid (Function.update store k b) slot (Function.update logical k b) := by
  refine ⟨fun m isValid unkept => ?_, fun j c holds => ?_, coherent.alone⟩
  · rcases eq_or_ne m k with rfl | away
    · rw [Function.update_self, Function.update_self]
    · rw [Function.update_of_ne away, Function.update_of_ne away]
      exact coherent.uncached m isValid unkept
  · have away := nobody j c holds
    rw [Function.update_of_ne away, Function.update_of_ne away]
    exact coherent.cached j c holds

end Operations

end Xinu.WriteBack
