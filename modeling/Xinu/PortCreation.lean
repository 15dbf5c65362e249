import Xinu.PortResets
import Xinu.RingScan

/-!
# New ports

`ptcreate` makes two semaphores for a free entry and begins a new generation of it. `ptinit` links all
nodes to the free list and frees all entries.
-/

namespace Xinu.Ports

open Semaphores Runs NullTerminated Partitions RingScan

section Making

variable {all : List Nat} {s t : System} {v w : View} {pid : Nat} {point : Point} {portid ptnum : Int}
  {side : Side} {count : Int32} {output : List Effect}

/-- A view with a new port. -/
def View.made (v : View) (ptnum count : Int) : View :=
  { v with
    stage := Function.update v.stage ptnum .opened
    limit := Function.update v.limit ptnum count
    grants := Function.update (Function.update v.grants (ptnum, .send) count) (ptnum, .recv) 0 }

/-- The entry that `ptcreate` makes. -/
theorem makePort_eq (s : System) (ptnum : Int) (count : Int32) : ∃ ptssem ptrsem kernel,
    semcreate s.kernel count.toInt = (ptssem, (semcreate s.kernel count.toInt).2) ∧
    semcreate (semcreate s.kernel count.toInt).2 0 = (ptrsem, kernel) ∧
    s.makePort ptnum count = { s with
      kernel := kernel
      changes := Function.update s.changes ptnum (s.changes ptnum + 1)
      porttab := Function.update s.porttab ptnum { s.porttab ptnum with
        ptssem := ptssem, ptrsem := ptrsem, ptstate := .alloc, pthead := null, pttail := null
        ptseq := (s.porttab ptnum).ptseq + 1, ptmaxcnt := count.toUInt32.toUInt16 } } :=
  ⟨_, _, _, rfl, rfl, rfl⟩

/-- Nobody has begun in a generation that is still to come. -/
theorem Sound.nobody_later (sound : Sound all s v) (pid : Nat) (point : Point)
    (takes : Taking portid side (s.changes portid + 1) point) : (s.kernel.process pid).point ≠ some point := by
  intro here
  have known := sound.points pid point here
  cases point with
  | sending port seq msg began =>
    obtain ⟨_, rfl, isLater⟩ := takes
    have before := known.2.2.1
    omega
  | receiving port seq began =>
    obtain ⟨_, rfl, isLater⟩ := takes
    have before := known.2.2.1
    omega
  | sent => cases takes
  | received msg => cases takes
  | clearing port newstate => cases takes
  | cleared port newstate => cases takes

/-- The two semaphores of a new port. -/
theorem Sound.semaphores (sound : Sound all s v) (isFree : v.stage ptnum = .closed) (enough : 0 ≤ count.toInt)
    {ptssem ptrsem : Int} {first last : Kernel Point} (isFirst : semcreate s.kernel count.toInt = (ptssem, first))
    (isLast : semcreate first 0 = (ptrsem, last)) :
    last.process = s.kernel.process ∧
    Family last (fun member => (v.Kept member ∨ member = (ptnum, .send)) ∨ member = (ptnum, .recv))
      (Function.update (Function.update s.sem (ptnum, .send) ptssem) (ptnum, .recv) ptrsem)
      (Function.update (Function.update (v.taking s) (ptnum, .send) (Taking ptnum .send (s.changes ptnum + 1)))
        (ptnum, .recv) (Taking ptnum .recv (s.changes ptnum + 1)))
      (v.made ptnum count.toInt).grants := by
  have unkept : ∀ side, ¬ v.Kept (ptnum, side) := by
    rintro side ⟨_, keeps⟩
    dsimp only at keeps
    rw [isFree] at keeps
    exact keeps
  have exclusive : ∀ side member point, v.Kept member → v.taking s member point →
      ¬ Taking ptnum side (s.changes ptnum + 1) point := by
    rintro side ⟨port, otherSide⟩ point kept takes later
    have same := Taking.unique takes later
    exact unkept side (same ▸ kept)
  obtain ⟨firstProcess, firstFamily⟩ := sound.family.semcreate (unkept .send) enough
    (fun pid point takes => sound.nobody_later pid point takes) (exclusive .send)
  rw [isFirst] at firstProcess firstFamily
  dsimp only at firstProcess firstFamily
  have fresh : ¬ (v.Kept (ptnum, .recv) ∨ (ptnum, Side.recv) = (ptnum, .send)) := by
    rintro (kept | same)
    · exact unkept .recv kept
    · simp at same
  have nobody : ∀ pid point, Taking ptnum .recv (s.changes ptnum + 1) point →
      (first.process pid).point ≠ some point := by
    intro pid point takes
    rw [firstProcess]
    exact sound.nobody_later pid point takes
  obtain ⟨lastProcess, lastFamily⟩ := firstFamily.semcreate fresh (le_refl 0) nobody (by
    rintro member point (kept | rfl) takes later
    · have apart : member ≠ (ptnum, .send) := by
        rintro rfl
        exact unkept .send kept
      rw [Function.update_of_ne apart] at takes
      exact exclusive .recv member point kept takes later
    · rw [Function.update_self] at takes
      have same := Taking.unique takes later
      simp at same)
  rw [isLast] at lastProcess lastFamily
  exact ⟨lastProcess.trans firstProcess, lastFamily⟩

/-- The count of a port is cut to 16 bits in the table. -/
theorem ptmaxcnt_eq (count : Int32) : (count.toUInt32.toUInt16.toNat : Int) = count.toInt % 2 ^ 16 := by
  have signed : count.toInt = if 2 * count.toUInt32.toNat < 2 ^ 32 then (count.toUInt32.toNat : Int)
      else count.toUInt32.toNat - (2 ^ 32 : Nat) := BitVec.toInt_eq_toNat_cond count.toBitVec
  rw [UInt32.toNat_toUInt16]
  split at signed <;> lia

/-- A new port. -/
theorem Sound.makePort (sound : Sound all s v) (good : isbadport ptnum = false)
    (isFree : v.stage ptnum = .closed) (enough : 0 ≤ count.toInt) :
    Sound all (s.makePort ptnum count) (v.made ptnum count.toInt) ∧
      (s.makePort ptnum count).kernel.process = s.kernel.process := by
  obtain ⟨ptssem, ptrsem, kernel, isFirst, isLast, made⟩ := makePort_eq s ptnum count
  obtain ⟨process, family⟩ := sound.semaphores isFree enough isFirst isLast
  have unclaimed : Unclaimed s ptnum :=
    @Sound.unclaimed _ _ _ 0 _ sound (Or.inl fun newstate => by simp [isFree])
  have stages : ∀ other, other ≠ ptnum → (v.made ptnum count.toInt).stage other = v.stage other :=
    fun other apart => Function.update_of_ne apart _ _
  have here : (v.made ptnum count.toInt).stage ptnum = .opened := Function.update_self ..
  rw [made]
  refine ⟨⟨sound.next, fun other otherGood => ?_, fun other otherGood => ?_, fun other otherGood used => ?_,
    fun other point isThere => ?_, ?_, ?_⟩, process⟩
  · dsimp only
    by_cases same : other = ptnum
    · subst same
      rw [here, Function.update_self]
      rfl
    · rw [stages other same, Function.update_of_ne same]
      exact sound.state other otherGood
  · dsimp only
    by_cases same : other = ptnum
    · subst same
      rw [Function.update_self, Function.update_self]
      dsimp only
      rw [sound.seq other good]
      exact (Int32.ofNat_add _ 1).symm
    · rw [Function.update_of_ne same, Function.update_of_ne same]
      exact sound.seq other otherGood
  · dsimp only
    show _ = Function.update v.limit ptnum count.toInt other % 2 ^ 16
    by_cases same : other = ptnum
    · subst same
      rw [Function.update_self, Function.update_self]
      exact ptmaxcnt_eq count
    · rw [Function.update_of_ne same, Function.update_of_ne same]
      exact sound.capacity other otherGood (stages other same ▸ used)
  · dsimp only at isThere
    rw [process] at isThere
    refine (sound.points other point isThere).restage (fun other apart => ⟨?_, stages other apart, rfl⟩)
      (Or.inr (Function.update_self ..)) (unclaimed other point isThere)
    exact Function.update_of_ne apart _ _
  · refine family.congr ?_ ?_ ?_ (fun _ _ _ => rfl)
    · rintro ⟨port, side⟩ ⟨otherGood, keeps⟩
      by_cases same : port = ptnum
      · subst same
        cases side with
        | send => exact Or.inl (Or.inr rfl)
        | recv => exact Or.inr rfl
      · exact Or.inl (Or.inl ⟨otherGood, stages port same ▸ keeps⟩)
    · rintro ⟨port, side⟩ _
      unfold System.sem
      dsimp only
      by_cases same : port = ptnum
      · subst same
        rw [Function.update_self]
        cases side with
        | send => rw [Function.update_of_ne (by simp), Function.update_self]; rfl
        | recv => rw [Function.update_self]; rfl
      · rw [Function.update_of_ne same, Function.update_of_ne (by simp [same]), Function.update_of_ne (by simp [same])]
    · rintro ⟨port, side⟩ _
      unfold View.taking
      dsimp only
      by_cases same : port = ptnum
      · subst same
        rw [here, Function.update_self]
        cases side with
        | send => rw [Function.update_of_ne (by simp), Function.update_self]; rfl
        | recv => rw [Function.update_self]; rfl
      · rw [stages port same, Function.update_of_ne same, Function.update_of_ne (by simp [same]),
          Function.update_of_ne (by simp [same])]
  · have isEmpty : v.queue ptnum = [] := sound.nodes.unused ptnum (Or.inr (by simp [isFree]))
    refine sound.nodes.exchange good stages (Function.update_eq_self ..).symm
      (fun other apart => Function.update_of_ne apart _ _) (List.Perm.refl _) (fun _ _ _ => rfl) sound.nodes.free
      ⟨fun opened => ?_, fun state clears isAlloc => ?_⟩ fun _ => isEmpty
    · dsimp only
      show Reaches _ null _ (v.queue ptnum) ∧ _ = tailOf null (v.queue ptnum)
      rw [Function.update_self, isEmpty]
      exact ⟨rfl, rfl⟩
    · rw [here] at clears
      simp at clears

/-- The next entry to try does not matter. -/
theorem Sound.withNextid (sound : Sound all s v) {nextid : Int} (next : isbadport nextid = false) :
    Sound all { s with ptnextid := nextid } v := by
  refine ⟨next, sound.state, sound.seq, sound.capacity, fun pid point here => ?_, sound.family,
    ⟨sound.nodes.free, fun port good => ⟨(sound.nodes.queues port good).reaches, (sound.nodes.queues port good).emptied⟩,
      sound.nodes.unused, sound.nodes.few, sound.nodes.divided⟩⟩
  have known := sound.points pid point here
  cases point <;> exact known

/-- A new port is empty and has the places that its count says. -/
theorem Law.makePort (law : Law all s v) (good : isbadport ptnum = false)
    (isFree : v.stage ptnum = .closed) (enough : 0 ≤ count.toInt) :
    Law all (s.makePort ptnum count) (v.made ptnum count.toInt) ∧
      (v.made ptnum count.toInt).slots (s.makePort ptnum count) =
        Function.update (v.slots s) ptnum ⟨count.toInt, []⟩ := by
  have isEmpty : v.queue ptnum = [] := law.nodes.unused ptnum (Or.inr (by simp [isFree]))
  refine ⟨⟨(law.toSound.makePort good isFree enough).1, fun other otherGood => ?_⟩,
    slots_update (Function.update_self ..) ?_ (fun other apart => Function.update_of_ne apart _ _)
      fun other apart => rfl⟩
  · by_cases same : other = ptnum
    · subst same
      unfold View.Balanced View.made
      dsimp only
      rw [Function.update_self, Function.update_self, isEmpty]
      simpa using enough
    · refine (law.balanced other otherGood).congr (Function.update_of_ne same _ _) rfl
        (Function.update_of_ne same _ _) fun side => ?_
      unfold View.made
      dsimp only
      rw [Function.update_of_ne (by simp [same]), Function.update_of_ne (by simp [same])]
  · show (v.queue ptnum).map _ = []
    rw [isEmpty, List.map_nil]

/-- The loop of `ptcreate` scans the table: it finds a free entry, or none is left. -/
theorem ptcreateLoop_cases (next : isbadport s.ptnextid = false) (count : Int32) (tries : Nat) :
    (scan (fun ptnum => decide ((s.porttab ptnum).ptstate = .free)) nports.toNat tries s.ptnextid.toNat = none ∧
      ∃ nextid, isbadport nextid = false ∧ ptcreateLoop count tries s = (syserr, { s with ptnextid := nextid })) ∨
    ∃ ptnum nextid, isbadport ptnum = false ∧ isbadport nextid = false ∧ (s.porttab ptnum).ptstate = .free ∧
      ptcreateLoop count tries s = (ptnum, { s with ptnextid := nextid }.makePort ptnum count) := by
  induction tries generalizing s with
  | zero => exact Or.inl ⟨rfl, s.ptnextid, next, rfl⟩
  | succ tries inductionHypothesis =>
    have range : 0 ≤ s.ptnextid ∧ s.ptnextid < nports := by
      unfold isbadport at next
      simp only [decide_eq_false_iff_not] at next
      omega
    have onward : isbadport (if nports ≤ s.ptnextid + 1 then 0 else s.ptnextid + 1) = false := by
      unfold isbadport nports at *
      simp only [decide_eq_false_iff_not] at *
      split <;> omega
    have place : ((s.ptnextid.toNat % nports.toNat : Nat) : Int) = s.ptnextid := by
      rw [Nat.mod_eq_of_lt (by omega), Int.toNat_of_nonneg range.1]
    have same : (if nports ≤ s.ptnextid + 1 then 0 else s.ptnextid + 1).toNat =
        (s.ptnextid.toNat + 1) % nports.toNat := by
      rw [show nports.toNat = 30 from rfl]
      rw [show nports = 30 from rfl] at range ⊢
      split <;> lia
    unfold ptcreateLoop scan
    dsimp only
    rw [place]
    by_cases isFree : (s.porttab s.ptnextid).ptstate = .free
    · rw [if_pos isFree]
      exact Or.inr ⟨s.ptnextid, _, next, onward, isFree, rfl⟩
    · rw [if_neg isFree, if_neg (by simp [isFree]), ← scan_mod, ← same]
      exact @inductionHypothesis { s with ptnextid := if nports ≤ s.ptnextid + 1 then 0 else s.ptnextid + 1 } onward

/-- `ptcreate`. -/
theorem Law.ptcreate (law : Law all s v) (idle : s.kernel.process pid = .idle) :
    (ptcreate s count).2.kernel.process pid = .idle ∧ ∃ w, Law all (ptcreate s count).2 w ∧
      Happen (v.slots s) (if (ptcreate s count).1 = syserr then [.returned pid syserr]
        else [.created (ptcreate s count).1 count, .returned pid (ptcreate s count).1])
        (w.slots (ptcreate s count).2) := by
  unfold Ports.ptcreate
  by_cases negative : count.toInt < 0
  · rw [if_pos negative, if_pos rfl]
    exact ⟨idle, v, law, happen_returned _ pid syserr⟩
  rw [if_neg negative]
  rcases ptcreateLoop_cases law.next count nports.toNat with
    ⟨_, nextid, next, result⟩ | ⟨ptnum, nextid, good, next, isFree, result⟩
  · rw [result, if_pos rfl]
    exact ⟨idle, v, ⟨law.toSound.withNextid next, law.balanced⟩, happen_returned _ pid syserr⟩
  · have ready : Law all { s with ptnextid := nextid } v := ⟨law.toSound.withNextid next, law.balanced⟩
    have closed : v.stage ptnum = .closed := by
      have state := law.state ptnum good
      rw [isFree] at state
      cases stage : v.stage ptnum <;> simp [stage, Stage.state] at state
      rfl
    have notError : ptnum ≠ syserr := by
      rintro rfl
      simp [isbadport, syserr] at good
    obtain ⟨made, slots⟩ := ready.makePort good closed (not_lt.mp negative)
    have process := (ready.toSound.makePort good closed (not_lt.mp negative)).2
    rw [result, if_neg notError]
    refine ⟨process ▸ idle, _, made, .cons _ _ _ _ _ (.created ptnum count (not_lt.mp negative)) ?_⟩
    rw [slots]
    exact happen_returned _ pid ptnum

end Making

end Xinu.Ports
