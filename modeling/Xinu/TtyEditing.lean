import Xinu.Tty

/-!
# What a typed character does to the input buffer

`ttyhandle_in` chooses what to do with a character from the mode, the settings and the number of
available characters, changes the input buffer and echoes. Here the change is separated from the echo:
the change depends on the state before, and the echo moves the echo queue only.
-/

namespace Xinu.Tty

open Semaphores

/-- What is done with a typed character: nothing, it is stored, with or without the wrap of the pointer
and the signal, it becomes a part of the line, it ends the line, or the line is edited. -/
inductive Edit where
  | nothing
  | store (ch : UInt8) (wrap signals : Bool)
  | char (ch : UInt8)
  | line (ch : UInt8)
  | erase
  | kill
deriving DecidableEq

/-- The choice in cooked mode. -/
def System.chooseCooked (s : System) (ch : UInt8) : Edit :=
  if ch = s.tyikillc ∧ s.tyikill then .kill
  else if ch = s.tyierasec ∧ s.tyierase then if 0 < s.tyicursor then .erase else .nothing
  else if ch = tyNewline ∨ ch = tyReturn then .line ch
  else if tyIbuflen - 1 ≤ s.avail + s.tyicursor then .nothing
  else if ch = s.tyeofch ∧ s.tyeof then if s.tyicursor ≠ 0 then .nothing else .store ch false true
  else .char ch

/-- The choice of `ttyhandle_in`. -/
def System.choose (s : System) (typed : UInt8) : Edit :=
  if s.tyimode = .raw then if tyIbuflen ≤ s.avail then .nothing else .store typed false true
  else if s.tyoflow ∧ s.map typed = s.tyostart then .nothing
  else if s.tyoflow ∧ s.map typed = s.tyostop then .nothing
  else if s.tyimode = .cbreak then
    if tyIbuflen ≤ s.avail then .nothing else .store (s.map typed) true false
  else s.chooseCooked (s.map typed)

/-- The change of the input buffer. -/
def Edit.apply (s : System) : Edit → System
  | .nothing => s
  | .store ch wrap signals => if signals then (insert ch wrap s).signal else insert ch wrap s
  | .char ch => insert ch true { s with tyicursor := s.tyicursor + 1 }
  | .line ch =>
    { insert ch true s with
      kernel := signaln s.kernel s.tyisem (s.tyicursor + 1)
      tyicursor := 0 }
  | .erase =>
    { s with
      tyitail := if s.tyitail - 1 < 0 then s.tyitail - 1 + tyIbuflen else s.tyitail - 1
      tyicursor := s.tyicursor - 1
      unread := s.unread.dropLast }
  | .kill =>
    { s with
      tyitail := s.tyitail - s.tyicursor
      tyihead := if s.tyitail - s.tyicursor < 0 then s.tyihead + tyIbuflen else s.tyihead
      tyicursor := 0
      unread := s.unread.take (s.unread.length - s.tyicursor.toNat) }

/-- The fields that the choice leaves to the echo and to the output. -/
def System.beside (s : System) (tyoheld : Bool) (tyotail : Nat) (tyebuff : Nat → UInt8) (tyetail : Nat) :
    System :=
  { s with tyoheld := tyoheld, tyotail := tyotail, tyebuff := tyebuff, tyetail := tyetail }

/-- Only the echo queue has changed, and its pointer stays inside. -/
def Echoed (s after : System) : Prop :=
  ∃ tyebuff tyetail, after = { s with tyebuff := tyebuff, tyetail := tyetail } ∧
    (s.tyetail < tyEbuflen → tyetail < tyEbuflen)

section Echoes

variable {s middle after : System} {ch : UInt8}

theorem Echoed.refl (s : System) : Echoed s s := ⟨s.tyebuff, s.tyetail, rfl, id⟩

theorem Echoed.trans (first : Echoed s middle) (second : Echoed middle after) : Echoed s after := by
  obtain ⟨buffer, tail, rfl, inside⟩ := first
  obtain ⟨later, last, rfl, stays⟩ := second
  exact ⟨later, last, rfl, fun below => stays (inside below)⟩

theorem echoed_eputc (ch : UInt8) (s : System) : Echoed s (eputc ch s) := by
  refine ⟨_, _, rfl, fun below => ?_⟩
  split
  · decide
  · omega

theorem echoed_echoch (ch : UInt8) (s : System) : Echoed s (echoch ch s) := by
  unfold echoch
  split
  · exact (echoed_eputc _ _).trans (echoed_eputc _ _)
  · split
    · exact (echoed_eputc _ _).trans (echoed_eputc _ _)
    · exact echoed_eputc _ _

theorem echoed_rubOut (s : System) : Echoed s (rubOut s) := by
  unfold rubOut
  dsimp only
  split
  · exact ((echoed_eputc _ _).trans (echoed_eputc _ _)).trans (echoed_eputc _ _)
  · exact echoed_eputc _ _

theorem echoed_if (condition : Prop) [Decidable condition] (ch : UInt8) (s : System) :
    Echoed s (if condition then echoch ch s else s) := by
  split
  · exact echoed_echoch ch s
  · exact Echoed.refl s

/-- The character that was erased decides how much of the screen is rubbed out. -/
theorem echoed_rubbed (ch : UInt8) (s : System) : Echoed s (if s.tyiecho then
    if unprintable ch then rubOut (if s.tyevis then rubOut s else s) else rubOut s else s) := by
  split
  · split
    · split
      · exact (echoed_rubOut _).trans (echoed_rubOut _)
      · exact echoed_rubOut _
    · exact echoed_rubOut _
  · exact Echoed.refl _

theorem echoed_erase1 (s : System) : Echoed { s with
    tyitail := if s.tyitail - 1 < 0 then s.tyitail - 1 + tyIbuflen else s.tyitail - 1
    unread := s.unread.dropLast } (erase1 s) := echoed_rubbed _ _

end Echoes

/-- The change of a choice, beside the echo. In raw mode the pointer of the output buffer is wrapped,
which is inside already. -/
def Edit.Handled (edit : Edit) (s after : System) : Prop :=
  ∃ tyoheld tyotail tyebuff tyetail, after = (edit.apply s).beside tyoheld tyotail tyebuff tyetail ∧
    (s.tyotail < tyObuflen → tyotail = s.tyotail) ∧ (s.tyetail < tyEbuflen → tyetail < tyEbuflen)

section Choices

variable {s after : System} {edit : Edit}

/-- Nothing but the echo happens. -/
theorem Echoed.handled (echoed : Echoed s after) : Edit.nothing.Handled s after := by
  obtain ⟨buffer, tail, rfl, inside⟩ := echoed
  exact ⟨s.tyoheld, s.tyotail, buffer, tail, rfl, fun _ => rfl, inside⟩

/-- The output is not held any longer. -/
theorem Edit.Handled.of_held {held : Bool} (handled : edit.Handled { s with tyoheld := held } after) :
    edit.Handled s after := by
  obtain ⟨tyoheld, tyotail, tyebuff, tyetail, rfl, otail, etail⟩ := handled
  refine ⟨tyoheld, tyotail, tyebuff, tyetail, ?_, otail, etail⟩
  cases edit with
  | store ch wrap signals => cases signals <;> rfl
  | nothing | char ch | line ch | erase | kill => rfl

theorem handled_raw (ch : UInt8) (raw : s.tyimode = .raw) : (s.choose ch).Handled s (handleRaw ch s) := by
  unfold System.choose handleRaw
  rw [if_pos raw]
  split
  · exact (Echoed.refl s).handled
  · refine ⟨s.tyoheld, _, s.tyebuff, s.tyetail, rfl, fun inside => ?_, id⟩
    exact if_neg (Nat.not_le.mpr inside)

theorem handled_cbreak (ch : UInt8) :
    (if tyIbuflen ≤ s.avail then Edit.nothing else .store ch true false).Handled s (handleCbreak ch s) := by
  unfold handleCbreak
  split
  · exact (echoed_eputc _ s).handled
  · obtain ⟨buffer, tail, echo, inside⟩ := echoed_if ((insert ch true s).tyiecho = true) ch (insert ch true s)
    dsimp only
    rw [echo]
    exact ⟨s.tyoheld, s.tyotail, buffer, tail, rfl, fun _ => rfl, inside⟩

theorem handled_kill (s : System) : Edit.kill.Handled s (killLine s) := by
  obtain ⟨buffer, tail, echo, inside⟩ := (echoed_eputc tyReturn (Edit.kill.apply s)).trans
    (echoed_eputc tyNewline _)
  exact ⟨s.tyoheld, s.tyotail, buffer, tail, echo, fun _ => rfl, inside⟩

theorem handled_line (ch : UInt8) (s : System) : (Edit.line ch).Handled s (endLine ch s) := by
  obtain ⟨buffer, tail, echo, inside⟩ := echoed_if (s.tyiecho = true) ch s
  unfold endLine
  rw [echo]
  exact ⟨s.tyoheld, s.tyotail, buffer, tail, rfl, fun _ => rfl, inside⟩

theorem handled_cooked (ch : UInt8) : (s.chooseCooked ch).Handled s (handleCooked ch s) := by
  obtain ⟨buffer, tail, echo, inside⟩ := echoed_if (s.tyiecho = true) ch s
  unfold System.chooseCooked handleCooked
  split
  · exact handled_kill s
  · split
    · split
      · obtain ⟨later, last, erased, stays⟩ := echoed_erase1 { s with tyicursor := s.tyicursor - 1 }
        exact ⟨s.tyoheld, s.tyotail, later, last, erased, fun _ => rfl, stays⟩
      · exact (Echoed.refl s).handled
    · split
      · exact handled_line ch s
      · split
        · exact (echoed_eputc _ s).handled
        · rw [echo]
          split
          · dsimp only
            split
            · exact Echoed.handled ⟨buffer, tail, rfl, inside⟩
            · exact ⟨s.tyoheld, s.tyotail, buffer, tail, rfl, fun _ => rfl, inside⟩
          · exact ⟨s.tyoheld, s.tyotail, buffer, tail, rfl, fun _ => rfl, inside⟩

/-- What `ttyhandle_in` does is the change of its choice, beside the echo. -/
theorem handled_ttyhandleIn (typed : UInt8) (s : System) :
    (s.choose typed).Handled s (ttyhandleIn typed s) := by
  unfold ttyhandleIn
  split
  case isTrue raw => exact handled_raw typed raw
  case isFalse notRaw =>
    have held : ∀ held, Edit.nothing.Handled s { s with tyoheld := held } := fun held =>
      ⟨held, s.tyotail, s.tyebuff, s.tyetail, rfl, fun _ => rfl, id⟩
    unfold System.choose
    rw [if_neg notRaw]
    dsimp only
    split
    · exact held false
    · split
      · exact held true
      · split
        · exact (@handled_cbreak { s with tyoheld := false } (s.map typed)).of_held
        · exact (@handled_cooked { s with tyoheld := false } (s.map typed)).of_held

end Choices

end Xinu.Tty
