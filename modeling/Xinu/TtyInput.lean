import Xinu.TtyEditing

/-!
# The input buffer of the terminal

The typed characters that were stored and not yet taken lie between the two pointers of the input
buffer, as long as a character is stored only where there is room and where the pointer is wrapped, and
a line is killed only where the pointer does not step over the start of the buffer. The semaphore grants
one read for each of them, apart from those of the line that is being edited and those that were typed
in cbreak mode.
-/

namespace Xinu.Tty

open Semaphores Runs RingBuffer

/-- A process that takes a typed character, and one that stores a character to be written. -/
def Point.Getting : Point → Prop
  | .getting => True
  | .putting _ _ => False

def Point.Putting : Point → Prop
  | .getting => False
  | .putting _ _ => True

/-- The two semaphores, with what they grant. -/
structure Sems (k : Kernel Point) (tyisem tyosem gets puts : Int) : Prop where
  law : Semaphores.Law k
  input : Tokens k tyisem Point.Getting gets
  output : Tokens k tyosem Point.Putting puts
  apart : tyisem ≠ tyosem

section Semaphores

variable {k : Kernel Point} {tyisem tyosem gets puts : Int} {pid : Nat}

theorem takes_getting : Point.getting.Getting := trivial

theorem takes_putting (ch : UInt8) (rest : List UInt8) : (Point.putting ch rest).Putting := trivial

theorem getting_not_putting (point : Point) (getting : point.Getting) : ¬ point.Putting := by
  cases point with
  | getting => exact id
  | putting ch rest => exact getting.elim

theorem putting_not_getting (point : Point) (putting : point.Putting) : ¬ point.Getting :=
  fun getting => getting_not_putting point getting putting

/-- A process outside of all calls takes nothing. -/
theorem not_ready_of_idle (idle : k.process pid = .idle) (taking : Point → Prop) (point : Point) :
    taking point → k.process pid ≠ .ready point := by
  intro _ ready
  rw [idle] at ready
  cases ready

theorem Sems.signaln_input (sems : Sems k tyisem tyosem gets puts) (count : Nat) :
    Sems (signaln k tyisem count) tyisem tyosem (gets + count) puts := by
  obtain ⟨input, law⟩ := sems.input.signaln sems.law count
  exact ⟨law, input, sems.output.signaln_other sems.law sems.input getting_not_putting
    sems.apart.symm count, sems.apart⟩

theorem Sems.signaln_output (sems : Sems k tyisem tyosem gets puts) (count : Nat) :
    Sems (signaln k tyosem count) tyisem tyosem gets (puts + count) := by
  obtain ⟨output, law⟩ := sems.output.signaln sems.law count
  exact ⟨law, sems.input.signaln_other sems.law sems.output putting_not_getting sems.apart count,
    output, sems.apart⟩

theorem Sems.signal_input (sems : Sems k tyisem tyosem gets puts) :
    Sems (signal k tyisem).2 tyisem tyosem (gets + 1) puts :=
  ⟨sems.law.signal, sems.input.signal sems.law,
    sems.output.signal_other sems.law sems.input getting_not_putting sems.apart.symm, sems.apart⟩

/-- The `wait` of `ttygetc`. -/
theorem Sems.wait_input (sems : Sems k tyisem tyosem gets puts) (idle : k.process pid = .idle) :
    (0 < gets ∧ ∃ kernel, wait k pid .getting tyisem = (.passed, kernel) ∧
      kernel.process = k.process ∧ Sems kernel tyisem tyosem (gets - 1) puts) ∨
    ∃ kernel, wait k pid .getting tyisem = (.blocked, kernel) ∧
      kernel.process = Function.update k.process pid (.waiting tyisem .getting) ∧
      Sems kernel tyisem tyosem gets puts := by
  have output : Tokens (wait k pid .getting tyisem).2 tyosem Point.Putting puts :=
    sems.output.wait_other sems.input.valid sems.apart.symm (not_ready_of_idle idle _)
  obtain ⟨some_, kernel, result, process, law, input⟩ | ⟨kernel, result, process, law, input⟩ :=
    sems.input.wait sems.law takes_getting (idle ▸ awake_idle)
      (not_ready_of_idle idle _)
  · rw [result] at output
    exact Or.inl ⟨some_, kernel, result, process, law, input, output, sems.apart⟩
  · rw [result] at output
    exact Or.inr ⟨kernel, result, process, law, input, output, sems.apart⟩

/-- The `wait` of `ttyputc`. -/
theorem Sems.wait_output (sems : Sems k tyisem tyosem gets puts) (idle : k.process pid = .idle)
    (ch : UInt8) (rest : List UInt8) :
    (0 < puts ∧ ∃ kernel, wait k pid (.putting ch rest) tyosem = (.passed, kernel) ∧
      kernel.process = k.process ∧ Sems kernel tyisem tyosem gets (puts - 1)) ∨
    ∃ kernel, wait k pid (.putting ch rest) tyosem = (.blocked, kernel) ∧
      kernel.process = Function.update k.process pid (.waiting tyosem (.putting ch rest)) ∧
      Sems kernel tyisem tyosem gets puts := by
  have input : Tokens (wait k pid (.putting ch rest) tyosem).2 tyisem Point.Getting gets :=
    sems.input.wait_other sems.output.valid sems.apart (not_ready_of_idle idle _)
  obtain ⟨some_, kernel, result, process, law, output⟩ | ⟨kernel, result, process, law, output⟩ :=
    sems.output.wait sems.law (takes_putting ch rest) (idle ▸ awake_idle)
      (not_ready_of_idle idle _)
  · rw [result] at input
    exact Or.inl ⟨some_, kernel, result, process, law, input, output, sems.apart⟩
  · rw [result] at input
    exact Or.inr ⟨kernel, result, process, law, input, output, sems.apart⟩

theorem idle_not_ready (taking : Point → Prop) (point : Point) (_ : taking point) :
    (Process.idle : Process Point) ≠ .ready point := by
  intro ready
  cases ready

theorem law_place_idle (law : Semaphores.Law k) {point : Point} (ready : k.process pid = .ready point) :
    Semaphores.Law (k.place pid .idle) := law.place (ready ▸ awake_ready) awake_idle

/-- A reader goes on. -/
theorem Sems.goOn_getting (sems : Sems k tyisem tyosem gets puts) (ready : k.process pid = .ready .getting) :
    0 < gets ∧ Sems (k.place pid .idle) tyisem tyosem (gets - 1) puts := by
  obtain ⟨some_, input⟩ := sems.input.goOn takes_getting ready (idle_not_ready _) awake_idle
  have output : Tokens (k.place pid .idle) tyosem Point.Putting puts := by
    refine sems.output.place (fun point putting isReady => ?_) (idle_not_ready _) awake_idle
    rw [ready] at isReady
    cases isReady
    exact putting
  exact ⟨some_, law_place_idle sems.law ready, input, output, sems.apart⟩

/-- A writer goes on. -/
theorem Sems.goOn_putting (sems : Sems k tyisem tyosem gets puts) {ch : UInt8} {rest : List UInt8}
    (ready : k.process pid = .ready (.putting ch rest)) :
    0 < puts ∧ Sems (k.place pid .idle) tyisem tyosem gets (puts - 1) := by
  obtain ⟨some_, output⟩ :=
    sems.output.goOn (takes_putting ch rest) ready (idle_not_ready _) awake_idle
  have input : Tokens (k.place pid .idle) tyisem Point.Getting gets := by
    refine sems.input.place (fun point getting isReady => ?_) (idle_not_ready _) awake_idle
    rw [ready] at isReady
    cases isReady
    exact getting
  exact ⟨some_, law_place_idle sems.law ready, input, output, sems.apart⟩

end Semaphores

/-- The characters of the input buffer. -/
def System.typed (s : System) (count : Nat) : List UInt8 :=
  contents (fun place : Nat => s.tyibuff place) tyIbuflen s.tyihead.toNat count

/-- The input buffer holds the characters that were stored and not yet taken, with one read for each
character that is available. A process may hold a read that it has been granted. -/
structure Input (s : System) (gets puts taking : Int) : Prop where
  sems : Sems s.kernel s.tyisem s.tyosem gets puts
  head : 0 ≤ s.tyihead ∧ s.tyihead < tyIbuflen
  tail : s.tyitail = ((s.tyihead.toNat + s.unread.length) % tyIbuflen : Nat)
  order : s.unread = s.typed s.unread.length
  room : s.unread.length ≤ tyIbuflen
  cursor : 0 ≤ s.tyicursor
  counted : gets + taking + s.tyicursor ≤ s.unread.length
  exact : s.tyimode ≠ .cbreak → (s.unread.length : Int) = gets + taking + s.tyicursor
  lineless : s.tyimode ≠ .cooked → s.tyicursor = 0

section Buffer

variable {s : System} {gets puts taking : Int} {ch : UInt8}

/-- Fields that the input does not depend on may change, and the kernel with its semaphores. -/
theorem Input.keeps {after : System} {getsAfter putsAfter takingAfter : Int} (input : Input s gets puts taking)
    (sems : Sems after.kernel after.tyisem after.tyosem getsAfter putsAfter)
    (same : getsAfter + takingAfter = gets + taking)
    (pointers : (after.tyihead, after.tyitail, after.tyicursor) = (s.tyihead, s.tyitail, s.tyicursor))
    (buffer : (after.tyibuff, after.unread, after.tyimode) = (s.tyibuff, s.unread, s.tyimode)) :
    Input after getsAfter putsAfter takingAfter := by
  simp only [Prod.mk.injEq] at pointers buffer
  obtain ⟨head, tail, cursor⟩ := pointers
  obtain ⟨buff, unread, mode⟩ := buffer
  refine ⟨sems, ?_, ?_, ?_, ?_, ?_, ?_, ?_, ?_⟩
  · exact head ▸ input.head
  · rw [tail, head, unread]
    exact input.tail
  · unfold System.typed
    rw [buff, head, unread]
    exact input.order
  · exact unread ▸ input.room
  · exact cursor ▸ input.cursor
  · rw [same, cursor, unread]
    exact input.counted
  · rw [same, cursor, unread, mode]
    exact input.exact
  · rw [mode, cursor]
    exact input.lineless

/-- A character is stored behind the others. -/
theorem typed_push (input : Input s gets puts taking) (room : s.unread.length < tyIbuflen) :
    contents (fun place : Nat => Function.update s.tyibuff s.tyitail ch place) tyIbuflen s.tyihead.toNat
      (s.unread.length + 1) = s.unread ++ [ch] := by
  have same : (fun place : Nat => Function.update s.tyibuff s.tyitail ch place) =
      Function.update (fun place : Nat => s.tyibuff place)
        ((s.tyihead.toNat + s.unread.length) % tyIbuflen) ch := by
    funext place
    rw [input.tail, Function.update_apply, Function.update_apply]
    simp only [Int.natCast_inj]
  rw [same, contents_push room]
  exact congrArg (· ++ [ch]) input.order.symm

/-- The pointer behind a character that was stored. -/
theorem insert_tail (ch : UInt8) (input : Input s gets puts taking) {wrap : Bool}
    (wraps : wrap = false → s.tyitail + 1 < tyIbuflen) :
    (insert ch wrap s).tyitail = ((s.tyihead.toNat + (s.unread.length + 1)) % tyIbuflen : Nat) := by
  have tail := input.tail
  unfold insert tyIbuflen at *
  dsimp only
  split
  case isTrue around => lia
  case isFalse inside =>
    have below : s.tyitail + 1 < 128 := by
      cases wrap with
      | false => exact wraps rfl
      | true => simpa using inside
    omega

/-- A character is stored while there is room, and the cursor, the grants and the kernel move with it. -/
theorem Input.store {kernel : Kernel Point} {cursor more : Int} (input : Input s gets puts taking) {wrap : Bool}
    (room : s.unread.length < tyIbuflen) (wraps : wrap = false → s.tyitail + 1 < tyIbuflen)
    (sems : Sems kernel s.tyisem s.tyosem more puts) (nonneg : 0 ≤ cursor)
    (counted : more + cursor ≤ gets + s.tyicursor + 1)
    (exact : s.tyimode ≠ .cbreak → more + cursor = gets + s.tyicursor + 1)
    (lineless : s.tyimode ≠ .cooked → cursor = 0) :
    Input { insert ch wrap s with kernel := kernel, tyicursor := cursor } more puts taking := by
  have length : (insert ch wrap s).unread.length = s.unread.length + 1 := by simp [insert]
  have before := input.counted
  refine ⟨sems, input.head, ?_, ?_, ?_, nonneg, ?_, fun mode => ?_, lineless⟩
  · dsimp only
    rw [length]
    exact insert_tail ch input wraps
  · dsimp only
    rw [length]
    exact (typed_push input room).symm
  · dsimp only
    rw [length]
    exact room
  · dsimp only
    rw [length]
    push_cast
    lia
  · have total := input.exact mode
    have now := exact mode
    dsimp only
    rw [length]
    push_cast
    lia

/-- The last characters of the line are taken back. -/
theorem Input.takeBack {cursor : Nat} {tail : Int} (input : Input s gets puts 0) {erased : Nat}
    (inLine : (erased : Int) + cursor = s.tyicursor) (cooked : s.tyimode = .cooked)
    (back : tail = ((s.tyihead.toNat + (s.unread.length - erased)) % tyIbuflen : Nat)) :
    Input { s with tyitail := tail, tyicursor := cursor, unread := s.unread.take (s.unread.length - erased) }
      gets puts 0 := by
  have nonneg := input.sems.input.nonneg
  have total := input.exact (by rw [cooked]; exact Mode.noConfusion)
  have room := input.room
  have fewer : s.unread.length - erased ≤ s.unread.length := Nat.sub_le _ _
  have length : (s.unread.take (s.unread.length - erased)).length = s.unread.length - erased := by
    rw [List.length_take, Nat.min_eq_left fewer]
  refine ⟨input.sems, input.head, ?_, ?_, ?_, Int.natCast_nonneg cursor, ?_, fun _ => ?_, fun mode => ?_⟩
  · dsimp only
    rw [length]
    exact back
  · dsimp only
    rw [length]
    have order := congrArg (List.take (s.unread.length - erased)) input.order
    unfold System.typed at order
    rw [contents_take fewer] at order
    exact order
  · dsimp only
    rw [length]
    lia
  · dsimp only
    rw [length]
    lia
  · dsimp only
    rw [length]
    lia
  · exact absurd cooked mode

theorem getcRest_eq (s : System) : (getcRest s).2 = { s with
    tyihead := if tyIbuflen ≤ s.tyihead + 1 then 0 else s.tyihead + 1
    unread := s.unread.tail
    returned := s.returned ++ [s.tyibuff s.tyihead] } := by
  unfold getcRest
  dsimp only
  split <;> rfl

/-- The first character is taken. -/
theorem Input.taken (input : Input s gets puts 1) (nonneg : 0 ≤ gets) :
    ∃ rest, s.unread = s.tyibuff s.tyihead :: rest ∧ (getcRest s).2.unread = rest ∧
      Input (getcRest s).2 gets puts 0 := by
  have counted := input.counted
  have cursor := input.cursor
  have head := input.head
  have tail := input.tail
  have room := input.room
  obtain ⟨left, length⟩ : ∃ left, s.unread.length = left + 1 := ⟨s.unread.length - 1, by lia⟩
  have first : s.tyibuff ((s.tyihead.toNat % tyIbuflen : Nat) : Int) = s.tyibuff s.tyihead := by
    unfold tyIbuflen at *
    congr 1
    lia
  have order := input.order
  unfold System.typed at order
  rw [length, contents_succ, first] at order
  have around : (if (tyIbuflen : Int) ≤ s.tyihead + 1 then 0 else s.tyihead + 1).toNat =
      (s.tyihead.toNat + 1) % tyIbuflen := by
    unfold tyIbuflen at *
    split <;> lia
  have unread : s.unread.tail = contents (fun place : Nat => s.tyibuff place) tyIbuflen
      ((s.tyihead.toNat + 1) % tyIbuflen) left := by rw [order, List.tail_cons]
  have shorter : s.unread.tail.length = left := by rw [List.length_tail, length, Nat.add_sub_cancel]
  refine ⟨s.unread.tail, by rw [unread]; exact order, by rw [getcRest_eq], ?_⟩
  rw [getcRest_eq]
  refine ⟨input.sems, ?_, ?_, ?_, ?_, cursor, ?_, fun mode => ?_, input.lineless⟩
  · dsimp only
    unfold tyIbuflen at *
    split <;> lia
  · dsimp only
    rw [around, shorter, tail, length, Nat.mod_add_mod]
    congr 2
    lia
  · unfold System.typed
    dsimp only
    rw [around, shorter]
    exact unread
  · dsimp only
    rw [shorter]
    lia
  · dsimp only
    rw [shorter]
    lia
  · have total := input.exact mode
    dsimp only
    rw [shorter]
    lia

end Buffer

/-- A character is stored only where there is room, and where the pointer is wrapped or stays inside; a
line is killed only where its start does not lie behind the end of the buffer; and the mode changes only
while nothing is stored. -/
def Fits (s : System) : Move → Prop
  | .type typed => match s.choose typed with
    | .store _ wrap _ => s.unread.length < tyIbuflen ∧ (wrap = false → s.tyitail + 1 < tyIbuflen)
    | .char _ | .line _ => s.unread.length < tyIbuflen
    | .kill => s.tyicursor ≤ s.tyitail
    | .nothing | .erase => True
  | .control .moder | .control .modec | .control .modek => s.unread = []
  | _ => True

/-- In which states a choice is made. -/
def Edit.Possible (s : System) : Edit → Prop
  | .nothing => True
  | .store _ _ signals => (signals = false → s.tyimode = .cbreak) ∧ (s.tyimode = .cooked → s.tyicursor = 0)
  | .char _ | .line _ | .kill => s.tyimode = .cooked
  | .erase => s.tyimode = .cooked ∧ 0 < s.tyicursor

section Changes

variable {s : System} {gets puts : Int} {pid : Nat}

theorem chooseCooked_possible (ch : UInt8) (cooked : s.tyimode = .cooked) : (s.chooseCooked ch).Possible s := by
  unfold System.chooseCooked
  split
  · exact cooked
  · split
    · split
      case isTrue some_ => exact ⟨cooked, some_⟩
      case isFalse => trivial
    · split
      · exact cooked
      · split
        · trivial
        · split
          · split
            case isTrue => trivial
            case isFalse start => exact ⟨fun silent => Bool.noConfusion silent, fun _ => by lia⟩
          · exact cooked

theorem choose_possible (s : System) (typed : UInt8) : (s.choose typed).Possible s := by
  unfold System.choose
  split
  case isTrue raw =>
    split
    · trivial
    · refine ⟨fun silent => Bool.noConfusion silent, fun cooked => ?_⟩
      rw [raw] at cooked
      cases cooked
  case isFalse notRaw =>
    split
    · trivial
    · split
      · trivial
      · split
        case isTrue cbreak =>
          split
          · trivial
          · refine ⟨fun _ => cbreak, fun cooked => ?_⟩
            rw [cbreak] at cooked
            cases cooked
        case isFalse notCbreak =>
          refine chooseCooked_possible _ ?_
          cases mode : s.tyimode with
          | raw => exact absurd mode notRaw
          | cbreak => exact absurd mode notCbreak
          | cooked => rfl

/-- A choice is carried out. -/
theorem Input.apply (input : Input s gets puts 0) (typed : UInt8) (fits : Fits s (.type typed)) :
    ∃ more, Input ((s.choose typed).apply s) more puts 0 := by
  have possible := choose_possible s typed
  have cursor := input.cursor
  have tail := input.tail
  unfold Fits at fits
  dsimp only at fits
  cases choice : s.choose typed with
  | nothing => exact ⟨gets, input⟩
  | store ch wrap signals =>
    rw [choice] at fits possible
    obtain ⟨room, wraps⟩ := fits
    cases signals with
    | true =>
      have one : gets + 1 + s.tyicursor = gets + s.tyicursor + 1 := by lia
      exact ⟨gets + 1, input.store room wraps input.sems.signal_input cursor one.le (fun _ => one)
        input.lineless⟩
    | false =>
      exact ⟨gets, input.store room wraps input.sems cursor (by lia)
        (fun mode => absurd (possible.1 rfl) mode) input.lineless⟩
  | char ch =>
    rw [choice] at fits possible
    have one : gets + (s.tyicursor + 1) = gets + s.tyicursor + 1 := by lia
    have stored : Input { insert ch true s with kernel := s.kernel, tyicursor := s.tyicursor + 1 } gets puts 0 :=
      input.store fits (fun wrap => Bool.noConfusion wrap) input.sems (by omega) one.le (fun _ => one)
        (fun mode => absurd possible mode)
    exact ⟨gets, stored⟩
  | line ch =>
    rw [choice] at fits possible
    have line := input.sems.signaln_input (s.tyicursor + 1).toNat
    rw [Int.toNat_of_nonneg (by omega)] at line
    exact ⟨gets + (s.tyicursor + 1), input.store fits (fun wrap => Bool.noConfusion wrap) line (le_refl 0)
      (by lia) (fun _ => by lia) (fun mode => absurd possible mode)⟩
  | erase =>
    rw [choice] at possible
    obtain ⟨cooked, some_⟩ := possible
    have total := input.exact (by rw [cooked]; exact Mode.noConfusion)
    have nonneg := input.sems.input.nonneg
    obtain ⟨left, isLeft⟩ : ∃ left : Nat, (1 : Nat) + (left : Int) = s.tyicursor :=
      ⟨(s.tyicursor - 1).toNat, by lia⟩
    have back : (if s.tyitail - 1 < 0 then s.tyitail - 1 + tyIbuflen else s.tyitail - 1) =
        ((s.tyihead.toNat + (s.unread.length - 1)) % tyIbuflen : Nat) := by
      unfold tyIbuflen at *
      split <;> lia
    have erased := input.takeBack isLeft cooked back
    rw [← List.dropLast_eq_take] at erased
    have isCursor : (left : Int) = s.tyicursor - 1 := by lia
    rw [isCursor] at erased
    exact ⟨gets, erased⟩
  | kill =>
    rw [choice] at fits possible
    have total := input.exact (by rw [possible]; exact Mode.noConfusion)
    have nonneg := input.sems.input.nonneg
    have whole : (s.tyicursor.toNat : Int) + (0 : Nat) = s.tyicursor := by lia
    have back : s.tyitail - s.tyicursor =
        ((s.tyihead.toNat + (s.unread.length - s.tyicursor.toNat)) % tyIbuflen : Nat) := by
      unfold tyIbuflen at *
      have inside : s.tyicursor ≤ s.tyitail := fits
      lia
    have inside : ¬ s.tyitail - s.tyicursor < 0 := by
      have inside : s.tyicursor ≤ s.tyitail := fits
      lia
    have killed := input.takeBack whole possible back
    refine ⟨gets, ?_⟩
    unfold Edit.apply
    dsimp only
    rw [if_neg inside]
    exact killed

/-- A character is typed. -/
theorem Input.type (input : Input s gets puts 0) (typed : UInt8) (fits : Fits s (.type typed)) :
    ∃ more, Input (ttyhandleIn typed s) more puts 0 := by
  obtain ⟨more, applied⟩ := input.apply typed fits
  obtain ⟨held, otail, buffer, tail, handled, _⟩ := handled_ttyhandleIn typed s
  refine ⟨more, ?_⟩
  rw [handled]
  exact applied.keeps applied.sems rfl rfl rfl

/-- `ttygetc` takes the first character or waits. -/
theorem Input.getc (input : Input s gets puts 0) (idle : s.kernel.process pid = .idle) :
    ∃ left, Input (ttygetc s pid).2 left puts 0 := by
  unfold ttygetc
  obtain ⟨some_, kernel, result, _, sems⟩ | ⟨kernel, result, _, sems⟩ := input.sems.wait_input idle
  · rw [result]
    have holding : Input { s with kernel := kernel } (gets - 1) puts 1 :=
      input.keeps sems (by omega) rfl rfl
    obtain ⟨_, _, _, taken⟩ := holding.taken (by omega)
    exact ⟨gets - 1, taken⟩
  · rw [result]
    exact ⟨gets, input.keeps sems rfl rfl rfl⟩

/-- A reader that was released takes the first character. -/
theorem Input.goOn_getting (input : Input s gets puts 0) (ready : s.kernel.process pid = .ready .getting) :
    ∃ left, Input (getcRest (s.place pid .idle)).2 left puts 0 := by
  obtain ⟨some_, sems⟩ := input.sems.goOn_getting ready
  have holding : Input (s.place pid .idle) (gets - 1) puts 1 := input.keeps sems (by omega) rfl rfl
  obtain ⟨_, _, _, taken⟩ := holding.taken (by omega)
  exact ⟨gets - 1, taken⟩

/-- Characters are put into the output buffer. -/
theorem Input.putLoop (chars : List UInt8) (input : Input s gets puts 0) (idle : s.kernel.process pid = .idle) :
    ∃ left, Input (putLoop pid chars s).2 gets left 0 := by
  induction chars generalizing s puts with
  | nil => exact ⟨puts, input⟩
  | cons ch rest inductionHypothesis =>
    unfold Tty.putLoop
    obtain ⟨_, kernel, result, process, sems⟩ | ⟨kernel, result, _, sems⟩ := input.sems.wait_output idle ch rest
    · rw [result]
      have stored : Input (putRest ch { s with kernel := kernel }) gets (puts - 1) 0 :=
        input.keeps sems rfl rfl rfl
      exact inductionHypothesis stored ((congrFun process pid).trans idle)
    · rw [result]
      exact ⟨puts, input.keeps sems rfl rfl rfl⟩

theorem Input.goOn_putting (input : Input s gets puts 0) {ch : UInt8} {rest : List UInt8}
    (ready : s.kernel.process pid = .ready (.putting ch rest)) :
    ∃ left, Input (Tty.putLoop pid rest (putRest ch (s.place pid .idle))).2 gets left 0 := by
  obtain ⟨_, sems⟩ := input.sems.goOn_putting ready
  have stored : Input (putRest ch (s.place pid .idle)) gets (puts - 1) 0 := input.keeps sems rfl rfl rfl
  exact stored.putLoop rest (place_self _)

theorem echoLoop_shape (uspace : Nat) (s : System) :
    ∃ tyehead, (echoLoop uspace s).2 = { s with tyehead := tyehead } := by
  induction uspace generalizing s with
  | zero => exact ⟨s.tyehead, rfl⟩
  | succ uspace inductionHypothesis =>
    unfold echoLoop
    split
    · exact inductionHypothesis _
    · exact ⟨s.tyehead, rfl⟩

theorem sendLoop_shape (chars : Nat) (s : System) :
    ∃ sent tyohead, sendLoop chars s = { s with sent := sent, tyohead := tyohead } := by
  induction chars generalizing s with
  | zero => exact ⟨s.sent, s.tyohead, rfl⟩
  | succ chars inductionHypothesis => exact inductionHypothesis _

/-- An output interrupt. -/
theorem Input.output (input : Input s gets puts 0) (level : Nat) :
    ∃ more, Input (ttyhandleOut level s) gets more 0 := by
  unfold ttyhandleOut
  split
  · exact ⟨puts, input⟩
  · split
    · exact ⟨puts, input⟩
    · obtain ⟨ehead, echoed⟩ := echoLoop_shape (uartFifoSize - level) s
      dsimp only
      obtain ⟨sent, ohead, sends⟩ := sendLoop_shape
        ((echoLoop (uartFifoSize - level) s).2.ochars (echoLoop (uartFifoSize - level) s).1)
        (echoLoop (uartFifoSize - level) s).2
      rw [sends, echoed]
      split
      · exact ⟨_, input.keeps (input.sems.signaln_output _) rfl rfl rfl⟩
      · exact ⟨puts, input.keeps input.sems rfl rfl rfl⟩

/-- The mode changes while nothing is stored. -/
theorem Input.setMode (input : Input s gets puts 0) (empty : s.unread = []) (mode : Mode) :
    Input { s with tyimode := mode } gets puts 0 := by
  have nonneg := input.sems.input.nonneg
  have cursor := input.cursor
  have counted := input.counted
  rw [empty, List.length_nil] at counted
  refine ⟨input.sems, input.head, input.tail, input.order, input.room, cursor, input.counted, fun _ => ?_,
    fun _ => ?_⟩
  · dsimp only
    rw [empty, List.length_nil]
    omega
  · dsimp only
    lia

/-- Every move that meets the condition keeps the input buffer. -/
theorem input_preserved (before : System) (move : Move) (reply : Option Int) (after : System)
    (holds : ∃ gets puts, Input before gets puts 0) (fits : Fits before move)
    (completed : step before move = some (reply, after)) : ∃ gets puts, Input after gets puts 0 := by
  obtain ⟨gets, puts, input⟩ := holds
  cases move with
  | type typed =>
    cases completed
    obtain ⟨more, typed⟩ := input.type typed fits
    exact ⟨more, puts, typed⟩
  | getc pid =>
    simp only [step] at completed
    split at completed
    case isTrue idle =>
      obtain ⟨left, taken⟩ := input.getc idle
      rw [Option.some.inj completed] at taken
      exact ⟨left, puts, taken⟩
    case isFalse => cases completed
  | putc pid ch =>
    simp only [step] at completed
    split at completed
    case isTrue idle =>
      obtain ⟨left, stored⟩ := input.putLoop (if ch = tyNewline ∧ before.tyocrlf then [tyReturn, ch] else [ch]) idle
      have isAfter : after = (ttyputc before pid ch).2 :=
        (congrArg Prod.snd (Option.some.inj completed)).symm
      rw [isAfter]
      exact ⟨gets, left, stored⟩
    case isFalse => cases completed
  | output level =>
    cases completed
    obtain ⟨more, sent⟩ := input.output level
    exact ⟨gets, more, sent⟩
  | control func =>
    cases completed
    cases func with
    | moder | modec | modek => exact ⟨gets, puts, input.setMode fits _⟩
    | ichars => exact ⟨gets, puts, input⟩
    | echo | noecho => exact ⟨gets, puts, input.keeps input.sems rfl rfl rfl⟩
  | goOn pid =>
    simp only [step] at completed
    split at completed
    case h_1 point ready =>
      have isAfter : after = (proceed before pid point).2 :=
        (congrArg Prod.snd (Option.some.inj completed)).symm
      rw [isAfter]
      cases point with
      | getting =>
        obtain ⟨left, taken⟩ := input.goOn_getting ready
        exact ⟨left, puts, taken⟩
      | putting ch rest =>
        obtain ⟨left, stored⟩ := input.goOn_putting ready
        exact ⟨gets, left, stored⟩
    all_goals cases completed

end Changes

/-- The two semaphores of a terminal could be made. -/
def Ready (s : System) : Prop := s.tyisem ≠ syserr ∧ s.tyosem ≠ syserr

instance (s : System) : Decidable (Ready s) := inferInstanceAs (Decidable (_ ∧ _))

theorem ttyinit_sems {used : Int → Processes.Sstate} (ready : Ready (ttyinit used)) :
    Sems (ttyinit used).kernel (ttyinit used).tyisem (ttyinit used).tyosem 0 tyObuflen ∧
    (ttyinit used).kernel.process = fun _ => .idle := by
  obtain ⟨inputGood, outputGood⟩ := ready
  have input := (atBoot_law used).made (le_refl 0) inputGood
  have output := input.law.made (Int.natCast_nonneg tyObuflen) outputGood
  have process := output.process.trans input.process
  have tokens : Tokens (semcreate (atBoot used) 0).2 (semcreate (atBoot used : Kernel Point) 0).1
      Point.Getting 0 := by
    refine input.tokens (le_refl 0) fun pid point _ ready => ?_
    rw [input.process] at ready
    cases ready
  refine ⟨⟨output.law, output.keeps tokens, ?_, output.apart tokens.valid⟩, process⟩
  refine output.tokens (Int.natCast_nonneg tyObuflen) fun pid point _ ready => ?_
  rw [process] at ready
  cases ready

theorem ttyinit_input {used : Int → Processes.Sstate} (ready : Ready (ttyinit used)) :
    Input (ttyinit used) 0 tyObuflen 0 :=
  ⟨(ttyinit_sems ready).1, ⟨le_refl 0, (by decide : (0 : Int) < tyIbuflen)⟩, rfl, rfl, Nat.zero_le _, le_refl 0, le_refl 0, fun _ => rfl,
    fun _ => rfl⟩

/-- In every run whose moves meet the condition the pointers lie in the buffer, no more characters are
stored than it has places, and none of them is overwritten. Outside of cbreak mode they are those that
the semaphore grants and those of the line. -/
theorem input_stays_inside (used : Int → Processes.Sstate) (ready : Ready (ttyinit used))
    (events : List (Event System Move (Option Int))) (last : System)
    (run : Run step (ttyinit used) events last) (met : Meets Fits events) :
    (0 ≤ last.tyihead ∧ last.tyihead < tyIbuflen) ∧ (0 ≤ last.tyitail ∧ last.tyitail < tyIbuflen) ∧
    (0 ≤ last.tyicursor ∧ last.tyicursor ≤ tyIbuflen) ∧ last.unread.length ≤ tyIbuflen ∧
    last.unread = last.typed last.unread.length ∧ (last.tyimode ≠ .cbreak → ∃ gets,
      Tokens last.kernel last.tyisem Point.Getting gets ∧ (last.unread.length : Int) = gets + last.tyicursor) := by
  obtain ⟨gets, puts, input⟩ := invariant_last (fun s => ∃ gets puts, Input s gets puts 0) Fits input_preserved
    _ _ _ run ⟨0, tyObuflen, ttyinit_input ready⟩ met
  have nonneg := input.sems.input.nonneg
  have counted := input.counted
  have tail := input.tail
  have room := input.room
  refine ⟨input.head, ?_, ⟨input.cursor, by lia⟩, room, input.order,
    fun mode => ⟨gets, input.sems.input, by rw [input.exact mode]; lia⟩⟩
  unfold tyIbuflen at *
  omega

/-- An executable form of the condition for the characters that are typed. -/
def System.fits (s : System) : Move → Bool
  | .type _ => s.unread.length < tyIbuflen ∧ s.tyitail + 1 < tyIbuflen ∧ s.tyicursor ≤ s.tyitail
  | .control _ => s.unread = []
  | _ => true

theorem fits_of_fits {s : System} {move : Move} (fits : s.fits move = true) : Fits s move := by
  cases move with
  | type typed =>
    have inside : s.unread.length < tyIbuflen ∧ s.tyitail + 1 < tyIbuflen ∧ s.tyicursor ≤ s.tyitail :=
      of_decide_eq_true fits
    unfold Fits
    dsimp only
    split
    · exact ⟨inside.1, fun _ => inside.2.1⟩
    · exact inside.1
    · exact inside.1
    · exact inside.2.2
    · trivial
    · trivial
  | control func =>
    have empty : s.unread = [] := of_decide_eq_true fits
    cases func with
    | moder | modec | modek => exact empty
    | ichars | echo | noecho => trivial
  | getc pid | putc pid ch | output level | goOn pid => trivial

/-- A line is typed and edited, and its first character is read. -/
theorem line_stays_inside : ∃ events last, Run step (ttyinit fun _ => .free) events last ∧
    last.returned = [97] ∧ last.unread = [99, 10] ∧ last.unread.length ≤ tyIbuflen ∧
    last.unread = last.typed last.unread.length := by
  obtain ⟨events, last, run, checked⟩ := trace_exists step (ttyinit fun _ => .free)
    [.type 97, .type 98, .type 8, .type 99, .type 13, .getc 1]
    (fun events last => decide (last.returned = [97] ∧ last.unread = [99, 10] ∧
      ∀ event ∈ events, event.before.fits event.call = true)) (by decide +kernel)
  obtain ⟨returned, unread, fits⟩ := of_decide_eq_true checked
  obtain ⟨_, _, _, room, order, _⟩ := input_stays_inside (fun _ => .free) (by decide +kernel) events last run
    fun event member => fits_of_fits (fits event member)
  exact ⟨events, last, run, returned, unread, room, order⟩

/-- In raw mode the pointer leaves the buffer with its last place, and in cbreak mode more characters are
stored than there are places. -/
theorem typed_characters_leave_buffer :
    (∃ events last, Run step (ttyinit fun _ => .free) events last ∧
      (∀ event ∈ events, event.call = .control .moder → event.before.unread = []) ∧
      ¬ last.tyitail < tyIbuflen) ∧
    ∃ events last, Run step (ttyinit fun _ => .free) events last ∧
      (∀ event ∈ events, event.call = .control .modek → event.before.unread = []) ∧
      ¬ last.unread.length ≤ tyIbuflen := by
  refine ⟨?_, ?_⟩
  · obtain ⟨events, last, run, checked⟩ := trace_exists step (ttyinit fun _ => .free)
      (.control .moder :: List.replicate 128 (.type 97))
      (fun events (last : System) => decide
        ((∀ event ∈ events, event.call = .control .moder → event.before.unread = []) ∧
          ¬ last.tyitail < tyIbuflen)) (by decide +kernel)
    exact ⟨events, last, run, of_decide_eq_true checked⟩
  · obtain ⟨events, last, run, checked⟩ := trace_exists step (ttyinit fun _ => .free)
      (.control .modek :: List.replicate 129 (.type 97))
      (fun events (last : System) => decide
        ((∀ event ∈ events, event.call = .control .modek → event.before.unread = []) ∧
          ¬ last.unread.length ≤ tyIbuflen)) (by decide +kernel)
    exact ⟨events, last, run, of_decide_eq_true checked⟩

end Xinu.Tty
