import Xinu.TtyInput

/-!
# What a reader of the terminal gets

The terminal as its users see it: the characters that were returned, those that may be read, and the
line that is being edited. In raw and cbreak mode a character may be read as soon as it was typed. In
cooked mode a line may be read when it was ended, and the erase and kill characters edit it before.

With one reader and a fixed mode, the driver follows this terminal in every run in which the characters
fit into the input buffer and nothing is typed into it in cbreak mode, where the driver never signals.
-/

namespace Xinu.Tty

open Semaphores Runs RingBuffer

/-- The terminal as its users see it. -/
structure Terminal where
  returned : List UInt8
  lines : List UInt8
  line : List UInt8
  waits : Bool

/-- The characters that were typed and not yet returned. -/
def Terminal.count (t : Terminal) : Nat := t.lines.length + t.line.length

/-- A character that may be read at once. -/
def Terminal.push (t : Terminal) (ch : UInt8) : Terminal := { t with lines := t.lines ++ [ch] }

/-- A carriage return stands for a newline. -/
def newlineOf (typed : UInt8) : UInt8 := if typed = tyReturn then tyNewline else typed

/-- A character is typed in cooked mode. At the end of the buffer a character may be dropped. -/
def Terminal.TypesCooked (t : Terminal) (ch : UInt8) (next : Terminal) : Prop :=
  if ch = tyKillch then next = { t with line := [] }
  else if ch = tyBacksp then next = { t with line := t.line.dropLast }
  else if ch = tyNewline ∨ ch = tyReturn then next = { t with lines := t.lines ++ t.line ++ [ch], line := [] }
  else if ch = tyEofch then
    (next = t ∧ (t.line ≠ [] ∨ tyIbuflen - 1 ≤ t.count)) ∨
      (next = t.push ch ∧ t.line = [] ∧ t.count < tyIbuflen)
  else
    (next = t ∧ tyIbuflen - 1 ≤ t.count) ∨
      (next = { t with line := t.line ++ [ch] } ∧ t.count < tyIbuflen)

/-- A character is typed. -/
def Terminal.Types (mode : Mode) (t : Terminal) (typed : UInt8) (next : Terminal) : Prop :=
  if mode = .raw then next = if t.count < tyIbuflen then t.push typed else t
  else if newlineOf typed = tyStrtch ∨ newlineOf typed = tyStopch then next = t
  else if mode = .cbreak then next = if t.count < tyIbuflen then t.push (newlineOf typed) else t
  else t.TypesCooked (newlineOf typed) next

/-- The first character that may be read is returned. -/
def Terminal.Reads (mode : Mode) (t : Terminal) (reply : Option Int) (next : Terminal) : Prop :=
  ∃ ch rest, t.lines = ch :: rest ∧
    reply = some (if mode = .cooked ∧ ch = tyEofch then eof else ch.toNat) ∧
    next = { t with returned := t.returned ++ [ch], lines := rest, waits := false }

/-- What the terminal does at a move. The reader waits only while nothing may be read. -/
def Terminal.Follows (mode : Mode) (reader : Nat) (t : Terminal) : Move → Option Int → Terminal → Prop
  | .type typed, _, next => t.Types mode typed next
  | .getc _, reply, next =>
    if t.lines = [] then reply = none ∧ next = { t with waits := true } else t.Reads mode reply next
  | .goOn pid, reply, next => if pid = reader ∧ t.waits then t.Reads mode reply next else next = t
  | _, _, next => next = t

/-- The terminal at the start. -/
def Terminal.start : Terminal := ⟨[], [], [], false⟩

/-- The settings of the input: flags for the mapping of the carriage return, for the erase, end-of-file
and kill characters and for flow control, with these characters. -/
structure Settings where
  tyicrlf : Bool
  tyierase : Bool
  tyierasec : UInt8
  tyeof : Bool
  tyeofch : UInt8
  tyikill : Bool
  tyikillc : UInt8
  tyoflow : Bool
  tyostop : UInt8
  tyostart : UInt8
deriving DecidableEq

def System.settings (s : System) : Settings :=
  ⟨s.tyicrlf, s.tyierase, s.tyierasec, s.tyeof, s.tyeofch, s.tyikill, s.tyikillc, s.tyoflow, s.tyostop, s.tyostart⟩

/-- The settings of `ttyinit`, which no call changes. -/
def defaults : Settings :=
  ⟨true, true, tyBacksp, true, tyEofch, true, tyKillch, true, tyStopch, tyStrtch⟩

/-- The driver shows a terminal. -/
structure Shows (mode : Mode) (reader : Nat) (s : System) (t : Terminal) : Prop where
  input : ∃ puts, Input s t.lines.length puts 0
  mode : s.tyimode = mode
  settings : s.settings = defaults
  returned : s.returned = t.returned
  unread : s.unread = t.lines ++ t.line
  cursor : s.tyicursor = t.line.length
  one : ∀ pid, (s.kernel.process pid).point = some .getting → pid = reader
  waits : t.waits = true ↔ (s.kernel.process reader).point = some .getting
  own : ∀ pid sem, s.kernel.process pid = .waiting sem .getting → sem = s.tyisem

/-- The mode is fixed, one process reads, and what is typed fits into the buffer and is not stored in
cbreak mode. -/
def OneReader (reader : Nat) (s : System) : Move → Prop
  | .type typed => Fits s (.type typed) ∧ (s.tyimode = .cbreak → s.choose typed = .nothing)
  | .getc pid => pid = reader
  | .control func => func ≠ .moder ∧ func ≠ .modec ∧ func ≠ .modek
  | _ => True

/-- What a choice does to the terminal. -/
def Edit.next (t : Terminal) : Edit → Terminal
  | .nothing => t
  | .store ch _ _ => t.push ch
  | .char ch => { t with line := t.line ++ [ch] }
  | .line ch => { t with lines := t.lines ++ t.line ++ [ch], line := [] }
  | .erase => { t with line := t.line.dropLast }
  | .kill => { t with line := [] }

/-- A choice that stores the character. -/
def Edit.Stores : Edit → Prop
  | .store _ _ _ | .char _ | .line _ => True
  | .nothing | .erase | .kill => False

section Typing

variable {mode : Mode} {reader : Nat} {s : System} {t : Terminal}

/-- The fields that only a reader changes. -/
def System.readerPart (s : System) : Mode × Settings × List UInt8 := (s.tyimode, s.settings, s.returned)

/-- What a choice leaves as it is. -/
theorem apply_frame (edit : Edit) (s : System) : (edit.apply s).readerPart = s.readerPart ∧
    (edit.apply s).tyisem = s.tyisem ∧ ∀ pid, Stays (s.kernel.process pid) ((edit.apply s).kernel.process pid) := by
  cases edit with
  | nothing | char ch | erase | kill => exact ⟨rfl, rfl, fun _ => Or.inl rfl⟩
  | store ch wrap signals =>
    cases signals with
    | true => exact ⟨rfl, rfl, signal_stays s.kernel s.tyisem⟩
    | false => exact ⟨rfl, rfl, fun _ => Or.inl rfl⟩
  | line ch => exact ⟨rfl, rfl, signaln_stays s.kernel s.tyisem _⟩

/-- The characters behind a choice, as long as the line has as many characters as the cursor says. -/
theorem apply_unread (edit : Edit) (unread : s.unread = t.lines ++ t.line) (cursor : s.tyicursor = t.line.length)
    (silent : ∀ ch wrap signals, edit = .store ch wrap signals → t.line = [])
    (erases : edit = .erase → 0 < s.tyicursor) :
    (edit.apply s).unread = (edit.next t).lines ++ (edit.next t).line ∧
    (edit.apply s).tyicursor = (edit.next t).line.length := by
  have length := congrArg List.length unread
  rw [List.length_append] at length
  cases edit with
  | nothing => exact ⟨unread, cursor⟩
  | char ch =>
    refine ⟨?_, ?_⟩
    · exact (congrArg (· ++ [ch]) unread).trans (List.append_assoc _ _ _)
    · unfold Edit.next Edit.apply insert
      dsimp only
      rw [cursor, List.length_append]
      rfl
  | store ch wrap signals =>
    have empty := silent ch wrap signals rfl
    rw [empty, List.append_nil] at unread
    rw [empty] at cursor
    have stored : (insert ch wrap s).unread = (t.push ch).lines ++ (t.push ch).line := by
      unfold Terminal.push insert
      dsimp only
      rw [empty, List.append_nil, unread]
    have same : (insert ch wrap s).tyicursor = (t.push ch).line.length := by
      unfold Terminal.push
      rw [empty]
      exact cursor
    cases signals with
    | true => exact ⟨stored, same⟩
    | false => exact ⟨stored, same⟩
  | line ch =>
    refine ⟨?_, rfl⟩
    unfold Edit.next Edit.apply insert
    dsimp only
    rw [unread, List.append_nil]
  | erase =>
    have some_ := erases rfl
    have notEmpty : t.line ≠ [] := by
      rintro empty
      rw [empty] at cursor
      simp [cursor] at some_
    refine ⟨?_, ?_⟩
    · unfold Edit.next Edit.apply
      dsimp only
      rw [unread, List.dropLast_append_of_ne_nil notEmpty]
    · unfold Edit.next Edit.apply
      dsimp only
      rw [List.length_dropLast]
      lia
  | kill =>
    refine ⟨?_, rfl⟩
    unfold Edit.next Edit.apply
    dsimp only
    have kept : s.unread.length - s.tyicursor.toNat = t.lines.length := by lia
    rw [kept, unread, List.take_left, List.append_nil]

/-- What a typed character does to the terminal. -/
theorem Shows.type (shows : Shows mode reader s t) (typed : UInt8) (fits : Fits s (.type typed))
    (silent : s.tyimode = .cbreak → s.choose typed = .nothing) :
    Shows mode reader (ttyhandleIn typed s) ((s.choose typed).next t) := by
  obtain ⟨puts, input⟩ := shows.input
  have possible := choose_possible s typed
  obtain ⟨frame, isem, stays⟩ := apply_frame (s.choose typed) s
  have noLine : s.tyicursor = 0 → t.line = [] := fun start => by
    have cursor := shows.cursor
    rw [start] at cursor
    exact List.length_eq_zero_iff.mp (by lia)
  obtain ⟨unread, cursor⟩ := apply_unread (s.choose typed) shows.unread shows.cursor
    (fun ch wrap signals choice => by
      rw [choice] at possible
      by_cases cooked : s.tyimode = .cooked
      · exact noLine (possible.2 cooked)
      · exact noLine (input.lineless cooked))
    (fun choice => by
      rw [choice] at possible
      exact possible.2)
  obtain ⟨held, otail, buffer, tail, handled, _⟩ := handled_ttyhandleIn typed s
  have sameWaits : ((s.choose typed).next t).waits = t.waits := by cases s.choose typed <;> rfl
  have sameReturned : ((s.choose typed).next t).returned = t.returned := by cases s.choose typed <;> rfl
  have granted : ∃ puts, Input ((s.choose typed).apply s) ((s.choose typed).next t).lines.length puts 0 := by
    by_cases cbreak : s.tyimode = .cbreak
    · rw [silent cbreak]
      exact ⟨puts, input⟩
    · obtain ⟨more, applied⟩ := input.apply typed fits
      have isMode : ((s.choose typed).apply s).tyimode = s.tyimode := congrArg Prod.fst frame
      have total := applied.exact (by rw [isMode]; exact cbreak)
      have length := congrArg List.length unread
      rw [List.length_append] at length
      have isMore : more = ((s.choose typed).next t).lines.length := by lia
      exact ⟨puts, isMore ▸ applied⟩
  obtain ⟨places, applied⟩ := granted
  rw [handled]
  have here : (((s.choose typed).apply s).beside held otail buffer tail).kernel =
      ((s.choose typed).apply s).kernel := rfl
  refine ⟨⟨places, applied.keeps applied.sems rfl rfl rfl⟩, ?_, ?_, ?_, unread, cursor, fun pid => ?_, ?_,
    fun pid sem waits => ?_⟩
  · exact (congrArg Prod.fst frame).trans shows.mode
  · exact (congrArg (Prod.fst ∘ Prod.snd) frame).trans shows.settings
  · rw [sameReturned]
    exact (congrArg (Prod.snd ∘ Prod.snd) frame).trans shows.returned
  · rw [here, (stays pid).point]
    exact shows.one pid
  · rw [here, (stays reader).point, sameWaits]
    exact shows.waits
  · exact (shows.own pid sem ((stays pid).waiting waits)).trans isem.symm

/-- The characters that are available are no more than those that may be read. -/
theorem Shows.avail_le (shows : Shows mode reader s t) : s.avail ≤ t.lines.length := by
  obtain ⟨puts, input⟩ := shows.input
  have counted := input.sems.input.count_le
  unfold System.avail
  rw [semcount_eq input.sems.input.valid]
  exact counted

/-- The choice in cooked mode with the settings of `ttyinit`. -/
theorem chooseCooked_eq (settings : s.settings = defaults) (ch : UInt8) : s.chooseCooked ch =
    if ch = tyKillch then .kill
    else if ch = tyBacksp then if 0 < s.tyicursor then .erase else .nothing
    else if ch = tyNewline ∨ ch = tyReturn then .line ch
    else if tyIbuflen - 1 ≤ s.avail + s.tyicursor then .nothing
    else if ch = tyEofch then if s.tyicursor ≠ 0 then .nothing else .store ch false true
    else .char ch := by
  unfold System.settings defaults at settings
  simp only [Settings.mk.injEq] at settings
  obtain ⟨_, erase, erasec, eofs, eofch, kill, killc, _⟩ := settings
  unfold System.chooseCooked
  simp only [erase, erasec, eofs, eofch, kill, killc, and_true]

/-- The driver chooses in cooked mode as the terminal does. -/
theorem Shows.types_cooked (shows : Shows mode reader s t) (ch : UInt8)
    (room : (s.chooseCooked ch).Stores → t.count < tyIbuflen) :
    t.TypesCooked ch ((s.chooseCooked ch).next t) := by
  have avail := shows.avail_le
  have cursor := shows.cursor
  rw [chooseCooked_eq shows.settings] at *
  unfold Terminal.TypesCooked
  split
  case isTrue => rfl
  case isFalse notKill =>
    rw [if_neg notKill] at room
    split
    case isTrue =>
      split
      case isTrue => rfl
      case isFalse none_ =>
        have empty : t.line = [] := List.length_eq_zero_iff.mp (by lia)
        have same : { t with line := t.line.dropLast } = t := by rw [empty, List.dropLast_nil, ← empty]
        exact same.symm
    case isFalse notErase =>
      rw [if_neg notErase] at room
      split
      case isTrue => rfl
      case isFalse notLine =>
        rw [if_neg notLine] at room
        have full : tyIbuflen - 1 ≤ s.avail + s.tyicursor → tyIbuflen - 1 ≤ t.count := by
          unfold Terminal.count
          lia
        by_cases enough : tyIbuflen - 1 ≤ s.avail + s.tyicursor
        · rw [if_pos enough]
          split
          · exact Or.inl ⟨rfl, Or.inr (full enough)⟩
          · exact Or.inl ⟨rfl, full enough⟩
        · rw [if_neg enough] at room ⊢
          split
          case isTrue isEof =>
            rw [if_pos isEof] at room
            split
            case isTrue inLine =>
              refine Or.inl ⟨rfl, Or.inl fun empty => inLine ?_⟩
              rw [cursor, empty]
              rfl
            case isFalse start =>
              rw [if_neg start] at room
              have empty : t.line = [] := List.length_eq_zero_iff.mp (by lia)
              exact Or.inr ⟨rfl, empty, room trivial⟩
          case isFalse notEof =>
            rw [if_neg notEof] at room
            exact Or.inr ⟨rfl, room trivial⟩

theorem Shows.count_eq (shows : Shows mode reader s t) : s.unread.length = t.count := by
  rw [shows.unread, List.length_append]
  rfl

theorem fits_room {typed : UInt8} (fits : Fits s (.type typed)) (stores : (s.choose typed).Stores) :
    s.unread.length < tyIbuflen := by
  unfold Fits at fits
  dsimp only at fits
  split at fits
  case h_1 => exact fits.1
  case h_2 => exact fits
  case h_3 => exact fits
  case h_4 choice =>
    rw [choice] at stores
    exact stores.elim
  case h_5 choice =>
    rw [choice] at stores
    exact stores.elim
  case h_6 choice =>
    rw [choice] at stores
    exact stores.elim

/-- The driver does with a typed character as the terminal does. -/
theorem Shows.types (shows : Shows mode reader s t) (typed : UInt8) (fits : Fits s (.type typed))
    (silent : s.tyimode = .cbreak → s.choose typed = .nothing) :
    t.Types mode typed ((s.choose typed).next t) := by
  have avail := shows.avail_le
  have room : (s.choose typed).Stores → t.count < tyIbuflen := fun stores => shows.count_eq ▸ fits_room fits stores
  have full : tyIbuflen ≤ s.avail → ¬ t.count < tyIbuflen := by
    unfold Terminal.count
    lia
  have settings := shows.settings
  unfold System.settings defaults at settings
  simp only [Settings.mk.injEq] at settings
  obtain ⟨crlf, _, _, _, _, _, _, oflow, ostop, ostart⟩ := settings
  have mapped : s.map typed = newlineOf typed := by
    unfold System.map newlineOf
    simp only [crlf, and_true]
  have choice : s.choose typed = if mode = .raw then if tyIbuflen ≤ s.avail then .nothing else .store typed false true
      else if newlineOf typed = tyStrtch then .nothing else if newlineOf typed = tyStopch then .nothing
      else if mode = .cbreak then if tyIbuflen ≤ s.avail then .nothing else .store (newlineOf typed) true false
      else s.chooseCooked (newlineOf typed) := by
    unfold System.choose
    simp only [mapped, oflow, ostart, ostop, shows.mode, true_and]
  rw [shows.mode] at silent
  rw [choice] at room silent ⊢
  unfold Terminal.Types
  split
  case isTrue raw =>
    rw [if_pos raw] at room
    split
    case isTrue enough => exact (if_neg (full enough)).symm
    case isFalse few =>
      rw [if_neg few] at room
      exact (if_pos (room trivial)).symm
  case isFalse notRaw =>
    rw [if_neg notRaw] at room silent
    by_cases starts : newlineOf typed = tyStrtch
    · rw [if_pos starts, if_pos (Or.inl starts)]
      rfl
    · rw [if_neg starts] at room silent ⊢
      by_cases stops : newlineOf typed = tyStopch
      · rw [if_pos stops, if_pos (Or.inr stops)]
        rfl
      · rw [if_neg stops] at room silent ⊢
        rw [if_neg (not_or.mpr ⟨starts, stops⟩)]
        split
        case isTrue cbreak =>
          have nothing := silent cbreak
          rw [if_pos cbreak] at nothing
          split
          case isTrue enough => exact (if_neg (full enough)).symm
          case isFalse few =>
            rw [if_neg few] at nothing
            cases nothing
        case isFalse notCbreak =>
          rw [if_neg notCbreak] at room
          exact shows.types_cooked _ room

end Typing

section Reading

variable {mode : Mode} {reader pid : Nat} {s : System} {t : Terminal}

/-- A process that does not read stays outside of `ttygetc`, and the others stay where they are. -/
def Unmoved (before after : Process Point) : Prop :=
  Stays before after ∨ (before.point ≠ some .getting ∧ after.point ≠ some .getting)

/-- Fields that the terminal does not depend on may change, and no reader comes or goes. -/
theorem Shows.keeps {after : System} (shows : Shows mode reader s t)
    (input : ∃ puts, Input after t.lines.length puts 0) (part : after.readerPart = s.readerPart)
    (line : (after.unread, after.tyicursor, after.tyisem) = (s.unread, s.tyicursor, s.tyisem))
    (unmoved : ∀ pid, Unmoved (s.kernel.process pid) (after.kernel.process pid)) : Shows mode reader after t := by
  simp only [Prod.mk.injEq] at line
  have points : ∀ pid, (after.kernel.process pid).point = some .getting ↔
      (s.kernel.process pid).point = some .getting := by
    intro pid
    obtain stays | ⟨before, later⟩ := unmoved pid
    · rw [stays.point]
    · exact iff_of_false later before
  refine ⟨input, ?_, ?_, ?_, ?_, ?_, fun pid gets => ?_, ?_, fun pid sem waits => ?_⟩
  · exact (congrArg Prod.fst part).trans shows.mode
  · exact (congrArg (Prod.fst ∘ Prod.snd) part).trans shows.settings
  · exact (congrArg (Prod.snd ∘ Prod.snd) part).trans shows.returned
  · exact line.1.trans shows.unread
  · exact line.2.1.trans shows.cursor
  · exact shows.one pid ((points pid).mp gets)
  · exact shows.waits.trans (points reader).symm
  · obtain stays | ⟨_, later⟩ := unmoved pid
    · exact (shows.own pid sem (stays.waiting waits)).trans line.2.2.symm
    · rw [waits] at later
      exact absurd rfl later

/-- A process comes to a point of a writer, or leaves one. -/
theorem unmoved_update {k : Kernel Point} {process : Process Point} (before : (k.process pid).point ≠ some .getting)
    (later : process.point ≠ some .getting) (other : Nat) :
    Unmoved (k.process other) (Function.update k.process pid process other) := by
  rcases eq_or_ne other pid with rfl | apart
  · rw [Function.update_self]
    exact Or.inr ⟨before, later⟩
  · rw [Function.update_of_ne apart]
    exact Or.inl (Or.inl rfl)

/-- Characters are put into the output buffer. -/
theorem Shows.putLoop (chars : List UInt8) (shows : Shows mode reader s t) (idle : s.kernel.process pid = .idle) :
    Shows mode reader (putLoop pid chars s).2 t := by
  induction chars generalizing s with
  | nil => exact shows
  | cons ch rest inductionHypothesis =>
    obtain ⟨puts, input⟩ := shows.input
    unfold Tty.putLoop
    obtain ⟨_, kernel, result, process, sems⟩ | ⟨kernel, result, process, sems⟩ :=
      input.sems.wait_output idle ch rest
    · rw [result]
      have stored : Shows mode reader (putRest ch { s with kernel := kernel }) t :=
        shows.keeps ⟨_, input.keeps sems rfl rfl rfl⟩ rfl rfl fun other =>
          Or.inl (Or.inl (congrFun process other))
      exact inductionHypothesis stored ((congrFun process pid).trans idle)
    · rw [result]
      refine shows.keeps ⟨_, input.keeps sems rfl rfl rfl⟩ rfl rfl fun other => ?_
      dsimp only
      rw [process]
      refine unmoved_update ?_ (by simp [Process.point]) other
      rw [idle]
      simp [Process.point]

/-- An output interrupt. -/
theorem Shows.output (shows : Shows mode reader s t) (level : Nat) :
    Shows mode reader (ttyhandleOut level s) t := by
  obtain ⟨puts, input⟩ := shows.input
  unfold ttyhandleOut
  split
  · exact shows
  · split
    · exact shows
    · obtain ⟨ehead, echoed⟩ := echoLoop_shape (uartFifoSize - level) s
      dsimp only
      obtain ⟨sent, ohead, sends⟩ := sendLoop_shape
        ((echoLoop (uartFifoSize - level) s).2.ochars (echoLoop (uartFifoSize - level) s).1)
        (echoLoop (uartFifoSize - level) s).2
      rw [sends, echoed]
      split
      · exact shows.keeps ⟨_, input.keeps (input.sems.signaln_output _) rfl rfl rfl⟩ rfl rfl fun pid =>
          Or.inl (signaln_stays _ _ _ pid)
      · exact shows.keeps ⟨_, input.keeps input.sems rfl rfl rfl⟩ rfl rfl fun _ => Or.inl (Or.inl rfl)

/-- The reader takes the first character that may be read. -/
theorem Shows.reads (shows : Shows mode reader s t) {kernel : Kernel Point} {puts : Int}
    (some_ : 0 < (t.lines.length : Int)) (sems : Sems kernel s.tyisem s.tyosem (t.lines.length - 1) puts)
    (nobody : ∀ pid, (kernel.process pid).point ≠ some .getting) :
    ∃ next, t.Reads mode (getcRest { s with kernel := kernel }).1 next ∧
      Shows mode reader (getcRest { s with kernel := kernel }).2 next := by
  obtain ⟨places, input⟩ := shows.input
  have holding : Input { s with kernel := kernel } (t.lines.length - 1) puts 1 :=
    input.keeps sems (by lia) rfl rfl
  obtain ⟨rest, unread, isRest, taken⟩ := holding.taken (by omega)
  cases lines : t.lines with
  | nil =>
    rw [lines] at some_
    cases some_
  | cons ch lines_ =>
    have same := unread.symm.trans (shows.unread.trans (congrArg (· ++ t.line) lines))
    obtain ⟨isFirst, isOthers⟩ := List.cons.inj same
    dsimp only at isFirst
    have settings := shows.settings
    unfold System.settings defaults at settings
    simp only [Settings.mk.injEq] at settings
    obtain ⟨_, _, _, eofs, eofch, _⟩ := settings
    refine ⟨_, ⟨ch, lines_, lines, ?_, rfl⟩, ?_⟩
    · unfold getcRest
      dsimp only
      rw [isFirst, shows.mode, eofs, eofch]
      by_cases ends : mode = .cooked ∧ ch = tyEofch
      · rw [if_pos ends, if_pos ⟨ends.1, rfl, ends.2⟩]
      · rw [if_neg ends, if_neg fun both => ends ⟨both.1, both.2.2⟩]
    · have length : (t.lines.length : Int) - 1 = lines_.length := by
        rw [lines, List.length_cons]
        push_cast
        lia
      rw [length] at taken
      refine ⟨⟨puts, taken⟩, ?_, ?_, ?_, ?_, ?_, fun pid gets => ?_, ?_, fun pid sem waits => ?_⟩
      · rw [getcRest_eq]
        exact shows.mode
      · rw [getcRest_eq]
        exact shows.settings
      · rw [getcRest_eq]
        dsimp only
        rw [isFirst, shows.returned]
      · rw [isRest]
        exact isOthers
      · rw [getcRest_eq]
        exact shows.cursor
      · rw [getcRest_eq] at gets
        exact absurd gets (nobody pid)
      · rw [getcRest_eq]
        exact iff_of_false Bool.noConfusion (nobody reader)
      · rw [getcRest_eq] at waits
        refine absurd ?_ (nobody pid)
        dsimp only at waits
        rw [waits]
        rfl

/-- Only the reader could have been released from its `wait`. -/
theorem Shows.nobody (shows : Shows mode reader s t) (awake : ∀ point, s.kernel.process reader ≠ .ready point)
    (pid : Nat) (point : Point) (getting : point.Getting) : s.kernel.process pid ≠ .ready point := by
  intro ready
  have isReader : pid = reader := by
    refine shows.one pid ?_
    rw [ready]
    cases point with
    | getting => rfl
    | putting ch rest => exact getting.elim
  exact awake point (isReader ▸ ready)

/-- The reader calls `ttygetc`. -/
theorem Shows.getc (shows : Shows mode reader s t) (idle : s.kernel.process reader = .idle) :
    ∃ next, t.Follows mode reader (.getc reader) (ttygetc s reader).1 next ∧
      Shows mode reader (ttygetc s reader).2 next := by
  obtain ⟨puts, input⟩ := shows.input
  have nobody := shows.nobody fun point ready => by
    rw [idle] at ready
    cases ready
  unfold ttygetc Terminal.Follows
  dsimp only
  obtain ⟨some_, kernel, result, process, sems⟩ | ⟨kernel, result, process, sems⟩ := input.sems.wait_input idle
  · rw [result]
    have notEmpty : t.lines ≠ [] := by
      rintro empty
      rw [empty] at some_
      cases some_
    obtain ⟨next, reads, later⟩ := shows.reads some_ sems fun pid gets => by
      rw [process] at gets
      have isReader := shows.one pid gets
      rw [isReader, idle] at gets
      cases gets
    exact ⟨next, by rw [if_neg notEmpty]; exact reads, later⟩
  · have none_ := input.sems.input.none_of_blocked nobody result
    have empty : t.lines = [] := List.length_eq_zero_iff.mp (by lia)
    rw [result]
    refine ⟨{ t with waits := true }, by rw [if_pos empty]; exact ⟨rfl, rfl⟩,
      ⟨puts, input.keeps sems rfl rfl rfl⟩, shows.mode, shows.settings, shows.returned, shows.unread,
      shows.cursor, fun pid gets => ?_, ?_, fun pid sem waits => ?_⟩
    · dsimp only at gets
      rw [process] at gets
      by_contra apart
      rw [Function.update_of_ne apart] at gets
      exact apart (shows.one pid gets)
    · dsimp only
      rw [process, Function.update_self]
      exact iff_of_true rfl rfl
    · dsimp only at waits
      rw [process] at waits
      rcases eq_or_ne pid reader with rfl | apart
      · rw [Function.update_self] at waits
        cases waits
        rfl
      · rw [Function.update_of_ne apart] at waits
        exact shows.own pid sem waits

/-- A process goes on. -/
theorem Shows.proceed (shows : Shows mode reader s t) {point : Point} (ready : s.kernel.process pid = .ready point) :
    ∃ next, t.Follows mode reader (.goOn pid) (proceed s pid point).1 next ∧
      Shows mode reader (proceed s pid point).2 next := by
  obtain ⟨puts, input⟩ := shows.input
  unfold Terminal.Follows
  dsimp only
  cases point with
  | getting =>
    have isReader : pid = reader := shows.one pid (by rw [ready]; rfl)
    have waits : t.waits = true := shows.waits.mpr (by rw [← isReader, ready]; rfl)
    obtain ⟨some_, sems⟩ := input.sems.goOn_getting ready
    obtain ⟨next, reads, later⟩ := shows.reads some_ sems fun other gets => by
      rcases eq_or_ne other pid with rfl | apart
      · rw [place_self] at gets
        cases gets
      · rw [place_of_ne apart] at gets
        exact apart ((shows.one other gets).trans isReader.symm)
    exact ⟨next, by rw [if_pos ⟨isReader, waits⟩]; exact reads, later⟩
  | putting ch rest =>
    have stays : ¬ (pid = reader ∧ t.waits = true) := by
      rintro ⟨isReader, waits⟩
      have gets := shows.waits.mp waits
      rw [← isReader, ready] at gets
      cases gets
    obtain ⟨_, sems⟩ := input.sems.goOn_putting ready
    have stored : Shows mode reader (putRest ch (s.place pid .idle)) t := by
      refine shows.keeps ⟨_, input.keeps sems rfl rfl rfl⟩ rfl rfl fun other => ?_
      refine unmoved_update ?_ (by simp [Process.point]) other
      rw [ready]
      simp [Process.point]
    exact ⟨t, by rw [if_neg stays], stored.putLoop rest (place_self _)⟩

/-- Every move that meets the condition does what the terminal does. -/
theorem shows_step (before : System) (move : Move) (reply : Option Int) (after : System) (t : Terminal)
    (shows : Shows mode reader before t) (met : OneReader reader before move)
    (completed : step before move = some (reply, after)) :
    ∃ next, t.Follows mode reader move reply next ∧ Shows mode reader after next := by
  cases move with
  | type typed =>
    cases completed
    exact ⟨_, shows.types typed met.1 met.2, shows.type typed met.1 met.2⟩
  | getc pid =>
    simp only [step] at completed
    split at completed
    case isTrue idle =>
      obtain rfl : pid = reader := met
      have result := shows.getc idle
      rw [Option.some.inj completed] at result
      exact result
    case isFalse => cases completed
  | putc pid ch =>
    simp only [step] at completed
    split at completed
    case isTrue idle =>
      have stored := shows.putLoop (if ch = tyNewline ∧ before.tyocrlf then [tyReturn, ch] else [ch]) idle
      have isAfter : after = (ttyputc before pid ch).2 := (congrArg Prod.snd (Option.some.inj completed)).symm
      rw [isAfter]
      exact ⟨t, rfl, stored⟩
    case isFalse => cases completed
  | output level =>
    cases completed
    exact ⟨t, rfl, shows.output level⟩
  | control func =>
    cases completed
    obtain ⟨puts, input⟩ := shows.input
    refine ⟨t, rfl, ?_⟩
    cases func with
    | moder => exact absurd rfl met.1
    | modec => exact absurd rfl met.2.1
    | modek => exact absurd rfl met.2.2
    | ichars => exact shows
    | echo | noecho =>
      exact shows.keeps ⟨puts, input.keeps input.sems rfl rfl rfl⟩ rfl rfl fun _ => Or.inl (Or.inl rfl)
  | goOn pid =>
    simp only [step] at completed
    split at completed
    case h_1 point ready =>
      have result := shows.proceed ready
      rw [Option.some.inj completed] at result
      exact result
    all_goals cases completed

end Reading

/-- The driver after `ttyinit`, in a mode. -/
def inMode (used : Int → Processes.Sstate) (mode : Mode) : System := { ttyinit used with tyimode := mode }

theorem inMode_shows {used : Int → Processes.Sstate} (ready : Ready (ttyinit used)) (mode : Mode) (reader : Nat) :
    Shows mode reader (inMode used mode) Terminal.start := by
  have idle : (inMode used mode).kernel.process = fun _ => .idle := (ttyinit_sems ready).2
  refine ⟨⟨tyObuflen, (ttyinit_input ready).setMode rfl mode⟩, rfl, rfl, rfl, rfl, rfl, fun pid gets => ?_, ?_,
    fun pid sem waits => ?_⟩
  · rw [idle] at gets
    cases gets
  · rw [idle]
    exact iff_of_false Bool.noConfusion (by simp [Process.point])
  · rw [idle] at waits
    cases waits

/-- In every mode, one reader gets what the terminal returns, in every run whose moves meet the condition.
A reader that waits is released as soon as a character may be read. -/
theorem reader_gets_what_was_typed (used : Int → Processes.Sstate) (ready : Ready (ttyinit used)) (mode : Mode)
    (reader : Nat) (events : List (Event System Move (Option Int))) (last : System)
    (run : Run step (inMode used mode) events last) (met : Meets (OneReader reader) events) :
    ∃ final, Follows (Terminal.Follows mode reader) Terminal.start events final ∧
      last.returned = final.returned ∧ last.unread = final.lines ++ final.line ∧
      (final.waits = true → final.lines ≠ [] → last.kernel.process reader = .ready .getting) := by
  obtain ⟨final, followed, shows⟩ := simulation_run (Shows mode reader) (OneReader reader)
    (Terminal.Follows mode reader) shows_step _ _ _ run Terminal.start (inMode_shows ready mode reader) met
  obtain ⟨puts, input⟩ := shows.input
  refine ⟨final, followed, shows.returned, shows.unread, fun waits some_ => ?_⟩
  have gets := shows.waits.mp waits
  cases process : last.kernel.process reader with
  | idle =>
    rw [process] at gets
    cases gets
  | ready point =>
    rw [process] at gets
    exact congrArg Process.ready (Option.some.inj gets)
  | waiting sem point =>
    rw [process] at gets
    obtain rfl : point = .getting := Option.some.inj gets
    rw [shows.own reader sem process] at process
    have nobody := shows.nobody fun point isReady => by
      rw [process] at isReady
      cases isReady
    have none_ := input.sems.input.none_of_waiting input.sems.law nobody process
    exact absurd (List.length_eq_zero_iff.mp (by omega)) some_

/-- An executable form of the condition. -/
def System.oneReader (s : System) (reader : Nat) : Move → Bool
  | .type typed => s.fits (.type typed) ∧ s.tyimode ≠ .cbreak
  | .getc pid => pid = reader
  | .control _ => false
  | _ => true

theorem oneReader_of_oneReader {s : System} {reader : Nat} {move : Move} (met : s.oneReader reader move = true) :
    OneReader reader s move := by
  cases move with
  | type typed =>
    obtain ⟨fits, notCbreak⟩ : s.fits (.type typed) = true ∧ s.tyimode ≠ .cbreak := of_decide_eq_true met
    exact ⟨fits_of_fits fits, fun cbreak => absurd cbreak notCbreak⟩
  | getc pid =>
    have isReader : pid = reader := of_decide_eq_true met
    exact isReader
  | control func => cases met
  | putc pid ch | output level | goOn pid => trivial

/-- A reader waits while a line is typed and edited, and gets the line. -/
theorem reader_gets_edited_line : ∃ events last, Run step (inMode (fun _ => .free) .cooked) events last ∧
    last.returned = [98, 10] ∧ ∃ final, Follows (Terminal.Follows .cooked 1) Terminal.start events final ∧
      final.returned = [98, 10] := by
  obtain ⟨events, last, run, checked⟩ := trace_exists step (inMode (fun _ => .free) .cooked)
    [.getc 1, .type 97, .type 8, .type 98, .type 13, .goOn 1, .getc 1]
    (fun events last => decide (last.returned = [98, 10] ∧
      ∀ event ∈ events, event.before.oneReader 1 event.call = true)) (by decide +kernel)
  obtain ⟨returned, met⟩ := of_decide_eq_true checked
  obtain ⟨final, followed, same, _⟩ := reader_gets_what_was_typed (fun _ => .free) (by decide +kernel) .cooked 1
    events last run fun event member => oneReader_of_oneReader (met event member)
  exact ⟨events, last, run, returned, final, followed, same.symm.trans returned⟩

/-- In cbreak mode a character that was stored cannot be read. -/
theorem reader_misses_character : ∃ events last, Run step (inMode (fun _ => .free) .cbreak) events last ∧
    last.unread = [97] ∧ ∀ final, ¬ Follows (Terminal.Follows .cbreak 1) Terminal.start events final := by
  obtain ⟨events, last, run, checked⟩ := trace_exists step (inMode (fun _ => .free) .cbreak)
    [.type 97, .getc 1]
    (fun events last => decide (last.unread = [97] ∧
      events.map (fun event => (event.call, event.reply)) = [(.type 97, none), (.getc 1, none)]))
    (by decide +kernel)
  obtain ⟨unread, calls⟩ := of_decide_eq_true checked
  refine ⟨events, last, run, unread, fun final followed => ?_⟩
  have two : events.length = 2 := by simpa using congrArg List.length calls
  obtain ⟨first, second, rfl⟩ := List.length_eq_two.mp two
  obtain ⟨middle, typed, next, read, _⟩ := followed
  simp only [List.map_cons, List.map_nil, List.cons.injEq, Prod.mk.injEq, and_true] at calls
  obtain ⟨⟨isType, _⟩, isGetc, blocked⟩ := calls
  rw [isType] at typed
  rw [isGetc, blocked] at read
  have isMiddle : middle = Terminal.start.push 97 := typed
  rw [isMiddle] at read
  obtain ⟨ch, rest, _, replied, _⟩ : (Terminal.start.push 97).Reads .cbreak none next := read
  cases replied

end Xinu.Tty
