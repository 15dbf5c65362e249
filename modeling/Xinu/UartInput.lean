import Xinu.Uart

/-!
# The input of the UART

The bytes in the input buffer are as many as the semaphore counts and the released readers will
take, so that a reader always finds a byte behind its `wait`. The bytes that were kept are those that
were taken and those in the buffer, in order.
-/

namespace Xinu.Uart

open Semaphores Runs RingBuffer

def Point.Removing : Point → Prop
  | .removing _ _ _ => True
  | .storing _ _ => False

def Point.Storing : Point → Prop
  | .removing _ _ _ => False
  | .storing _ _ => True

/-- None of the bytes ends a line. -/
def Plain (buf : List UInt8) : Prop := ∀ c ∈ buf, endsLine c = false

/-- The last bytes that were delivered to a process. -/
def Holds (delivered : List (Nat × UInt8)) (pid : Nat) (buf : List UInt8) : Prop :=
  buf <:+ (delivered.filter fun entry => entry.1 = pid).map Prod.snd

/-- What a process inside of `uartRead` has stored. -/
def Fits (delivered : List (Nat × UInt8)) (pid : Nat) : Point → Prop
  | .removing _ count buf => Plain buf ∧ buf.length = count ∧ Holds delivered pid buf
  | .storing ch (.echo _ count buf) => ∃ front, buf = front ++ [ch] ∧ Plain front ∧ front.length = count ∧
    Holds delivered pid buf
  | .storing _ (.write _ _) => True

/-- A process goes on or will go on at a point. -/
def At (process : Process Point) (point : Point) : Prop :=
  process = .ready point ∨ ∃ sem, process = .waiting sem point

/-- The law of the driver. A process may be about to remove a byte, or to store one. -/
structure Law (s : System) (removing storing : Int) : Prop where
  present : s.csr = true
  sems : Semaphores.Law s.kernel
  apart : s.isema ≠ s.osema
  input : Tokens s.kernel s.isema Point.Removing (s.icount - removing)
  output : Tokens s.kernel s.osema Point.Storing (uartOblen - s.ocount - storing)
  icount : 0 ≤ s.icount ∧ s.icount ≤ uartIblen
  ocount : 0 ≤ s.ocount ∧ s.ocount ≤ uartOblen
  istart : s.istart < uartIblen
  ostart : s.ostart < uartOblen
  kept : (s.received.filter Prod.snd).map Prod.fst =
    s.taken.map Prod.fst ++ contents s.input uartIblen s.istart s.icount.toNat
  lost : s.ovrrn = UInt32.ofNat (s.received.filter fun entry => !entry.2).length
  order : s.delivered.map Prod.snd = s.taken.map fun entry => mapReturn entry.1 entry.2
  fits : ∀ pid point, At (s.kernel.process pid) point → Fits s.delivered pid point

/-- What a call returns: `uartRead` counts its bytes without the one that ends a line. -/
def Good (delivered : List (Nat × UInt8)) (pid : Nat) : Reply → Prop
  | .read count buf => Holds delivered pid buf ∧ (Plain buf ∧ count = buf.length ∨
    ∃ front c, buf = front ++ [c] ∧ endsLine c = true ∧ Plain front ∧ count = front.length)
  | .wrote _ | .control _ => True

section Processes

variable {s : System} {pid : Nat} {point : Point} {removing storing : Int}

theorem idle_not_ready (idle : s.kernel.process pid = .idle) (taking : Point → Prop) :
    ∀ point, taking point → s.kernel.process pid ≠ .ready point := by
  intro point _ ready
  rw [idle] at ready
  cases ready

theorem at_update {process : Nat → Process Point} {this : Nat} {later : Process Point}
    (here : At (Function.update process pid later this) point) :
    this = pid ∧ At later point ∨ At (process this) point := by
  rcases eq_or_ne this pid with rfl | apart
  · rw [Function.update_self] at here
    exact Or.inl ⟨rfl, here⟩
  · rw [Function.update_of_ne apart] at here
    exact Or.inr here

/-- The processes and semaphores change. -/
theorem Law.switch (law : Law s removing storing) {kernel : Kernel Point} {first second : Int}
    (sems : Semaphores.Law kernel)
    (input : Tokens kernel s.isema Point.Removing (s.icount - first))
    (output : Tokens kernel s.osema Point.Storing (uartOblen - s.ocount - second))
    (fits : ∀ pid point, At (kernel.process pid) point → Fits s.delivered pid point) :
    Law { s with kernel := kernel } first second :=
  ⟨law.present, sems, law.apart, input, output, law.icount, law.ocount, law.istart, law.ostart, law.kept, law.lost,
    law.order, fits⟩

/-- A process comes to the `wait` of `uartRead`. -/
theorem Law.waitInput (law : Law s 0 0) (idle : s.kernel.process pid = .idle) {left count : Nat}
    {buf : List UInt8} (fits : Fits s.delivered pid (.removing left count buf)) :
    (∃ kernel, wait s.kernel pid (.removing left count buf) s.isema = (.passed, kernel) ∧
      kernel.process = s.kernel.process ∧ Law { s with kernel := kernel } 1 0) ∨
    ∃ kernel, wait s.kernel pid (.removing left count buf) s.isema = (.blocked, kernel) ∧
      Law { s with kernel := kernel } 0 0 := by
  have output := @Tokens.wait_other _ s.kernel s.osema s.isema Point.Storing _ pid (.removing left count buf)
    law.output law.input.valid law.apart.symm (idle_not_ready idle _)
  obtain ⟨_, kernel, result, process, sems, input⟩ | ⟨kernel, result, process, sems, input⟩ :=
    @Tokens.wait _ s.kernel s.isema Point.Removing _ pid (.removing left count buf) law.input law.sems
      trivial (idle ▸ awake_idle) (idle_not_ready idle _)
  · rw [result] at output
    refine Or.inl ⟨kernel, result, process, law.switch sems ?_ output (process ▸ law.fits)⟩
    rw [sub_zero] at input
    exact input
  · rw [result] at output
    refine Or.inr ⟨kernel, result, law.switch sems input output fun this point here => ?_⟩
    rw [process] at here
    obtain ⟨rfl, new⟩ | old := at_update here
    · have same : Point.removing left count buf = point := by simpa [At] using new
      exact same ▸ fits
    · exact law.fits this point old

/-- A process comes to the `wait` of `uartWrite`. -/
theorem Law.waitOutput (law : Law s 0 0) (idle : s.kernel.process pid = .idle) {ch : UInt8}
    {caller : Caller} (fits : Fits s.delivered pid (.storing ch caller)) :
    (∃ kernel, wait s.kernel pid (.storing ch caller) s.osema = (.passed, kernel) ∧
      kernel.process = s.kernel.process ∧ Law { s with kernel := kernel } 0 1) ∨
    ∃ kernel, wait s.kernel pid (.storing ch caller) s.osema = (.blocked, kernel) ∧
      Law { s with kernel := kernel } 0 0 := by
  have input := @Tokens.wait_other _ s.kernel s.isema s.osema Point.Removing _ pid (.storing ch caller)
    law.input law.output.valid law.apart (idle_not_ready idle _)
  obtain ⟨_, kernel, result, process, sems, output⟩ | ⟨kernel, result, process, sems, output⟩ :=
    @Tokens.wait _ s.kernel s.osema Point.Storing _ pid (.storing ch caller) law.output law.sems
      trivial (idle ▸ awake_idle) (idle_not_ready idle _)
  · rw [result] at input
    refine Or.inl ⟨kernel, result, process, law.switch sems input ?_ (process ▸ law.fits)⟩
    rw [sub_zero] at output
    exact output
  · rw [result] at input
    refine Or.inr ⟨kernel, result, law.switch sems input output fun this point here => ?_⟩
    rw [process] at here
    obtain ⟨rfl, new⟩ | old := at_update here
    · have same : Point.storing ch caller = point := by simpa [At] using new
      exact same ▸ fits
    · exact law.fits this point old

end Processes

section Bytes

variable {s : System} {pid : Nat} {ch : UInt8} {caller : Caller}

/-- A byte is stored in the place that the process has. -/
theorem Law.storeByte (law : Law s 0 1) (pid : Nat) (ch : UInt8) : Law (storeByte s pid ch) 0 0 := by
  have room := law.output.nonneg
  have low := law.ocount
  refine ⟨law.present, law.sems, law.apart, law.input, ?_, law.icount, ?_, law.istart, law.ostart, law.kept, law.lost,
    law.order, law.fits⟩
  · have same : (uartOblen : Int) - s.ocount - 1 = uartOblen - (s.ocount + 1) - 0 := by lia
    exact same ▸ law.output
  · have count : (Uart.storeByte s pid ch).ocount = s.ocount + 1 := rfl
    rw [count]
    lia

/-- One turn of `uartWrite`. -/
theorem Law.putByte (law : Law s 0 0) (idle : s.kernel.process pid = .idle)
    (fits : Fits s.delivered pid (.storing ch caller)) :
    Law (putByte s pid ch caller).2 0 0 ∧ (putByte s pid ch caller).2.delivered = s.delivered ∧
      ((putByte s pid ch caller).1 ≠ .blocked →
        (putByte s pid ch caller).2.kernel.process pid = .idle) := by
  unfold Uart.putByte
  split
  case isTrue =>
    exact ⟨⟨law.present, law.sems, law.apart, law.input, law.output, law.icount, law.ocount, law.istart, law.ostart,
      law.kept, law.lost, law.order, law.fits⟩, rfl, fun _ => idle⟩
  case isFalse =>
    split
    case isTrue => exact ⟨law, rfl, fun _ => idle⟩
    case isFalse =>
      obtain ⟨kernel, result, process, passed⟩ | ⟨kernel, result, blocked⟩ := law.waitOutput idle fits
      · rw [result]
        refine ⟨passed.storeByte pid ch, rfl, fun _ => ?_⟩
        have still : kernel.process pid = .idle := by rw [process, idle]
        exact still
      · rw [result]
        exact ⟨blocked, rfl, fun notBlocked => absurd rfl notBlocked⟩

/-- The loop of `uartWrite`. -/
theorem Law.writeLoop (bytes : List UInt8) (count : Nat) (law : Law s 0 0)
    (idle : s.kernel.process pid = .idle) : Law (writeLoop pid bytes count s).2 0 0 ∧
      (writeLoop pid bytes count s).2.delivered = s.delivered := by
  induction bytes generalizing s count with
  | nil => exact ⟨law, rfl⟩
  | cons ch rest inductionHypothesis =>
    obtain ⟨lawPut, delivered, still⟩ := @Law.putByte s pid ch (.write count rest) law idle trivial
    unfold Uart.writeLoop
    split
    case h_1 after put =>
      rw [put] at lawPut delivered still
      obtain ⟨lawRest, same⟩ := inductionHypothesis (count + 1) lawPut (still (by simp))
      exact ⟨lawRest, same.trans delivered⟩
    case h_2 after put =>
      rw [put] at lawPut delivered
      exact ⟨lawPut, delivered⟩
    case h_3 after put =>
      rw [put] at lawPut delivered
      exact ⟨lawPut, delivered⟩

theorem writeLoop_reply (bytes : List UInt8) (count : Nat) (s : System) {reply : Reply}
    (isReply : (Uart.writeLoop pid bytes count s).1 = some reply) : ∃ total, reply = .wrote total := by
  induction bytes generalizing s count with
  | nil => exact ⟨count, (Option.some.inj isReply).symm⟩
  | cons ch rest inductionHypothesis =>
    unfold Uart.writeLoop at isReply
    split at isReply
    case h_1 after put => exact inductionHypothesis (count + 1) after isReply
    case h_2 => exact ⟨count, (Option.some.inj isReply).symm⟩
    case h_3 => cases isReply

/-- One more byte is delivered to a process, and the others keep what they have. -/
theorem Holds.push {delivered : List (Nat × UInt8)} {buf : List UInt8} (holds : Holds delivered pid buf)
    (c : UInt8) : Holds (delivered ++ [(pid, c)]) pid (buf ++ [c]) := by
  obtain ⟨earlier, split_⟩ := holds
  refine ⟨earlier, ?_⟩
  rw [List.filter_append, List.map_append, ← split_]
  simp

theorem Holds.other {delivered : List (Nat × UInt8)} {buf : List UInt8} {this : Nat} (apart : this ≠ pid)
    (holds : Holds delivered this buf) (c : UInt8) : Holds (delivered ++ [(pid, c)]) this buf := by
  have same : ([(pid, c)] : List (Nat × UInt8)).filter (fun entry => entry.1 = this) = [] := by
    simp [apart.symm]
  unfold Holds
  rw [List.filter_append, same, List.append_nil]
  exact holds

theorem Fits.other {delivered : List (Nat × UInt8)} {point : Point} {this : Nat} (apart : this ≠ pid)
    (fits : Fits delivered this point) (c : UInt8) : Fits (delivered ++ [(pid, c)]) this point := by
  cases point with
  | removing left count buf => exact ⟨fits.1, fits.2.1, fits.2.2.other apart c⟩
  | storing ch caller =>
    cases caller with
    | write count rest => trivial
    | echo left count buf =>
      obtain ⟨front, isBuf, plain, length, holds⟩ := fits
      exact ⟨front, isBuf, plain, length, holds.other apart c⟩

/-- A byte is removed by a process that may. -/
theorem Law.removeByte (law : Law s 1 0) (idle : s.kernel.process pid = .idle) :
    Law (removeByte s pid) 0 0 := by
  have some_ := law.input.nonneg
  have high := law.icount
  obtain ⟨left, more⟩ : ∃ left, s.icount.toNat = left + 1 := ⟨s.icount.toNat - 1, by lia⟩
  have fewer : (s.icount - 1).toNat = left := by lia
  refine ⟨law.present, law.sems, law.apart, ?_, law.output, ?_, law.ocount, Nat.mod_lt _ (by decide), law.ostart, ?_,
    law.lost, ?_, fun this point here => ?_⟩
  · have same : s.icount - 1 = s.icount - 1 - 0 := by omega
    exact same ▸ law.input
  · have count : (Uart.removeByte s pid).icount = s.icount - 1 := rfl
    rw [count]
    lia
  · have kept := law.kept
    rw [more, contents_succ, Nat.mod_eq_of_lt law.istart] at kept
    have count : (Uart.removeByte s pid).icount = s.icount - 1 := rfl
    have received : (Uart.removeByte s pid).received = s.received := rfl
    have taken : (Uart.removeByte s pid).taken = s.taken ++ [(s.input s.istart, s.icrnl)] := rfl
    rw [count, received, taken, kept, fewer, List.map_append, List.append_assoc]
    rfl
  · have delivered : (Uart.removeByte s pid).delivered = s.delivered ++ [(pid, s.next)] := rfl
    have taken : (Uart.removeByte s pid).taken = s.taken ++ [(s.input s.istart, s.icrnl)] := rfl
    rw [delivered, taken, List.map_append, List.map_append, law.order]
    rfl
  · have apart : this ≠ pid := by
      rintro rfl
      have here_ : At (s.kernel.process this) point := here
      rw [idle] at here_
      simp [At] at here_
    exact (law.fits this point here).other apart s.next

end Bytes

/-- The law after a part of a call, with what the call returns if it is over. -/
def Served (pid : Nat) (result : Option Reply × System) : Prop :=
  Law result.2 0 0 ∧ ∀ reply, result.1 = some reply → Good result.2.delivered pid reply

section Reading

variable {s : System} {pid left count : Nat} {buf : List UInt8} {c : UInt8}
  {next : Nat → List UInt8 → System → Option Reply × System}

theorem Law.ask (law : Law s 0 0) (bytes : List UInt8) : Law (s.ask pid bytes) 0 0 :=
  ⟨law.present, law.sems, law.apart, law.input, law.output, law.icount, law.ocount, law.istart, law.ostart, law.kept,
    law.lost, law.order, law.fits⟩

/-- The echo of a byte. -/
theorem Law.echoByte (law : Law s 0 0) (idle : s.kernel.process pid = .idle) {caller : Caller}
    (fits : Fits s.delivered pid (.storing c caller)) :
    Law (echoByte s pid c caller).2 0 0 ∧ (echoByte s pid c caller).2.delivered = s.delivered ∧
      ((echoByte s pid c caller).1 ≠ .blocked →
        (echoByte s pid c caller).2.kernel.process pid = .idle) := by
  unfold Uart.echoByte
  split
  case isTrue =>
    split
    case isTrue => exact ⟨law, rfl, fun _ => idle⟩
    case isFalse => exact (law.ask [c]).putByte idle fits
  case isFalse => exact ⟨law, rfl, fun _ => idle⟩

/-- What the rest of a `uartRead` does with bytes none of which ends a line. -/
def Continues (pid : Nat) (next : Nat → List UInt8 → System → Option Reply × System) : Prop :=
  ∀ count buf s, Law s 0 0 → s.kernel.process pid = .idle → Plain buf → buf.length = count →
    Holds s.delivered pid buf → Served pid (next count buf s)

/-- The end of a turn of `uartRead`. -/
theorem Continues.readNext (continues : Continues pid next) (law : Law s 0 0)
    (idle : s.kernel.process pid = .idle) {front : List UInt8} (plain : Plain front)
    (length : front.length = count) (holds : Holds s.delivered pid (front ++ [c])) :
    Served pid (readNext next count (front ++ [c]) c s) := by
  unfold Uart.readNext
  split
  case isTrue ends =>
    refine ⟨law, fun reply isReply => ?_⟩
    obtain rfl := Option.some.inj isReply
    exact ⟨holds, Or.inr ⟨front, c, rfl, ends, plain, by rw [length]⟩⟩
  case isFalse goes =>
    refine continues (count + 1) (front ++ [c]) s law idle (fun byte member => ?_) ?_ holds
    · rcases List.mem_append.mp member with old | new
      · exact plain byte old
      · obtain rfl := List.mem_singleton.mp new
        simpa using goes
    · rw [List.length_append, length]
      rfl

/-- A turn of `uartRead` behind its `wait`. -/
theorem Continues.readTurn (continues : Continues pid next) (law : Law s 1 0)
    (idle : s.kernel.process pid = .idle) (plain : Plain buf) (length : buf.length = count)
    (holds : Holds s.delivered pid buf) : Served pid (readTurn next pid left count buf s) := by
  have removed := law.removeByte idle
  have pushed : Holds (removeByte s pid).delivered pid (buf ++ [s.next]) := holds.push s.next
  obtain ⟨lawEcho, delivered, still⟩ := @Law.echoByte (removeByte s pid) pid s.next removed idle
    (.echo left count (buf ++ [s.next])) ⟨buf, rfl, plain, length, pushed⟩
  unfold Uart.readTurn
  dsimp only
  split
  case h_1 after echoed =>
    rw [echoed] at lawEcho
    exact ⟨lawEcho, fun reply isReply => by cases isReply⟩
  case h_2 after echoed =>
    rw [echoed] at lawEcho delivered still
    exact continues.readNext lawEcho (still (by simp)) plain length (delivered ▸ pushed)
  case h_3 after echoed =>
    rw [echoed] at lawEcho delivered still
    exact continues.readNext lawEcho (still (by simp)) plain length (delivered ▸ pushed)

/-- The loop of `uartRead`. -/
theorem continues_readLoop (pid left : Nat) : Continues pid (readLoop pid left) := by
  induction left with
  | zero =>
    intro count buf s law idle plain length holds
    refine ⟨law, fun reply isReply => ?_⟩
    obtain rfl := Option.some.inj isReply
    exact ⟨holds, Or.inl ⟨plain, by rw [length]⟩⟩
  | succ left inductionHypothesis =>
    intro count buf s law idle plain length holds
    unfold readLoop
    split
    case isTrue =>
      refine ⟨law, fun reply isReply => ?_⟩
      obtain rfl := Option.some.inj isReply
      exact ⟨holds, Or.inl ⟨plain, by rw [length]⟩⟩
    case isFalse =>
      obtain ⟨kernel, result, process, passed⟩ | ⟨kernel, result, blocked⟩ :=
        @Law.waitInput s pid law idle left count buf ⟨plain, length, holds⟩
      · rw [result]
        have still : kernel.process pid = .idle := by rw [process, idle]
        exact inductionHypothesis.readTurn passed still plain length holds
      · rw [result]
        exact ⟨blocked, fun reply isReply => by cases isReply⟩

/-- `uartRead`. -/
theorem Law.uartRead (law : Law s 0 0) (idle : s.kernel.process pid = .idle) (len : Nat) : Served pid (uartRead s pid len) := by
  unfold Uart.uartRead
  rw [if_neg (by simp [law.present])]
  exact continues_readLoop pid len 0 [] s law idle (fun _ member => by cases member) rfl
    (List.nil_suffix)

/-- `uartWrite`. -/
theorem Law.uartWrite (law : Law s 0 0) (idle : s.kernel.process pid = .idle) (bytes : List UInt8) :
    Law (uartWrite s pid bytes).2 0 0 := by
  unfold Uart.uartWrite
  split
  case isTrue => exact law
  case isFalse => exact ((law.ask bytes).writeLoop bytes 0 idle).1

end Reading

section Interrupts

variable {s : System}

theorem storing_not_removing (point : Point) (storing : point.Storing) : ¬ point.Removing := by
  cases point with
  | removing => cases storing
  | storing => exact id

theorem removing_not_storing (point : Point) (removing : point.Removing) : ¬ point.Storing :=
  fun storing => storing_not_removing point storing removing

/-- A byte is sent. Its place is free, and not yet signalled. -/
theorem Law.sendByte {sent : Int} (law : Law s 0 sent) (some_ : 0 < s.ocount) (line : List UInt8) :
    Law { s with line := line, ostart := (s.ostart + 1) % uartOblen, ocount := s.ocount - 1 }
      0 (sent + 1) := by
  have bounds := law.ocount
  refine ⟨law.present, law.sems, law.apart, law.input, ?_, law.icount, ?_, law.istart, Nat.mod_lt _ (by decide), law.kept,
    law.lost, law.order, law.fits⟩
  · have same : (uartOblen : Int) - s.ocount - sent = uartOblen - (s.ocount - 1) - (sent + 1) := by lia
    exact same ▸ law.output
  · dsimp only
    omega

/-- The loop over the output buffer. -/
theorem Law.transmitLoop (space : Nat) {sent : Int} (law : Law s 0 sent) (some_ : 0 < s.ocount) :
    Law (transmitLoop space s).2 0 (sent + (transmitLoop space s).1) := by
  induction space generalizing s sent with
  | zero => exact law.sendByte some_ (s.line ++ [s.output s.ostart])
  | succ space inductionHypothesis =>
    have first := law.sendByte some_ (s.line ++ [s.output s.ostart])
    unfold Uart.transmitLoop
    dsimp only
    split
    case isTrue more =>
      have rest := inductionHypothesis first more
      have sum : ∀ count : Nat, sent + 1 + (count : Int) = sent + ((count + 1 : Nat) : Int) := by
        intro count
        push_cast
        lia
      rw [sum] at rest
      exact rest
    case isFalse => exact first

theorem signaln_at {k : Kernel Point} {sem : Int} (law : Semaphores.Law k) (count : Nat) (this : Nat)
    (point : Point) (here : At ((signalnLoop sem count k).process this) point) : At (k.process this) point := by
  induction count generalizing k with
  | zero => exact here
  | succ count inductionHypothesis =>
    have later := inductionHypothesis law.signal here
    by_cases valid : k.Valid sem
    · obtain ⟨_, result⟩ | ⟨_, first, place, queue, _, waits, result⟩ := signal_cases law valid
      · rw [result] at later
        exact later
      · rw [result] at later
        rcases eq_or_ne this first with rfl | apart
        · have same : place = point := by simpa [At] using later
          exact Or.inr ⟨sem, same ▸ waits⟩
        · simpa [place_of_ne apart] using later
    · rw [signal_refused valid] at later
      exact later

/-- `uartInterrupt` for a transmit interrupt. -/
theorem Law.transmit (law : Law s 0 0) (space : Nat) : Law (transmit s space) 0 0 := by
  have counted : Law { s with oirq := s.oirq + 1 } 0 0 :=
    ⟨law.present, law.sems, law.apart, law.input, law.output, law.icount, law.ocount, law.istart, law.ostart, law.kept,
      law.lost, law.order, law.fits⟩
  unfold Uart.transmit
  dsimp only
  split
  case isTrue some_ =>
    have sent := counted.transmitLoop space some_
    rw [Int.zero_add] at sent
    obtain ⟨output, sems⟩ := sent.output.signaln sent.sems (Uart.transmitLoop space { s with oirq := s.oirq + 1 }).1
    have input := sent.input.signaln_other sent.sems sent.output storing_not_removing sent.apart
      (Uart.transmitLoop space { s with oirq := s.oirq + 1 }).1
    have fits := sent.fits
    refine ⟨sent.present, sems, sent.apart, input, ?_, sent.icount, sent.ocount, sent.istart, sent.ostart, sent.kept,
      sent.lost, sent.order, fun this point here => fits this point ?_⟩
    · rw [sub_add_cancel] at output
      rw [sub_zero]
      exact output
    · dsimp only at here
      rw [signaln_eq sent.output.valid] at here
      exact signaln_at sent.sems _ this point here
  case isFalse =>
    exact ⟨law.present, law.sems, law.apart, law.input, law.output, law.icount, law.ocount, law.istart, law.ostart, law.kept,
      law.lost, law.order, law.fits⟩

/-- A byte that is kept. It is not yet signalled. -/
theorem Law.keepByte {fresh : Int} (law : Law s fresh 0) (room : s.icount < uartIblen) (c : UInt8) :
    Law { s with
      input := Function.update s.input ((s.istart + s.icount) % uartIblen).toNat c
      icount := s.icount + 1
      received := s.received ++ [(c, true)] } (fresh + 1) 0 := by
  have bounds := law.icount
  have place : ((s.istart + s.icount) % uartIblen).toNat = (s.istart + s.icount.toNat) % uartIblen := by
    unfold uartIblen
    lia
  have more : (s.icount + 1).toNat = s.icount.toNat + 1 := by lia
  refine ⟨law.present, law.sems, law.apart, ?_, law.output, ?_, law.ocount, law.istart, law.ostart, ?_, ?_, law.order,
    law.fits⟩
  · have same : s.icount - fresh = s.icount + 1 - (fresh + 1) := by lia
    exact same ▸ law.input
  · dsimp only
    omega
  · dsimp only
    rw [place, more, contents_push (by lia), ← List.append_assoc, ← law.kept, List.filter_append,
      List.map_append]
    rfl
  · dsimp only
    rw [List.filter_append, law.lost]
    simp

/-- A byte that is lost. -/
theorem Law.loseByte {fresh : Int} (law : Law s fresh 0) (c : UInt8) :
    Law { s with ovrrn := s.ovrrn + 1, received := s.received ++ [(c, false)] } fresh 0 := by
  refine ⟨law.present, law.sems, law.apart, law.input, law.output, law.icount, law.ocount, law.istart, law.ostart, ?_, ?_,
    law.order, law.fits⟩
  · dsimp only
    rw [List.filter_append, ← law.kept]
    simp
  · dsimp only
    rw [List.filter_append, List.length_append, law.lost]
    exact (UInt32.ofNat_add _ 1).symm

/-- The loop over the bytes that were received. -/
theorem Law.receiveLoop (bytes : List UInt8) (count : Nat) (law : Law s count 0) :
    Law (receiveLoop bytes count s).2 (receiveLoop bytes count s).1 0 := by
  induction bytes generalizing s count with
  | nil => exact law
  | cons c rest inductionHypothesis =>
    unfold Uart.receiveLoop
    split
    case isTrue room => exact inductionHypothesis (count + 1) (law.keepByte room c)
    case isFalse => exact inductionHypothesis count (law.loseByte c)

/-- `uartInterrupt` for a receive interrupt. -/
theorem Law.receive (law : Law s 0 0) (first : UInt8) (rest : List UInt8) :
    Law (receive s first rest) 0 0 := by
  have counted : Law { s with iirq := s.iirq + 1 } (0 : Nat) 0 :=
    ⟨law.present, law.sems, law.apart, law.input, law.output, law.icount, law.ocount, law.istart, law.ostart, law.kept,
      law.lost, law.order, law.fits⟩
  have stored := counted.receiveLoop (first :: rest) 0
  obtain ⟨input, sems⟩ := stored.input.signaln stored.sems
    (Uart.receiveLoop (first :: rest) 0 { s with iirq := s.iirq + 1 }).1
  have output := stored.output.signaln_other stored.sems stored.input removing_not_storing stored.apart.symm
    (Uart.receiveLoop (first :: rest) 0 { s with iirq := s.iirq + 1 }).1
  have fits := stored.fits
  refine ⟨stored.present, sems, stored.apart, ?_, output, stored.icount, stored.ocount, stored.istart, stored.ostart,
    stored.kept, stored.lost, stored.order, fun this point here => fits this point ?_⟩
  · rw [sub_add_cancel] at input
    rw [sub_zero]
    exact input
  · unfold Uart.receive at here
    dsimp only at here
    rw [signaln_eq stored.input.valid] at here
    exact signaln_at stored.sems _ this point here

end Interrupts

section Moves

variable {s : System} {pid : Nat}

/-- The bytes that `uartControl` reads and changes are no part of the law. -/
theorem Law.uartControl (law : Law s 0 0) (arg1 : UInt8) (func : Func) :
    Law (uartControl s arg1 func).2 0 0 := by
  cases func <;>
  exact ⟨law.present, law.sems, law.apart, law.input, law.output, law.icount, law.ocount, law.istart, law.ostart, law.kept,
    law.lost, law.order, law.fits⟩

theorem idle_later (taking : Point → Prop) :
    ∀ point, taking point → (Process.idle : Process Point) ≠ .ready point := by
  intro point _ ready
  cases ready

/-- A released process leaves its place. -/
theorem Law.leave (law : Law s 0 0) {point : Point} (ready : s.kernel.process pid = .ready point) :
    (point.Removing ∧ Law (s.place pid .idle) 1 0) ∨ point.Storing ∧ Law (s.place pid .idle) 0 1 := by
  have awake : (s.kernel.process pid).Awake := ready ▸ awake_ready
  have sems := law.sems.place awake (awake_idle)
  have fits : ∀ this point, At ((s.kernel.place pid .idle).process this) point →
      Fits s.delivered this point := by
    intro this point here
    obtain ⟨_, new⟩ | old := at_update here
    · simp [At] at new
    · exact law.fits this point old
  cases point with
  | removing left count buf =>
    obtain ⟨_, input⟩ := @Tokens.goOn _ s.kernel s.isema Point.Removing _ pid
      (.removing left count buf) .idle law.input trivial ready (idle_later _) awake_idle
    have notStoring : ∀ point, Point.Storing point → s.kernel.process pid ≠ .ready point := by
      intro point storing same
      obtain rfl := Process.ready.inj (ready.symm.trans same)
      exact storing
    have output := law.output.place notStoring (idle_later _) awake_idle
    rw [sub_zero] at input
    exact Or.inl ⟨trivial, law.switch sems input output fits⟩
  | storing ch caller =>
    obtain ⟨_, output⟩ := @Tokens.goOn _ s.kernel s.osema Point.Storing _ pid
      (.storing ch caller) .idle law.output trivial ready (idle_later _) awake_idle
    have notRemoving : ∀ point, Point.Removing point → s.kernel.process pid ≠ .ready point := by
      intro point removing same
      obtain rfl := Process.ready.inj (ready.symm.trans same)
      exact removing
    have input := law.input.place notRemoving (idle_later _) awake_idle
    rw [sub_zero] at output
    exact Or.inr ⟨trivial, law.switch sems input output fits⟩

/-- A process goes on. -/
theorem Law.proceed (law : Law s 0 0) {point : Point} (ready : s.kernel.process pid = .ready point) :
    Served pid (proceed s pid point) := by
  have fits := law.fits pid point (Or.inl ready)
  have idle : (s.place pid .idle).kernel.process pid = .idle := place_self _
  obtain ⟨takes, leaves⟩ | ⟨takes, leaves⟩ := law.leave ready
  · cases point with
    | removing left count buf =>
      obtain ⟨plain, length, holds⟩ := fits
      exact (continues_readLoop pid left).readTurn leaves idle plain length holds
    | storing ch caller => cases takes
  · cases point with
    | removing left count buf => cases takes
    | storing ch caller =>
      have stored := leaves.storeByte pid ch
      cases caller with
      | write count rest =>
        refine ⟨(stored.writeLoop rest (count + 1) idle).1, fun reply isReply => ?_⟩
        obtain ⟨total, rfl⟩ := writeLoop_reply rest (count + 1) _ isReply
        trivial
      | echo left count buf =>
        obtain ⟨front, rfl, plain, length, holds⟩ := fits
        exact (continues_readLoop pid left).readNext stored idle plain length holds

end Moves

/-- Every move keeps the law, and `uartRead` returns what it should. -/
theorem law_served (before : System) (move : Move) (reply : Option Reply) (after : System)
    (law : Law before 0 0) (completed : step before move = some (reply, after)) :
    Law after 0 0 ∧ ∀ count buf, reply = some (.read count buf) →
      ∃ pid, (∃ len, move = .read pid len ∨ move = .goOn pid) ∧ Good after.delivered pid (.read count buf) := by
  cases move with
  | write pid bytes =>
    simp only [step] at completed
    split at completed
    case isTrue idle =>
      have lawAfter := law.uartWrite idle bytes
      have result := Option.some.inj completed
      rw [result] at lawAfter
      refine ⟨lawAfter, fun count buf isReply => ?_⟩
      have wrote : (uartWrite before pid bytes).1 = some (.read count buf) := by rw [result, isReply]
      unfold uartWrite at wrote
      rw [if_neg (by simp [law.present])] at wrote
      obtain ⟨total, same⟩ := writeLoop_reply bytes 0 _ wrote
      cases same
    case isFalse => cases completed
  | read pid len =>
    simp only [step] at completed
    split at completed
    case isTrue idle =>
      have served := law.uartRead idle len
      rw [Option.some.inj completed] at served
      exact ⟨served.1, fun count buf isReply => ⟨pid, ⟨len, Or.inl rfl⟩, served.2 _ isReply⟩⟩
    case isFalse => cases completed
  | control func arg1 =>
    have lawAfter := law.uartControl arg1 func
    simp only [step] at completed
    obtain ⟨isReply, isAfter⟩ := Prod.mk.inj (Option.some.inj completed)
    refine ⟨isAfter ▸ lawAfter, fun count buf isRead => ?_⟩
    rw [isRead] at isReply
    cases isReply
  | transmit space =>
    cases completed
    exact ⟨law.transmit space, fun count buf isRead => by cases isRead⟩
  | receive first rest =>
    cases completed
    exact ⟨law.receive first rest, fun count buf isRead => by cases isRead⟩
  | goOn pid =>
    simp only [step] at completed
    split at completed
    case h_1 point ready =>
      have served := law.proceed ready
      rw [Option.some.inj completed] at served
      exact ⟨served.1, fun count buf isReply => ⟨pid, ⟨0, Or.inr rfl⟩, served.2 _ isReply⟩⟩
    all_goals cases completed

/-- The driver after `uartInit`. -/
theorem init_law {used : Int → Processes.Sstate} {hardware : Bool}
    (success : (uartInit (boot used) hardware).1 = ok) : Law (uartInit (boot used) hardware).2 0 0 := by
  revert success
  unfold uartInit
  dsimp only
  split
  case isTrue =>
    intro success
    cases success
  case isFalse inputGood =>
    have input := (atBoot_law used).made (le_refl 0) (ne_syserr_of_good inputGood)
    split
    case isTrue =>
      intro success
      cases success
    case isFalse outputGood =>
      have output := input.law.made (Int.natCast_nonneg uartOblen) (ne_syserr_of_good outputGood)
      split
      case isTrue =>
        intro success
        cases success
      case isFalse =>
        intro _
        have process : (semcreate (semcreate (boot used).kernel 0).2 uartOblen).2.process = fun _ => .idle :=
          output.process.trans input.process
        refine ⟨rfl, output.law, output.apart input.valid, ?_, ?_, ⟨le_refl 0, Int.natCast_nonneg uartIblen⟩,
          ⟨le_refl 0, Int.natCast_nonneg uartOblen⟩, (by decide : 0 < uartIblen), (by decide : 0 < uartOblen),
          rfl, rfl, rfl, fun pid point here => ?_⟩
        · refine output.keeps (input.tokens (le_refl 0) fun pid point _ ready => ?_)
          rw [input.process] at ready
          cases ready
        · refine output.tokens (Int.natCast_nonneg uartOblen) fun pid point _ ready => ?_
          cases (congrFun process pid).symm.trans ready
        · dsimp only at here
          rw [process] at here
          simp [At] at here

section Received

variable {s : System} {pid : Nat}

theorem putByte_received (ch : UInt8) (caller : Caller) :
    (putByte s pid ch caller).2.received = s.received := by
  unfold putByte
  split
  · rfl
  · split
    · rfl
    · split <;> rfl

theorem writeLoop_received (bytes : List UInt8) (count : Nat) :
    (writeLoop pid bytes count s).2.received = s.received := by
  induction bytes generalizing s count with
  | nil => rfl
  | cons ch rest inductionHypothesis =>
    have same := @putByte_received s pid ch (.write count rest)
    unfold writeLoop
    split
    case h_1 after put =>
      rw [put] at same
      exact (inductionHypothesis (count + 1)).trans same
    case h_2 after put | h_3 after put =>
      rw [put] at same
      exact same

theorem echoByte_received (c : UInt8) (caller : Caller) :
    (echoByte s pid c caller).2.received = s.received := by
  unfold echoByte
  split
  · split
    · rfl
    · exact putByte_received c caller
  · rfl

theorem readNext_received {next : Nat → List UInt8 → System → Option Reply × System}
    (same : ∀ count buf s, (next count buf s).2.received = s.received) (count : Nat) (buf : List UInt8)
    (c : UInt8) : (readNext next count buf c s).2.received = s.received := by
  unfold readNext
  split
  · rfl
  · exact same (count + 1) buf s

theorem readTurn_received {next : Nat → List UInt8 → System → Option Reply × System}
    (same : ∀ count buf s, (next count buf s).2.received = s.received) (left count : Nat)
    (buf : List UInt8) : (readTurn next pid left count buf s).2.received = s.received := by
  have echoed := @echoByte_received (removeByte s pid) pid s.next (.echo left count (buf ++ [s.next]))
  unfold readTurn
  dsimp only
  split
  case h_1 after isEcho =>
    rw [isEcho] at echoed
    exact echoed
  case h_2 after isEcho | h_3 after isEcho =>
    rw [isEcho] at echoed
    exact (readNext_received same count (buf ++ [s.next]) s.next).trans echoed

theorem readLoop_received (left count : Nat) (buf : List UInt8) (s : System) :
    (readLoop pid left count buf s).2.received = s.received := by
  induction left generalizing count buf s with
  | zero => rfl
  | succ left inductionHypothesis =>
    unfold readLoop
    split
    · rfl
    · split
      · rfl
      · exact readTurn_received inductionHypothesis left count buf
      · exact readTurn_received inductionHypothesis left count buf

theorem transmitLoop_received (space : Nat) (s : System) :
    (transmitLoop space s).2.received = s.received := by
  induction space generalizing s with
  | zero => rfl
  | succ space inductionHypothesis =>
    unfold transmitLoop
    dsimp only
    split
    · exact inductionHypothesis _
    · rfl

theorem receiveLoop_received (bytes : List UInt8) (count : Nat) (s : System) :
    (receiveLoop bytes count s).2.received.map Prod.fst = s.received.map Prod.fst ++ bytes := by
  induction bytes generalizing count s with
  | nil => exact (List.append_nil _).symm
  | cons c rest inductionHypothesis =>
    unfold receiveLoop
    split
    · rw [inductionHypothesis, List.map_append, List.append_assoc]
      rfl
    · rw [inductionHypothesis, List.map_append, List.append_assoc]
      rfl

/-- Only a receive interrupt brings bytes. -/
theorem step_received {before after : System} {move : Move} {reply : Option Reply}
    (completed : step before move = some (reply, after)) :
    after.received = before.received ∨ ∃ first rest, move = .receive first rest ∧
      after.received.map Prod.fst = before.received.map Prod.fst ++ first :: rest := by
  cases move with
  | write pid bytes =>
    left
    simp only [step] at completed
    split at completed
    case isTrue =>
      have isAfter : after = (uartWrite before pid bytes).2 := (congrArg Prod.snd (Option.some.inj completed)).symm
      rw [isAfter]
      unfold uartWrite
      split
      · rfl
      · exact writeLoop_received bytes 0
    case isFalse => cases completed
  | read pid len =>
    left
    simp only [step] at completed
    split at completed
    case isTrue =>
      have isAfter : after = (uartRead before pid len).2 := (congrArg Prod.snd (Option.some.inj completed)).symm
      rw [isAfter]
      unfold uartRead
      split
      · rfl
      · exact readLoop_received len 0 [] before
    case isFalse => cases completed
  | control func arg1 =>
    left
    cases completed
    cases func <;> rfl
  | transmit space =>
    left
    cases completed
    unfold transmit
    dsimp only
    split
    · exact transmitLoop_received space _
    · rfl
  | receive first rest =>
    right
    cases completed
    exact ⟨first, rest, rfl, receiveLoop_received (first :: rest) 0 _⟩
  | goOn pid =>
    left
    simp only [step] at completed
    split at completed
    case h_1 point ready =>
      have isAfter : after = (proceed before pid point).2 := (congrArg Prod.snd (Option.some.inj completed)).symm
      rw [isAfter]
      cases point with
      | removing left count buf => exact readTurn_received (readLoop_received left) left count buf
      | storing ch caller =>
        cases caller with
        | write count rest => exact writeLoop_received rest (count + 1)
        | echo left count buf => exact readNext_received (readLoop_received left) count buf ch
    all_goals cases completed

end Received

/-- No byte that is received ends a line. -/
def NoLineEnd (_ : System) : Move → Prop
  | .receive first rest => Plain (first :: rest)
  | _ => True

/-- The bytes that the processes get are among those received. -/
theorem Law.plain {s : System} (law : Law s 0 0) (clean : Plain (s.received.map Prod.fst)) {pid : Nat}
    {buf : List UInt8} (holds : Holds s.delivered pid buf) : Plain buf := by
  intro c member
  obtain ⟨entry, inFilter, rfl⟩ := List.mem_map.mp (holds.subset member)
  have inDelivered : entry.2 ∈ s.delivered.map Prod.snd :=
    List.mem_map_of_mem (List.mem_filter.mp inFilter).1
  rw [law.order] at inDelivered
  obtain ⟨raw, inTaken, isByte⟩ := List.mem_map.mp inDelivered
  have inKept : raw.1 ∈ (s.received.filter Prod.snd).map Prod.fst := by
    rw [law.kept]
    exact List.mem_append_left _ (List.mem_map_of_mem inTaken)
  obtain ⟨source, inSource, same⟩ := List.mem_map.mp inKept
  have plain := clean raw.1 (List.mem_map.mpr ⟨source, (List.mem_filter.mp inSource).1, same⟩)
  have unmapped : mapReturn raw.1 raw.2 = raw.1 := by
    unfold mapReturn
    rw [if_neg]
    rintro ⟨_, isReturn⟩
    rw [isReturn] at plain
    cases plain
  rw [← isByte, unmapped]
  exact plain

/-- In every run of any processes and interrupts: the bytes that were kept are those that were taken,
in order, and those in the input buffer. The others are counted. The bytes are delivered as they
were taken, with carriage returns mapped where the flag is set. A `uartRead` stores the last bytes
delivered to its process, and returns their number exactly if none of them ends a line, which is so
if no byte that was received does. -/
theorem input_is_exact (used : Int → Processes.Sstate) (hardware : Bool)
    (success : (uartInit (boot used) hardware).1 = ok)
    (events : List (Event System Move (Option Reply))) (last : System)
    (run : Run step (uartInit (boot used) hardware).2 events last) :
    (last.received.filter Prod.snd).map Prod.fst = last.taken.map Prod.fst ++
      contents last.input uartIblen last.istart last.icount.toNat ∧
    last.ovrrn = UInt32.ofNat (last.received.filter fun entry => !entry.2).length ∧
    last.delivered.map Prod.snd = last.taken.map (fun entry => mapReturn entry.1 entry.2) ∧
    (0 ≤ last.icount ∧ last.icount ≤ uartIblen) ∧
    (∀ event ∈ events, ∀ count buf, event.reply = some (.read count buf) →
      ∃ pid, (∃ len, event.call = .read pid len ∨ event.call = .goOn pid) ∧
        Holds event.after.delivered pid buf ∧ (count = buf.length ↔ Plain buf)) ∧
    (Meets NoLineEnd events → ∀ event ∈ events, ∀ count buf, event.reply = some (.read count buf) →
      count = buf.length) := by
  have preserved : ∀ before move reply after, Law before 0 0 → True →
      step before move = some (reply, after) → Law after 0 0 :=
    fun before move reply after law _ completed => (law_served before move reply after law completed).1
  have law := invariant_last (fun s => Law s 0 0) (fun _ _ => True) preserved _ _ _ run (init_law success)
    fun _ _ => trivial
  have steps := invariant_events (fun s => Law s 0 0) (fun _ _ => True) preserved _ _ _ run
    (init_law success) fun _ _ => trivial
  have counts : ∀ event ∈ events, ∀ count buf, event.reply = some (.read count buf) →
      ∃ pid, (∃ len, event.call = .read pid len ∨ event.call = .goOn pid) ∧
        Holds event.after.delivered pid buf ∧ (count = buf.length ↔ Plain buf) := by
    intro event member count buf isRead
    obtain ⟨lawBefore, _, completed⟩ := steps event member
    obtain ⟨pid, isCall, holds, counted⟩ :=
      (law_served event.before event.call event.reply event.after lawBefore completed).2 count buf isRead
    refine ⟨pid, isCall, holds, ?_⟩
    obtain ⟨plain, whole⟩ | ⟨front, c, rfl, ends, _, short⟩ := counted
    · exact iff_of_true whole plain
    · refine iff_of_false ?_ fun plain => ?_
      · rw [short, List.length_append, List.length_singleton]
        push_cast
        omega
      · have notEnds := plain c (List.mem_append_right _ List.mem_cons_self)
        rw [ends] at notEnds
        cases notEnds
  refine ⟨law.kept, law.lost, law.order, law.icount, counts, fun clean event member count buf isRead => ?_⟩
  have cleanSteps := invariant_events (fun s => Law s 0 0 ∧ Plain (s.received.map Prod.fst)) NoLineEnd
    (fun before move reply after holds noLineEnd completed => by
      refine ⟨preserved before move reply after holds.1 trivial completed, ?_⟩
      obtain same | ⟨first, rest, rfl, more⟩ := step_received completed
      · rw [same]
        exact holds.2
      · rw [more]
        intro c inside
        rcases List.mem_append.mp inside with old | new
        · exact holds.2 c old
        · exact noLineEnd c new)
    _ _ _ run ⟨init_law success, fun c inside => by
      have none_ : (uartInit (boot used) hardware).2.received = [] := by
        unfold uartInit
        dsimp only
        split
        · rfl
        · split
          · rfl
          · split <;> rfl
      rw [none_] at inside
      cases inside⟩ clean
  obtain ⟨_, ⟨lawAfter, plain⟩, _⟩ := cleanSteps event member
  obtain ⟨pid, _, holds, counted⟩ := counts event member count buf isRead
  exact counted.mpr (lawAfter.plain plain holds)

/-- Two bytes are received and read. -/
theorem two_bytes_are_read : ∃ events last, Run step (uartInit (boot fun _ => .free) true).2 events last ∧
    last.delivered.map Prod.snd = last.taken.map (fun entry => mapReturn entry.1 entry.2) ∧
    ∃ event ∈ events, event.reply = some (.read 2 [97, 98]) ∧ Plain [97, 98] := by
  obtain ⟨events, last, run, checked⟩ := trace_exists step (uartInit (boot fun _ => .free) true).2
    [.receive 97 [98], .read 1 2]
    (fun events _ => decide (∃ event ∈ events, event.reply = some (.read 2 [97, 98]))) (by decide +kernel)
  obtain ⟨event, member, isReply⟩ := of_decide_eq_true checked
  obtain ⟨_, _, order, _, counts, _⟩ :=
    input_is_exact (fun _ => .free) true (by decide +kernel) events last run
  obtain ⟨_, _, _, counted⟩ := counts event member 2 [97, 98] isReply
  exact ⟨events, last, run, order, event, member, isReply, counted.mp rfl⟩

/-- A `uartRead` of five bytes gets a newline, stores it, and returns zero. -/
theorem line_end_is_not_counted : ∃ events last,
    Run step (uartInit (boot fun _ => .free) true).2 events last ∧
    ∃ event ∈ events, ∃ count buf, event.reply = some (.read count buf) ∧ buf = [10] ∧
      count ≠ buf.length := by
  obtain ⟨events, last, run, checked⟩ := trace_exists step (uartInit (boot fun _ => .free) true).2
    [.receive 10 [], .read 1 5]
    (fun events _ => decide (∃ event ∈ events, event.reply = some (.read 0 [10]))) (by decide +kernel)
  obtain ⟨event, member, isReply⟩ := of_decide_eq_true checked
  exact ⟨events, last, run, event, member, 0, [10], isReply, rfl, by decide⟩

end Xinu.Uart
