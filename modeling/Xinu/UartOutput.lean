import Xinu.UartInput

/-!
# The output of the UART

A byte is accepted when it is written to the hardware directly or stored in the output buffer. The
bytes that were accepted are those on the line and those in the buffer, in order, as long as nothing
is in the buffer while the transmitter is marked idle. A transmit interrupt that finds the buffer
empty marks it idle, also when a writer was released from `wait` and has not yet stored its byte.
-/

namespace Xinu.Uart

open Semaphores Runs RingBuffer

/-- The bytes that a process at a point has still to store. -/
def Point.left : Point → List UInt8
  | .removing _ _ _ => []
  | .storing ch (.write _ rest) => ch :: rest
  | .storing ch (.echo _ _ _) => [ch]

def leftOf : Process Point → List UInt8
  | .idle => []
  | .waiting _ point | .ready point => point.left

def System.pending (s : System) (pid : Nat) : List UInt8 := leftOf (s.kernel.process pid)

/-- The bytes of a process that were accepted. -/
def System.acceptedOf (s : System) (pid : Nat) : List UInt8 :=
  (s.accepted.filter fun entry => entry.1 = pid).map Prod.snd

/-- The output in blocking mode, with the bytes that the processes have still to store. -/
structure Order (s : System) (left : Nat → List UInt8) : Prop where
  blocking : s.oflags &&& uartOflagNoblock = 0
  order : s.accepted.map Prod.snd = s.line ++ contents s.output uartOblen s.ostart s.ocount.toNat
  asked : ∀ pid, s.asked pid = s.acceptedOf pid ++ left pid
  idle : s.oidle = true → s.ocount = 0 ∧ ∀ pid point, Point.Storing point →
    s.kernel.process pid ≠ .ready point

section Primitives

variable {s : System} {pid : Nat} {ch : UInt8} {rest : List UInt8}

theorem update_pending (idle : s.kernel.process pid = .idle) :
    Function.update s.pending pid [] = s.pending := by
  refine Function.update_eq_self_iff.mpr ?_
  unfold System.pending
  rw [idle]
  rfl

/-- A byte of a process is accepted. -/
theorem asked_push {asked : Nat → List UInt8} {accepted : List (Nat × UInt8)}
    {left : Nat → List UInt8} (before : ∀ this, asked this =
      (accepted.filter fun entry => entry.1 = this).map Prod.snd ++ Function.update left pid (ch :: rest) this)
    (this : Nat) : asked this =
      ((accepted ++ [(pid, ch)]).filter fun entry => entry.1 = this).map Prod.snd ++
        Function.update left pid rest this := by
  rw [before this, List.filter_append, List.map_append, List.append_assoc]
  rcases eq_or_ne this pid with rfl | apart
  · simp
  · simp [Function.update_of_ne apart, apart.symm]

/-- A process stores its byte in the output buffer. -/
theorem Order.storeByte (order : Order s (Function.update s.pending pid (ch :: rest))) (law : Law s 0 1)
    (busy : s.oidle = false) : Order (storeByte s pid ch) (Function.update (storeByte s pid ch).pending pid rest) := by
  have room := law.output.nonneg
  have low := law.ocount
  have place : ((s.ostart + s.ocount) % uartOblen).toNat = (s.ostart + s.ocount.toNat) % uartOblen := by
    unfold uartOblen
    lia
  have more : (s.ocount + 1).toNat = s.ocount.toNat + 1 := by lia
  refine ⟨order.blocking, ?_, asked_push order.asked, fun isIdle => ?_⟩
  · unfold Uart.storeByte
    dsimp only
    rw [place, more, contents_push (by omega), List.map_append, order.order, List.append_assoc]
    rfl
  · have idle_ : s.oidle = true := isIdle
    rw [busy] at idle_
    cases idle_

/-- One turn of `uartWrite` in blocking mode. -/
theorem Order.putByte (order : Order s (Function.update s.pending pid (ch :: rest))) (law : Law s 0 0)
    (idle : s.kernel.process pid = .idle) {caller : Caller} (isLeft : (Point.storing ch caller).left = ch :: rest)
    (fits : Fits s.delivered pid (.storing ch caller)) :
    ((putByte s pid ch caller).1 = .done ∧ Order (putByte s pid ch caller).2
      (Function.update (putByte s pid ch caller).2.pending pid rest)) ∨
    (putByte s pid ch caller).1 = .blocked ∧
      Order (putByte s pid ch caller).2 (putByte s pid ch caller).2.pending := by
  unfold Uart.putByte
  split
  case isTrue isIdle =>
    obtain ⟨empty, _⟩ := order.idle isIdle
    refine Or.inl ⟨rfl, order.blocking, ?_, asked_push order.asked, fun busy => by cases busy⟩
    unfold uartHwPutc
    dsimp only
    have previous := order.order
    rw [empty, Int.toNat_zero, contents_zero, List.append_nil] at previous ⊢
    rw [List.map_append, previous]
    rfl
  case isFalse busy =>
    have notIdle : s.oidle = false := by simpa using busy
    rw [if_neg (by simp [order.blocking])]
    obtain ⟨kernel, result, process, passed⟩ | ⟨kernel, result, _⟩ := law.waitOutput idle fits
    · rw [result]
      refine Or.inl ⟨rfl, Order.storeByte ?_ passed notIdle⟩
      have same : System.pending { s with kernel := kernel } = s.pending := by
        unfold System.pending
        dsimp only
        rw [process]
      rw [same]
      exact ⟨order.blocking, order.order, order.asked, fun isIdle => absurd isIdle busy⟩
    · rw [result]
      refine Or.inr ⟨rfl, order.blocking, order.order, fun this => ?_, fun isIdle => absurd isIdle busy⟩
      obtain ⟨_, passed⟩ | ⟨_, blocked⟩ :=
        @wait_cases _ s.kernel pid (.storing ch caller) s.osema law.output.valid
      · cases passed.symm.trans result
      · have isKernel := (Prod.mk.inj (blocked.symm.trans result)).2
        refine (order.asked this).trans (congrArg _ ?_)
        unfold System.pending
        dsimp only
        rw [← isKernel]
        rcases eq_or_ne this pid with rfl | apart
        · rw [Function.update_self, place_self]
          exact isLeft.symm
        · rw [Function.update_of_ne apart, place_of_ne apart]
          rfl

/-- The loop of `uartWrite`. -/
theorem Order.writeLoop (bytes : List UInt8) (count : Nat)
    (order : Order s (Function.update s.pending pid bytes)) (law : Law s 0 0)
    (idle : s.kernel.process pid = .idle) :
    Order (writeLoop pid bytes count s).2 (writeLoop pid bytes count s).2.pending := by
  induction bytes generalizing s count with
  | nil =>
    rw [update_pending idle] at order
    exact order
  | cons ch rest inductionHypothesis =>
    obtain ⟨lawPut, _, still⟩ := @Law.putByte s pid ch (.write count rest) law idle trivial
    have outcome := @Order.putByte s pid ch rest order law idle (.write count rest) rfl trivial
    unfold Uart.writeLoop
    split
    case h_1 after put =>
      rw [put] at lawPut still outcome
      obtain ⟨_, orderPut⟩ | ⟨isBlocked, _⟩ := outcome
      · exact inductionHypothesis (count + 1) orderPut lawPut (still (by simp))
      · cases isBlocked
    case h_2 after put =>
      rw [put] at outcome
      obtain ⟨isDone, _⟩ | ⟨isBlocked, _⟩ := outcome
      · cases isDone
      · cases isBlocked
    case h_3 after put =>
      rw [put] at outcome
      obtain ⟨isDone, _⟩ | ⟨_, orderPut⟩ := outcome
      · cases isDone
      · exact orderPut

/-- A process asks to write some bytes. -/
theorem Order.ask (order : Order s s.pending) (idle : s.kernel.process pid = .idle) (bytes : List UInt8) :
    Order (s.ask pid bytes) (Function.update (s.ask pid bytes).pending pid bytes) := by
  refine ⟨order.blocking, order.order, fun this => ?_, order.idle⟩
  have asked := order.asked this
  have sameAccepted : (s.ask pid bytes).acceptedOf this = s.acceptedOf this := rfl
  have isAsked : (s.ask pid bytes).asked this = Function.update s.asked pid (s.asked pid ++ bytes) this := rfl
  rw [sameAccepted, isAsked]
  rcases eq_or_ne this pid with rfl | apart
  · have none_ : s.pending this = [] := by
      unfold System.pending
      rw [idle]
      rfl
    rw [none_, List.append_nil] at asked
    rw [Function.update_self, Function.update_self, asked]
  · rw [Function.update_of_ne apart, Function.update_of_ne apart]
    exact asked

end Primitives

section Reading

variable {s : System} {pid left count : Nat} {buf : List UInt8} {c : UInt8}
  {next : Nat → List UInt8 → System → Option Reply × System}

/-- The processes and semaphores change, and no writer is released. -/
theorem Order.switch (order : Order s s.pending) {kernel : Kernel Point}
    (same : ∀ pid, leftOf (kernel.process pid) = leftOf (s.kernel.process pid))
    (ready : ∀ pid point, Point.Storing point → kernel.process pid = .ready point →
      s.kernel.process pid = .ready point) :
    Order { s with kernel := kernel } (System.pending { s with kernel := kernel }) := by
  refine ⟨order.blocking, order.order, fun this => ?_, fun isIdle => ?_⟩
  · exact (order.asked this).trans (congrArg _ (same this).symm)
  · obtain ⟨empty, nobody⟩ := order.idle isIdle
    exact ⟨empty, fun this point storing isReady => nobody this point storing (ready this point storing isReady)⟩

/-- The `wait` of `uartRead`. -/
theorem Order.waitInput (order : Order s s.pending) (law : Law s 0 0)
    (idle : s.kernel.process pid = .idle) :
    Order { s with kernel := (wait s.kernel pid (.removing left count buf) s.isema).2 }
      (System.pending { s with kernel := (wait s.kernel pid (.removing left count buf) s.isema).2 }) := by
  obtain ⟨_, result⟩ | ⟨_, result⟩ :=
    @wait_cases _ s.kernel pid (.removing left count buf) s.isema law.input.valid
  · rw [result]
    exact order.switch (fun _ => rfl) fun _ _ _ isReady => isReady
  · rw [result]
    refine order.switch (fun this => ?_) fun this point _ isReady => ?_
    · rcases eq_or_ne this pid with rfl | apart
      · rw [place_self, idle]
        rfl
      · rw [place_of_ne apart]
        rfl
    · rcases eq_or_ne this pid with rfl | apart
      · rw [place_self] at isReady
        cases isReady
      · rwa [place_of_ne apart] at isReady

/-- What the rest of a `uartRead` does to the output. -/
def Streams (pid : Nat) (next : Nat → List UInt8 → System → Option Reply × System) : Prop :=
  ∀ count buf s, Order s s.pending → Law s 0 0 → s.kernel.process pid = .idle → Plain buf →
    buf.length = count → Holds s.delivered pid buf →
      Order (next count buf s).2 (next count buf s).2.pending

theorem Streams.readNext (streams : Streams pid next) (order : Order s s.pending) (law : Law s 0 0)
    (idle : s.kernel.process pid = .idle) {front : List UInt8} (plain : Plain front)
    (length : front.length = count) (holds : Holds s.delivered pid (front ++ [c])) :
    Order (readNext next count (front ++ [c]) c s).2 (readNext next count (front ++ [c]) c s).2.pending := by
  unfold Uart.readNext
  split
  case isTrue => exact order
  case isFalse goes =>
    refine streams (count + 1) (front ++ [c]) s order law idle (fun byte member => ?_) ?_ holds
    · rcases List.mem_append.mp member with old | new
      · exact plain byte old
      · obtain rfl := List.mem_singleton.mp new
        simpa using goes
    · rw [List.length_append, length]
      rfl

/-- The echo of a byte. -/
theorem Order.echoByte (order : Order s s.pending) (law : Law s 0 0) (idle : s.kernel.process pid = .idle)
    (fits : Fits s.delivered pid (.storing c (.echo left count buf))) :
    Order (echoByte s pid c (.echo left count buf)).2 (echoByte s pid c (.echo left count buf)).2.pending := by
  unfold Uart.echoByte
  split
  case isTrue =>
    split
    case isTrue => exact order
    case isFalse =>
      have asked := order.ask idle [c]
      obtain ⟨_, _, still⟩ := @Law.putByte (s.ask pid [c]) pid c (.echo left count buf) (law.ask [c]) idle fits
      obtain ⟨isDone, orderPut⟩ | ⟨_, orderPut⟩ :=
        @Order.putByte (s.ask pid [c]) pid c [] asked (law.ask [c]) idle (.echo left count buf) rfl fits
      · rw [update_pending (still (by simp [isDone]))] at orderPut
        exact orderPut
      · exact orderPut
  case isFalse => exact order

theorem Streams.readTurn (streams : Streams pid next) (order : Order s s.pending) (law : Law s 1 0)
    (idle : s.kernel.process pid = .idle) (plain : Plain buf) (length : buf.length = count)
    (holds : Holds s.delivered pid buf) :
    Order (readTurn next pid left count buf s).2 (readTurn next pid left count buf s).2.pending := by
  have removed := law.removeByte idle
  have orderRemoved : Order (removeByte s pid) (removeByte s pid).pending :=
    ⟨order.blocking, order.order, order.asked, order.idle⟩
  have pushed : Holds (removeByte s pid).delivered pid (buf ++ [s.next]) := holds.push s.next
  have fits : Fits (removeByte s pid).delivered pid (.storing s.next (.echo left count (buf ++ [s.next]))) :=
    ⟨buf, rfl, plain, length, pushed⟩
  obtain ⟨lawEcho, delivered, still⟩ := @Law.echoByte (removeByte s pid) pid s.next removed idle _ fits
  have orderEcho := orderRemoved.echoByte removed idle fits
  unfold Uart.readTurn
  dsimp only
  split
  case h_1 after echoed =>
    rw [echoed] at orderEcho
    exact orderEcho
  case h_2 after echoed =>
    rw [echoed] at lawEcho delivered still orderEcho
    exact streams.readNext orderEcho lawEcho (still (by simp)) plain length (delivered ▸ pushed)
  case h_3 after echoed =>
    rw [echoed] at lawEcho delivered still orderEcho
    exact streams.readNext orderEcho lawEcho (still (by simp)) plain length (delivered ▸ pushed)

theorem streams_readLoop (pid left : Nat) : Streams pid (readLoop pid left) := by
  induction left with
  | zero =>
    intro count buf s order _ _ _ _ _
    exact order
  | succ left inductionHypothesis =>
    intro count buf s order law idle plain length holds
    have waited := @Order.waitInput s pid left count buf order law idle
    unfold readLoop
    split
    case isTrue => exact order
    case isFalse =>
      obtain ⟨kernel, result, process, passed⟩ | ⟨kernel, result, blocked⟩ :=
        @Law.waitInput s pid law idle left count buf ⟨plain, length, holds⟩
      · rw [result] at waited ⊢
        have still : kernel.process pid = .idle := by rw [process, idle]
        exact inductionHypothesis.readTurn waited passed still plain length holds
      · rw [result] at waited ⊢
        exact waited

end Reading

section Interrupts

variable {s : System}

theorem signaln_left {k : Kernel Point} {sem : Int} (law : Semaphores.Law k) (count : Nat) (this : Nat) :
    leftOf ((signalnLoop sem count k).process this) = leftOf (k.process this) := by
  induction count generalizing k with
  | zero => rfl
  | succ count inductionHypothesis =>
    refine (inductionHypothesis law.signal).trans ?_
    by_cases valid : k.Valid sem
    · obtain ⟨_, result⟩ | ⟨_, first, place, queue, _, waits, result⟩ := signal_cases law valid
      · rw [result]
        rfl
      · rw [result]
        rcases eq_or_ne this first with rfl | apart
        · rw [place_self, waits]
          rfl
        · rw [place_of_ne apart]
          rfl
    · rw [signal_refused valid]

theorem signaln_pending {k : Kernel Point} (law : Semaphores.Law k) (sem count : Int) (this : Nat) :
    leftOf ((signaln k sem count).process this) = leftOf (k.process this) := by
  unfold signaln
  split
  · rfl
  · exact signaln_left law _ this

/-- A process that `signaln` leaves ready was ready before, or waited. -/
theorem signaln_ready {k : Kernel Point} {sem : Int} (law : Semaphores.Law k) (count : Nat) (this : Nat)
    (point : Point) (ready : (signalnLoop sem count k).process this = .ready point) :
    k.process this = .ready point ∨ k.process this = .waiting sem point := by
  induction count generalizing k with
  | zero => exact Or.inl ready
  | succ count inductionHypothesis =>
    have later := inductionHypothesis law.signal ready
    by_cases valid : k.Valid sem
    · obtain ⟨_, result⟩ | ⟨_, first, place, queue, _, waits, result⟩ := signal_cases law valid
      · rw [result] at later
        exact later
      · rw [result] at later
        rcases eq_or_ne this first with rfl | apart
        · have same : place = point := by simpa using later
          exact Or.inr (same ▸ waits)
        · simpa [place_of_ne apart] using later
    · rw [signal_refused valid] at later
      exact later

/-- The first byte of the buffer comes on the line. -/
theorem send_contents (some_ : 0 < s.ocount) (start : s.ostart < uartOblen) :
    (s.line ++ [s.output s.ostart]) ++
      contents s.output uartOblen ((s.ostart + 1) % uartOblen) (s.ocount - 1).toNat =
        s.line ++ contents s.output uartOblen s.ostart s.ocount.toNat := by
  obtain ⟨left, more⟩ : ∃ left, s.ocount.toNat = left + 1 := ⟨s.ocount.toNat - 1, by lia⟩
  have fewer : (s.ocount - 1).toNat = left := by lia
  rw [more, contents_succ, Nat.mod_eq_of_lt start, fewer, List.append_assoc]
  rfl

/-- The loop over the output buffer keeps the bytes in order, and much else as it is. -/
theorem transmitLoop_order (space : Nat) (some_ : 0 < s.ocount) (start : s.ostart < uartOblen) :
    (transmitLoop space s).2.line ++ contents (transmitLoop space s).2.output uartOblen
        (transmitLoop space s).2.ostart (transmitLoop space s).2.ocount.toNat =
      s.line ++ contents s.output uartOblen s.ostart s.ocount.toNat ∧
    (transmitLoop space s).2.accepted = s.accepted ∧ (transmitLoop space s).2.asked = s.asked ∧
    (transmitLoop space s).2.oflags = s.oflags ∧ (transmitLoop space s).2.oidle = s.oidle ∧
    (transmitLoop space s).2.kernel = s.kernel := by
  induction space generalizing s with
  | zero => exact ⟨send_contents some_ start, rfl, rfl, rfl, rfl, rfl⟩
  | succ space inductionHypothesis =>
    unfold transmitLoop
    dsimp only
    split
    case isTrue again =>
      obtain ⟨order, rest⟩ := @inductionHypothesis { s with
        line := s.line ++ [s.output s.ostart]
        ostart := (s.ostart + 1) % uartOblen
        ocount := s.ocount - 1 } again (Nat.mod_lt _ (by decide))
      exact ⟨order.trans (send_contents some_ start), rest⟩
    case isFalse => exact ⟨send_contents some_ start, rfl, rfl, rfl, rfl, rfl⟩

/-- A transmit interrupt at which no writer that was released finds the buffer empty. -/
theorem Order.transmit (order : Order s s.pending) (law : Law s 0 0) (space : Nat)
    (stored : s.ocount = 0 → ∀ pid point, Point.Storing point → s.kernel.process pid ≠ .ready point) :
    Order (transmit s space) (transmit s space).pending := by
  unfold Uart.transmit
  dsimp only
  split
  case isTrue some_ =>
    obtain ⟨sent, accepted, asked, oflags, oidle, kernel⟩ :=
      @transmitLoop_order { s with oirq := s.oirq + 1 } space some_ law.ostart
    refine ⟨?_, ?_, fun this => ?_, fun isIdle => ?_⟩
    · dsimp only
      rw [oflags]
      exact order.blocking
    · dsimp only
      rw [accepted, sent]
      exact order.order
    · unfold System.acceptedOf System.pending
      dsimp only
      rw [accepted, asked, kernel, signaln_pending law.sems]
      exact order.asked this
    · have wasIdle : s.oidle = true := by
        dsimp only at isIdle
        rw [oidle] at isIdle
        exact isIdle
      have empty := (order.idle wasIdle).1
      omega
  case isFalse none_ =>
    have empty : s.ocount = 0 := by
      have low := law.ocount
      omega
    exact ⟨order.blocking, order.order, order.asked, fun _ => ⟨empty, stored empty⟩⟩

/-- The loop over the bytes that were received leaves the output as it is. -/
theorem receiveLoop_output (bytes : List UInt8) (count : Nat) (s : System) :
    (receiveLoop bytes count s).2.oflags = s.oflags ∧ (receiveLoop bytes count s).2.accepted = s.accepted ∧
    (receiveLoop bytes count s).2.line = s.line ∧ (receiveLoop bytes count s).2.output = s.output ∧
    (receiveLoop bytes count s).2.ostart = s.ostart ∧ (receiveLoop bytes count s).2.ocount = s.ocount ∧
    (receiveLoop bytes count s).2.asked = s.asked ∧ (receiveLoop bytes count s).2.oidle = s.oidle ∧
    (receiveLoop bytes count s).2.kernel = s.kernel ∧ (receiveLoop bytes count s).2.isema = s.isema := by
  induction bytes generalizing count s with
  | nil => exact ⟨rfl, rfl, rfl, rfl, rfl, rfl, rfl, rfl, rfl, rfl⟩
  | cons c rest inductionHypothesis =>
    unfold receiveLoop
    split
    · exact inductionHypothesis (count + 1) _
    · exact inductionHypothesis count _

theorem Order.receive (order : Order s s.pending) (law : Law s 0 0) (first : UInt8) (rest : List UInt8) :
    Order (receive s first rest) (receive s first rest).pending := by
  obtain ⟨oflags, accepted, line, output, ostart, ocount, asked, oidle, kernel, isema⟩ :=
    receiveLoop_output (first :: rest) 0 { s with iirq := s.iirq + 1 }
  unfold Uart.receive
  dsimp only
  refine ⟨?_, ?_, fun this => ?_, fun isIdle => ?_⟩
  · dsimp only
    rw [oflags]
    exact order.blocking
  · dsimp only
    rw [accepted, line, output, ostart, ocount]
    exact order.order
  · unfold System.acceptedOf System.pending
    dsimp only
    rw [accepted, asked, kernel, signaln_pending law.sems]
    exact order.asked this
  · dsimp only at isIdle ⊢
    rw [oidle] at isIdle
    obtain ⟨empty, nobody⟩ := order.idle isIdle
    rw [ocount, kernel, isema, signaln_eq law.input.valid]
    refine ⟨empty, fun this point storing ready => ?_⟩
    obtain already | waited := signaln_ready law.sems _ this point ready
    · exact nobody this point storing already
    · exact storing_not_removing point storing (law.input.waiting this point waited)

end Interrupts

/-- `uartWrite` is called in blocking mode, and a transmit interrupt that finds the output buffer empty
comes while no writer that was released from `wait` has still to store its byte. -/
def Stored (s : System) : Move → Prop
  | .transmit _ => s.ocount = 0 → ∀ pid point, Point.Storing point → s.kernel.process pid ≠ .ready point
  | .control .setOflag arg1 => arg1 &&& uartOflagNoblock = 0
  | _ => True

section Moves

variable {s : System} {pid : Nat}

/-- A process goes on. -/
theorem Order.proceed (order : Order s s.pending) (law : Law s 0 0) {point : Point}
    (ready : s.kernel.process pid = .ready point) :
    Order (proceed s pid point).2 (proceed s pid point).2.pending := by
  have fits := law.fits pid point (Or.inl ready)
  have idle : (s.place pid .idle).kernel.process pid = .idle := place_self _
  have others : ∀ this, this ≠ pid → (s.place pid .idle).pending this = s.pending this := by
    intro this apart
    unfold System.pending System.place
    dsimp only
    rw [place_of_ne apart]
  have notReady : ∀ this point, (s.place pid .idle).kernel.process this = .ready point →
      s.kernel.process this = .ready point := by
    intro this point isReady
    rcases eq_or_ne this pid with rfl | apart
    · rw [idle] at isReady
      cases isReady
    · exact (place_of_ne apart _).symm.trans isReady
  have placed : Order (s.place pid .idle) (Function.update (s.place pid .idle).pending pid point.left) := by
    refine ⟨order.blocking, order.order, fun this => ?_, fun isIdle => ?_⟩
    · refine (order.asked this).trans (congrArg _ ?_)
      rcases eq_or_ne this pid with rfl | apart
      · rw [Function.update_self]
        unfold System.pending
        rw [ready]
        rfl
      · rw [Function.update_of_ne apart, others this apart]
    · obtain ⟨empty, nobody⟩ := order.idle isIdle
      exact ⟨empty, fun this point storing isReady => nobody this point storing (notReady this point isReady)⟩
  obtain ⟨takes, leaves⟩ | ⟨takes, leaves⟩ := law.leave ready
  · cases point with
    | removing left count buf =>
      obtain ⟨plain, length, holds⟩ := fits
      have placedIdle := placed
      rw [show (Point.removing left count buf).left = [] from rfl, update_pending idle] at placedIdle
      exact (streams_readLoop pid left).readTurn placedIdle leaves idle plain length holds
    | storing ch caller => cases takes
  · cases point with
    | removing left count buf => cases takes
    | storing ch caller =>
      have busy : s.oidle = false := by
        by_contra isIdle
        exact (order.idle (by simpa using isIdle)).2 pid (.storing ch caller) trivial ready
      have stored := leaves.storeByte pid ch
      cases caller with
      | write count rest => exact (placed.storeByte leaves busy).writeLoop rest (count + 1) stored idle
      | echo left count buf =>
        obtain ⟨front, rfl, plain, length, holds⟩ := fits
        have orderStored := placed.storeByte leaves busy
        have stillIdle : (Uart.storeByte (s.place pid .idle) pid ch).kernel.process pid = .idle := idle
        rw [update_pending stillIdle] at orderStored
        exact (streams_readLoop pid left).readNext orderStored stored idle plain length holds

/-- Every move that meets the condition keeps the order. -/
theorem order_preserved (before : System) (move : Move) (reply : Option Reply) (after : System)
    (holds : Law before 0 0 ∧ Order before before.pending) (met : Stored before move)
    (completed : step before move = some (reply, after)) : Law after 0 0 ∧ Order after after.pending := by
  obtain ⟨law, order⟩ := holds
  refine ⟨(law_served before move reply after law completed).1, ?_⟩
  cases move with
  | write pid bytes =>
    simp only [step] at completed
    split at completed
    case isTrue idle =>
      have isAfter : after = (uartWrite before pid bytes).2 :=
        (congrArg Prod.snd (Option.some.inj completed)).symm
      rw [isAfter]
      unfold uartWrite
      rw [if_neg (by simp [law.present])]
      exact (order.ask idle bytes).writeLoop bytes 0 (law.ask bytes) idle
    case isFalse => cases completed
  | read pid len =>
    simp only [step] at completed
    split at completed
    case isTrue idle =>
      have isAfter : after = (uartRead before pid len).2 :=
        (congrArg Prod.snd (Option.some.inj completed)).symm
      rw [isAfter]
      unfold uartRead
      rw [if_neg (by simp [law.present])]
      exact streams_readLoop pid len 0 [] before order law idle (fun _ member => by cases member) rfl
        List.nil_suffix
    case isFalse => cases completed
  | control func arg1 =>
    cases completed
    cases func with
    | setOflag =>
      refine ⟨?_, order.order, order.asked, order.idle⟩
      have clear : (before.oflags ||| arg1) &&& uartOflagNoblock = 0 := by
        have blocking := order.blocking
        have noFlag : arg1 &&& uartOflagNoblock = 0 := met
        have distributed : (before.oflags ||| arg1) &&& uartOflagNoblock =
            (before.oflags &&& uartOflagNoblock) ||| (arg1 &&& uartOflagNoblock) :=
          UInt8.toBitVec_inj.mp BitVec.and_or_distrib_right
        rw [distributed, blocking, noFlag]
        rfl
      exact clear
    | clrOflag =>
      refine ⟨?_, order.order, order.asked, order.idle⟩
      have clear : (before.oflags &&& ~~~arg1) &&& uartOflagNoblock = 0 := by
        have blocking := order.blocking
        rw [UInt8.and_assoc, UInt8.and_comm (~~~arg1), ← UInt8.and_assoc, blocking]
        simp
      exact clear
    | setIflag | clrIflag | getIflag | getOflag | outputIdle =>
      exact ⟨order.blocking, order.order, order.asked, order.idle⟩
  | transmit space =>
    cases completed
    exact order.transmit law space met
  | receive first rest =>
    cases completed
    exact order.receive law first rest
  | goOn pid =>
    simp only [step] at completed
    split at completed
    case h_1 point ready =>
      have isAfter : after = (proceed before pid point).2 :=
        (congrArg Prod.snd (Option.some.inj completed)).symm
      rw [isAfter]
      exact order.proceed law ready
    all_goals cases completed

end Moves

theorem init_order {used : Int → Processes.Sstate} {hardware : Bool}
    (success : (uartInit (boot used) hardware).1 = ok) :
    Order (uartInit (boot used) hardware).2 (uartInit (boot used) hardware).2.pending := by
  revert success
  unfold uartInit
  dsimp only
  split
  case isTrue =>
    intro success
    cases success
  case isFalse inputGood =>
    have input := (atBoot_law used).made (le_refl 0) (ne_syserr_of_good inputGood)
    split
    case isTrue =>
      intro success
      cases success
    case isFalse outputGood =>
      have output := input.law.made (Int.natCast_nonneg uartOblen) (ne_syserr_of_good outputGood)
      have process : (semcreate (semcreate (boot used).kernel 0).2 uartOblen).2.process = fun _ => .idle :=
        output.process.trans input.process
      split
      case isTrue =>
        intro success
        cases success
      case isFalse =>
        intro _
        refine ⟨(by decide : 0 &&& uartOflagNoblock = 0), rfl, fun this => ?_,
          fun _ => ⟨rfl, fun this point _ ready => ?_⟩⟩
        · unfold System.pending
          dsimp only
          rw [process]
          rfl
        · cases (congrFun process this).symm.trans ready

/-- In every run in which a transmit interrupt finds the buffer empty only while no writer that was
released has still to store its byte: the bytes that each process wrote are accepted once each and in
order, the bytes that were accepted are those on the line and those in the buffer, in order, the
buffer holds no more than its places, and nothing is in it while the transmitter is marked idle. -/
theorem output_stays_in_order (used : Int → Processes.Sstate) (hardware : Bool)
    (success : (uartInit (boot used) hardware).1 = ok)
    (events : List (Event System Move (Option Reply))) (last : System)
    (run : Run step (uartInit (boot used) hardware).2 events last) (met : Meets Stored events) :
    (∀ pid, last.asked pid = last.acceptedOf pid ++ last.pending pid) ∧
    last.accepted.map Prod.snd = last.line ++ contents last.output uartOblen last.ostart last.ocount.toNat ∧
    (0 ≤ last.ocount ∧ last.ocount ≤ uartOblen) ∧ (last.oidle = true → last.ocount = 0) := by
  obtain ⟨law, order⟩ := invariant_last (fun s => Law s 0 0 ∧ Order s s.pending) Stored order_preserved
    _ _ _ run ⟨init_law success, init_order success⟩ met
  exact ⟨order.asked, order.order, law.ocount, fun isIdle => (order.idle isIdle).1⟩

/-- An executable form of the condition, for the processes up to a bound. -/
def System.allStored (s : System) : Move → Bool
  | .transmit _ => s.ocount ≠ 0
  | .control _ _ => false
  | _ => true

theorem stored_of_allStored {s : System} {move : Move} (stored : s.allStored move = true) : Stored s move := by
  unfold Stored
  split
  · intro empty
    simp [System.allStored, empty] at stored
  · simp [System.allStored] at stored
  · trivial

/-- Two processes write, and an interrupt sends a byte. -/
theorem two_writers_stay_in_order : ∃ events last,
    Run step (uartInit (boot fun _ => .free) true).2 events last ∧ last.line = [97, 98] ∧
    last.accepted.map Prod.snd = [97, 98, 99] ∧ last.asked 1 = last.acceptedOf 1 ++ last.pending 1 := by
  obtain ⟨events, last, run, checked⟩ := trace_exists step (uartInit (boot fun _ => .free) true).2
    [.write 1 [97, 98], .write 2 [99], .transmit 0]
    (fun events last => decide (last.line = [97, 98] ∧ last.accepted.map Prod.snd = [97, 98, 99] ∧
      ∀ event ∈ events, event.before.allStored event.call = true)) (by decide +kernel)
  obtain ⟨line, accepted, stored⟩ := of_decide_eq_true checked
  obtain ⟨asked, _⟩ := output_stays_in_order (fun _ => .free) true (by decide +kernel) events last run
    fun event member => stored_of_allStored (stored event member)
  exact ⟨events, last, run, line, accepted, asked 1⟩

set_option maxRecDepth 10000 in
/-- A writer fills the buffer and waits. Two interrupts send all bytes of the buffer and find it empty
before the writer goes on, so that its last byte is stored while the transmitter is marked idle. The
next byte that is written comes on the line before that one. -/
theorem released_writer_is_overtaken : ∃ events last,
    Run step (uartInit (boot fun _ => .free) true).2 events last ∧
    last.oidle = true ∧ last.ocount = 1 ∧
    ∀ pid ch reply after, step last (.write pid [ch]) = some (reply, after) →
      after.line = last.line ++ [ch] ∧ after.ocount = 1 := by
  obtain ⟨events, last, run, checked⟩ := trace_exists step (uartInit (boot fun _ => .free) true).2
    [.write 1 (List.replicate 1026 97), .transmit 1024, .transmit 0, .goOn 1]
    (fun _ (last : System) => decide (last.oidle = true ∧ last.ocount = 1)) (by decide +kernel)
  obtain ⟨isIdle, one⟩ := of_decide_eq_true checked
  have law : Law last 0 0 := invariant_last (fun s => Law s 0 0) (fun _ _ => True)
    (fun before move reply after law _ completed => (law_served before move reply after law completed).1)
    _ _ _ run (init_law (by decide +kernel)) fun _ _ => trivial
  refine ⟨events, last, run, isIdle, one, fun pid ch reply after completed => ?_⟩
  simp only [step] at completed
  split at completed
  case isTrue =>
    have asked : (last.ask pid [ch]).oidle = true := isIdle
    simp only [uartWrite, law.present, Bool.true_eq_false, if_false, writeLoop, putByte, asked, if_true] at completed
    cases completed
    exact ⟨rfl, one⟩
  case isFalse => cases completed

end Xinu.Uart
