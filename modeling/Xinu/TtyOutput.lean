import Xinu.TtyInput

/-!
# The output buffer of the terminal

The characters that were stored in the output buffer are those that were sent and those that lie in it,
in order. `ttyhandle_out` takes the number of characters in the buffer from the count of the semaphore,
which is also lowered by writers that wait, and by those that were released and have not yet stored
their character. The order holds as long as there is no such writer at an output interrupt, or the
device has no space for more than the characters in the buffer.
-/

namespace Xinu.Tty

open Semaphores Runs RingBuffer

/-- The characters that were stored and not yet sent, and those that are to be echoed. -/
def System.held (s : System) : Nat := s.stored.length - s.sent.length

def System.echoes (s : System) : Nat := (s.tyetail + tyEbuflen - s.tyehead) % tyEbuflen

/-- The characters of the output buffer in order, with one place for each grant. A process may hold a
place that it has been granted. -/
structure Output (s : System) (gets puts storing : Int) (count : Nat) : Prop where
  sems : Sems s.kernel s.tyisem s.tyosem gets puts
  counted : puts + storing = tyObuflen - count
  order : s.stored = s.sent ++ contents s.tyobuff tyObuflen s.tyohead count
  head : s.tyohead < tyObuflen
  tail : s.tyotail = (s.tyohead + count) % tyObuflen
  ehead : s.tyehead < tyEbuflen
  etail : s.tyetail < tyEbuflen

/-- No writer waits or has still to store its character. -/
def System.NoWriter (s : System) : Prop :=
  ∀ pid point, Point.Putting point → s.kernel.process pid ≠ .waiting s.tyosem point ∧
    s.kernel.process pid ≠ .ready point

/-- At an output interrupt the output is held, or the device has no space for more than the characters
that are to be echoed or written, or no writer waits or has still to store its character. What is typed
is stored inside of the input buffer. -/
def Spaced (s : System) : Move → Prop
  | .output level => s.tyoheld = true ∨ uartFifoSize - level ≤ s.echoes + s.held ∨ s.NoWriter
  | .type _ => 0 ≤ s.tyitail ∧ s.tyitail < tyIbuflen
  | _ => True

section Buffer

variable {s : System} {gets puts storing : Int} {count pid : Nat}

theorem Output.held_eq (output : Output s gets puts storing count) : s.held = count := by
  unfold System.held
  rw [output.order, List.length_append, length_contents, Nat.add_sub_cancel_left]

/-- Fields that the output does not depend on may change, and the kernel with its semaphores. -/
theorem Output.keeps {after : System} {getsAfter : Int} (output : Output s gets puts storing count)
    (sems : Sems after.kernel after.tyisem after.tyosem getsAfter puts)
    (buffer : (after.tyohead, after.tyotail, after.tyobuff) = (s.tyohead, s.tyotail, s.tyobuff))
    (chars : (after.stored, after.sent) = (s.stored, s.sent))
    (ehead : after.tyehead < tyEbuflen) (etail : after.tyetail < tyEbuflen) :
    Output after getsAfter puts storing count := by
  simp only [Prod.mk.injEq] at buffer chars
  obtain ⟨head, tail, buff⟩ := buffer
  obtain ⟨stored, sent⟩ := chars
  refine ⟨sems, output.counted, ?_, ?_, ?_, ehead, etail⟩
  · rw [stored, sent, buff, head]
    exact output.order
  · exact head ▸ output.head
  · rw [tail, head]
    exact output.tail

/-- A process stores its character. -/
theorem Output.putRest (output : Output s gets puts 1 count) (ch : UInt8) :
    Output (putRest ch s) gets puts 0 (count + 1) := by
  have counted := output.counted
  have nonneg := output.sems.output.nonneg
  have tail := output.tail
  refine ⟨output.sems, by push_cast; lia, ?_, output.head, ?_, output.ehead, output.etail⟩
  · unfold Tty.putRest
    dsimp only
    rw [tail, contents_push (by omega), output.order, List.append_assoc]
  · unfold Tty.putRest tyObuflen at *
    dsimp only
    split <;> lia

/-- Characters are put into the buffer. -/
theorem Output.putLoop (chars : List UInt8) (output : Output s gets puts 0 count)
    (idle : s.kernel.process pid = .idle) :
    ∃ left more, Output (putLoop pid chars s).2 gets left 0 more := by
  induction chars generalizing s puts count with
  | nil => exact ⟨puts, count, output⟩
  | cons ch rest inductionHypothesis =>
    unfold Tty.putLoop
    obtain ⟨_, kernel, result, process, sems⟩ | ⟨kernel, result, _, sems⟩ := output.sems.wait_output idle ch rest
    · rw [result]
      have counted := output.counted
      have holding : Output { s with kernel := kernel } gets (puts - 1) 1 count :=
        ⟨sems, by lia, output.order, output.head, output.tail, output.ehead, output.etail⟩
      exact inductionHypothesis (holding.putRest ch) ((congrFun process pid).trans idle)
    · rw [result]
      exact ⟨puts, count, output.keeps sems rfl rfl output.ehead output.etail⟩

/-- A writer that was released stores its character and goes on. -/
theorem Output.goOn_putting (output : Output s gets puts 0 count) {ch : UInt8} {rest : List UInt8}
    (ready : s.kernel.process pid = .ready (.putting ch rest)) :
    ∃ left more, Output (Tty.putLoop pid rest (Tty.putRest ch (s.place pid .idle))).2 gets left 0 more := by
  obtain ⟨_, sems⟩ := output.sems.goOn_putting ready
  have counted := output.counted
  have holding : Output (s.place pid .idle) gets (puts - 1) 1 count :=
    ⟨sems, by omega, output.order, output.head, output.tail, output.ehead, output.etail⟩
  exact (holding.putRest ch).putLoop rest (place_self _)

/-- The echo loop takes the characters that are to be echoed from the space. -/
theorem echoLoop_space (uspace : Nat) (ehead : s.tyehead < tyEbuflen) (etail : s.tyetail < tyEbuflen) :
    (echoLoop uspace s).1 = uspace - s.echoes ∧ ∃ tyehead < tyEbuflen,
      (echoLoop uspace s).2 = { s with tyehead := tyehead } := by
  induction uspace generalizing s with
  | zero => exact ⟨(Nat.zero_sub _).symm, s.tyehead, ehead, rfl⟩
  | succ uspace inductionHypothesis =>
    unfold echoLoop
    split
    case isTrue some_ =>
      have inside : (if tyEbuflen ≤ s.tyehead + 1 then 0 else s.tyehead + 1) < tyEbuflen := by
        split
        · decide
        · omega
      obtain ⟨space, shape⟩ := @inductionHypothesis { s with
        tyehead := if tyEbuflen ≤ s.tyehead + 1 then 0 else s.tyehead + 1 } inside etail
      refine ⟨space.trans ?_, shape⟩
      unfold System.echoes tyEbuflen at *
      dsimp only
      split <;> lia
    case isFalse none_ =>
      refine ⟨?_, s.tyehead, ehead, rfl⟩
      unfold System.echoes tyEbuflen at *
      lia

/-- The loop over the output queue sends characters that lie in the buffer. -/
theorem sendLoop_order (chars : Nat) (head : s.tyohead < tyObuflen) (enough : chars ≤ count) :
    ∃ sent, sent ++ contents s.tyobuff tyObuflen ((s.tyohead + chars) % tyObuflen) (count - chars) =
        s.sent ++ contents s.tyobuff tyObuflen s.tyohead count ∧
      sendLoop chars s = { s with sent := sent, tyohead := (s.tyohead + chars) % tyObuflen } := by
  induction chars generalizing s count with
  | zero =>
    refine ⟨s.sent, ?_, ?_⟩
    · rw [Nat.add_zero, Nat.sub_zero, Nat.mod_eq_of_lt head]
    · rw [Nat.add_zero, Nat.mod_eq_of_lt head]
      rfl
  | succ chars inductionHypothesis =>
    obtain ⟨count, rfl⟩ : ∃ left, count = left + 1 := ⟨count - 1, by lia⟩
    have around : (if tyObuflen ≤ s.tyohead + 1 then 0 else s.tyohead + 1) = (s.tyohead + 1) % tyObuflen := by
      unfold tyObuflen at *
      split <;> lia
    have below : (s.tyohead + 1) % tyObuflen < tyObuflen := Nat.mod_lt _ (by decide)
    obtain ⟨sent, order, shape⟩ := @inductionHypothesis { s with
      sent := s.sent ++ [s.tyobuff s.tyohead], tyohead := (s.tyohead + 1) % tyObuflen } count below (by lia)
    have place : ((s.tyohead + 1) % tyObuflen + chars) % tyObuflen = (s.tyohead + (chars + 1)) % tyObuflen := by
      rw [Nat.mod_add_mod]
      congr 1
      lia
    dsimp only at order shape
    rw [place] at order shape
    refine ⟨sent, ?_, ?_⟩
    · rw [Nat.add_sub_add_right, order, contents_succ, Nat.mod_eq_of_lt head, List.append_assoc]
      rfl
    · unfold sendLoop
      rw [around]
      exact shape

/-- Without a writer that waits or was released the semaphore counts the free places. -/
theorem Output.count_of_noWriter (output : Output s gets puts 0 count) (noWriter : s.NoWriter) :
    (s.kernel.semtab s.tyosem).scount = tyObuflen - count := by
  obtain ⟨released, ⟨_, isReady⟩, total⟩ := output.sems.output.total
  have nobody : released = [] := by
    refine List.eq_nil_iff_forall_not_mem.mpr fun pid member => ?_
    obtain ⟨point, putting, ready⟩ := (isReady pid).mp member
    exact (noWriter pid point putting).2 ready
  have queue : (s.kernel.semtab s.tyosem).squeue = [] := by
    refine List.eq_nil_iff_forall_not_mem.mpr fun pid member => ?_
    obtain ⟨point, waits⟩ := (output.sems.law.queued _ pid).mp member
    exact (noWriter pid point (output.sems.output.waiting pid point waits)).1 waits
  have length := output.sems.law.count _ output.sems.output.valid.2
  have counted := output.counted
  rw [queue, List.length_nil] at length
  rw [nobody, List.length_nil] at total
  lia

/-- An output interrupt that takes no more than the characters of the buffer. -/
theorem Output.output (output : Output s gets puts 0 count) (level : Nat)
    (spaced : s.tyoheld = true ∨ uartFifoSize - level ≤ s.echoes + s.held ∨ s.NoWriter) :
    ∃ more left, Output (ttyhandleOut level s) gets more 0 left := by
  unfold ttyhandleOut
  split
  case isTrue => exact ⟨puts, count, output⟩
  case isFalse notHeld =>
    split
    case isTrue => exact ⟨puts, count, output⟩
    case isFalse =>
      obtain ⟨space, ehead, inside, shape⟩ := echoLoop_space (uartFifoSize - level) output.ehead output.etail
      have counted := output.counted
      have enough : (echoLoop (uartFifoSize - level) s).2.ochars (echoLoop (uartFifoSize - level) s).1 ≤ count := by
        unfold System.ochars
        rw [space, shape]
        dsimp only
        rw [semcount_eq output.sems.output.valid]
        rcases spaced with isHeld | few | noWriter
        · exact absurd isHeld notHeld
        · rw [output.held_eq] at few
          lia
        · rw [output.count_of_noWriter noWriter]
          omega
      dsimp only
      generalize (echoLoop (uartFifoSize - level) s).2.ochars (echoLoop (uartFifoSize - level) s).1 = chars at *
      rw [shape]
      obtain ⟨sent, order, sends⟩ := @sendLoop_order { s with tyehead := ehead } count chars output.head enough
      rw [sends]
      have below : (s.tyohead + chars) % tyObuflen < tyObuflen := Nat.mod_lt _ (by decide)
      have tail : s.tyotail = ((s.tyohead + chars) % tyObuflen + (count - chars)) % tyObuflen := by
        rw [output.tail, Nat.mod_add_mod]
        congr 1
        lia
      split
      · refine ⟨puts + chars, count - chars, output.sems.signaln_output chars, ?_, ?_, below, tail, inside,
          output.etail⟩
        · push_cast [enough]
          lia
        · exact output.order.trans order.symm
      case isFalse none_ =>
        obtain rfl : chars = 0 := by lia
        exact ⟨puts, count, output.sems, counted, output.order.trans order.symm, below, tail, inside, output.etail⟩

/-- `signaln` of the input semaphore, with any count. -/
theorem Sems.signaln_any {k : Kernel Point} {tyisem tyosem : Int} (sems : Sems k tyisem tyosem gets puts)
    (chars : Int) : ∃ more, Sems (signaln k tyisem chars) tyisem tyosem more puts := by
  by_cases negative : chars < 0
  · unfold signaln
    rw [if_pos (Or.inr (Or.inl negative))]
    exact ⟨gets, sems⟩
  · have line := sems.signaln_input chars.toNat
    rw [Int.toNat_of_nonneg (by omega)] at line
    exact ⟨_, line⟩

/-- What is done with a typed character leaves the output as it is. -/
theorem Output.apply (output : Output s gets puts 0 count) (edit : Edit) :
    ∃ more, Output (edit.apply s) more puts 0 count := by
  cases edit with
  | nothing | erase | kill | char ch =>
    exact ⟨gets, output.keeps output.sems rfl rfl output.ehead output.etail⟩
  | store ch wrap signals =>
    cases signals with
    | true => exact ⟨gets + 1, output.keeps output.sems.signal_input rfl rfl output.ehead output.etail⟩
    | false => exact ⟨gets, output.keeps output.sems rfl rfl output.ehead output.etail⟩
  | line ch =>
    obtain ⟨more, sems⟩ := output.sems.signaln_any (s.tyicursor + 1)
    exact ⟨more, output.keeps sems rfl rfl output.ehead output.etail⟩

/-- A character is typed. -/
theorem Output.type (output : Output s gets puts 0 count) (typed : UInt8) :
    ∃ more, Output (ttyhandleIn typed s) more puts 0 count := by
  obtain ⟨held, otail, buffer, etail, handled, sameTail, inside⟩ := handled_ttyhandleIn typed s
  have isTail : otail = s.tyotail := sameTail (output.tail ▸ Nat.mod_lt _ (by decide))
  obtain ⟨more, applied⟩ := output.apply (s.choose typed)
  have otail : ((s.choose typed).apply s).tyotail = s.tyotail := applied.tail.trans (by
    cases s.choose typed with
    | store ch wrap signals => cases signals <;> exact output.tail.symm
    | nothing | erase | kill | char ch | line ch => exact output.tail.symm)
  rw [handled, isTail]
  refine ⟨more, applied.keeps applied.sems ?_ rfl applied.ehead (inside output.etail)⟩
  rw [otail]
  rfl

/-- Every move that meets the condition keeps the order of the output. -/
theorem output_preserved (before : System) (move : Move) (reply : Option Int) (after : System)
    (holds : ∃ gets puts count, Output before gets puts 0 count) (spaced : Spaced before move)
    (completed : step before move = some (reply, after)) : ∃ gets puts count, Output after gets puts 0 count := by
  obtain ⟨gets, puts, count, output⟩ := holds
  cases move with
  | type typed =>
    cases completed
    obtain ⟨more, typed⟩ := output.type typed
    exact ⟨more, puts, count, typed⟩
  | getc pid =>
    simp only [step] at completed
    split at completed
    case isTrue idle =>
      have isAfter : after = (ttygetc before pid).2 := (congrArg Prod.snd (Option.some.inj completed)).symm
      rw [isAfter]
      unfold ttygetc
      obtain ⟨_, kernel, result, _, sems⟩ | ⟨kernel, result, _, sems⟩ := output.sems.wait_input idle
      · rw [result]
        dsimp only
        rw [getcRest_eq]
        exact ⟨_, puts, count, output.keeps sems rfl rfl output.ehead output.etail⟩
      · rw [result]
        exact ⟨_, puts, count, output.keeps sems rfl rfl output.ehead output.etail⟩
    case isFalse => cases completed
  | putc pid ch =>
    simp only [step] at completed
    split at completed
    case isTrue idle =>
      have isAfter : after = (ttyputc before pid ch).2 := (congrArg Prod.snd (Option.some.inj completed)).symm
      rw [isAfter]
      obtain ⟨left, more, stored⟩ :=
        output.putLoop (if ch = tyNewline ∧ before.tyocrlf then [tyReturn, ch] else [ch]) idle
      exact ⟨gets, left, more, stored⟩
    case isFalse => cases completed
  | output level =>
    cases completed
    obtain ⟨more, left, sent⟩ := output.output level spaced
    exact ⟨gets, more, left, sent⟩
  | control func =>
    cases completed
    cases func <;> exact ⟨gets, puts, count, output.keeps output.sems rfl rfl output.ehead output.etail⟩
  | goOn pid =>
    simp only [step] at completed
    split at completed
    case h_1 point ready =>
      have isAfter : after = (proceed before pid point).2 :=
        (congrArg Prod.snd (Option.some.inj completed)).symm
      rw [isAfter]
      cases point with
      | getting =>
        obtain ⟨_, sems⟩ := output.sems.goOn_getting ready
        unfold proceed
        dsimp only
        rw [getcRest_eq]
        exact ⟨_, puts, count, output.keeps sems rfl rfl output.ehead output.etail⟩
      | putting ch rest =>
        obtain ⟨left, more, stored⟩ := output.goOn_putting ready
        exact ⟨gets, left, more, stored⟩
    all_goals cases completed

end Buffer

theorem ttyinit_output {used : Int → Processes.Sstate} (ready : Ready (ttyinit used)) :
    Output (ttyinit used) 0 tyObuflen 0 0 :=
  ⟨(ttyinit_sems ready).1, rfl, rfl, (by decide : 0 < tyObuflen), rfl, (by decide : 0 < tyEbuflen),
    (by decide : 0 < tyEbuflen)⟩

/-- In every run whose moves meet the condition, the characters that were sent are the first of those
that were stored, and the others lie in the buffer, in order. -/
theorem output_is_in_order (used : Int → Processes.Sstate) (ready : Ready (ttyinit used))
    (events : List (Event System Move (Option Int))) (last : System)
    (run : Run step (ttyinit used) events last) (met : Meets Spaced events) :
    last.sent <+: last.stored ∧ last.held ≤ tyObuflen ∧
    last.stored = last.sent ++ contents last.tyobuff tyObuflen last.tyohead last.held := by
  obtain ⟨gets, puts, count, output⟩ := invariant_last (fun s => ∃ gets puts count, Output s gets puts 0 count)
    Spaced output_preserved _ _ _ run ⟨0, tyObuflen, 0, ttyinit_output ready⟩ met
  have counted := output.counted
  have nonneg := output.sems.output.nonneg
  rw [output.held_eq]
  exact ⟨⟨_, output.order.symm⟩, by omega, output.order⟩

/-- An executable form of the condition. -/
def System.spaced (s : System) : Move → Bool
  | .output level => uartFifoSize - level ≤ s.echoes + s.held
  | .type _ => false
  | _ => true

theorem spaced_of_spaced {s : System} {move : Move} (spaced : s.spaced move = true) : Spaced s move := by
  cases move with
  | output level => exact Or.inr (Or.inl (of_decide_eq_true spaced))
  | type typed => cases spaced
  | getc pid | putc pid ch | control func | goOn pid => trivial

/-- Two processes write, and the device has space for two characters. -/
theorem two_writers_are_in_order : ∃ events last, Run step (ttyinit fun _ => .free) events last ∧
    last.sent = [97, 13] ∧ last.stored = [97, 13, 10] ∧ last.sent <+: last.stored := by
  obtain ⟨events, last, run, checked⟩ := trace_exists step (ttyinit fun _ => .free)
    [.putc 1 97, .putc 2 10, .output 62]
    (fun events last => decide (last.sent = [97, 13] ∧ last.stored = [97, 13, 10] ∧
      ∀ event ∈ events, event.before.spaced event.call = true)) (by decide +kernel)
  obtain ⟨sent, stored, spaced⟩ := of_decide_eq_true checked
  obtain ⟨order, _⟩ := output_is_in_order (fun _ => .free) (by decide +kernel) events last run
    fun event member => spaced_of_spaced (spaced event member)
  exact ⟨events, last, run, sent, stored, order⟩

/-- A writer waits for the full buffer. One interrupt sends all characters and releases the writer, and
the next one sends a character that no process has stored. -/
theorem interrupt_sends_stale_character : ∃ events last, Run step (ttyinit fun _ => .free) events last ∧
    last.stored.length = 64 ∧ last.sent.length = 65 ∧ ¬ last.sent <+: last.stored := by
  obtain ⟨events, last, run, checked⟩ := trace_exists step (ttyinit fun _ => .free)
    (List.replicate 64 (.putc 1 97) ++ [.putc 2 98, .output 0, .output 0])
    (fun _ (last : System) => decide (last.stored.length = 64 ∧ last.sent.length = 65)) (by decide +kernel)
  obtain ⟨stored, sent⟩ := of_decide_eq_true checked
  refine ⟨events, last, run, stored, sent, fun order => ?_⟩
  have shorter := order.length_le
  omega

end Xinu.Tty
