import Xinu.SemaphoreTokens
import Xinu.RingBuffer
import Xinu.Runs

/-!
# The terminal

A terminal line has three circular buffers: characters that were typed, characters to be written,
and characters to be echoed. `ttyhandle_in` handles a character that was typed, in one of three modes,
and `ttyhandle_out` sends characters to the device. Semaphores count the typed characters that may be
read and the free places of the output buffer.

The calls run with interrupts disabled; other processes and the interrupts come in where `wait`
blocks. Which process goes on is left open, and so are the characters that are typed and the level of
the output queue of the device.

Pointers into the input buffer are offsets from its start. An offset outside of the buffer is a place
in other memory. Beside the control block the system records the typed characters that were stored and
not yet taken, those that were returned, and the characters that were stored in the output buffer and
sent from it. The look-ahead of `ttycontrol` is left out.
-/

namespace Xinu.Tty

open Semaphores Runs RingBuffer

/-- `TY_IBUFLEN`, `TY_OBUFLEN`, `TY_EBUFLEN` and `UART_FIFO_SIZE`. -/
def tyIbuflen : Nat := 128

def tyObuflen : Nat := 64

def tyEbuflen : Nat := 20

def uartFifoSize : Nat := 64

/-- The characters with a meaning to the driver. -/
def tyBacksp : UInt8 := 8

def tyBell : UInt8 := 7

def tyEofch : UInt8 := 4

def tyBlank : UInt8 := 32

def tyNewline : UInt8 := 10

def tyReturn : UInt8 := 13

def tyStopch : UInt8 := 19

def tyStrtch : UInt8 := 17

def tyKillch : UInt8 := 21

def tyUparrow : UInt8 := 94

def tyDelete : UInt8 := 127

/-- `OK` and `EOF`, as what the calls return. -/
def ok : Int := 1

def eof : Int := -2

/-- `TY_IMRAW`, `TY_IMCOOKED` and `TY_IMCBREAK`. -/
inductive Mode where
  | raw
  | cooked
  | cbreak
deriving DecidableEq

/-- Where a process goes on: behind the `wait` of `ttygetc`, and behind that of `ttyputc` with a
character and those behind it. -/
inductive Point where
  | getting
  | putting (ch : UInt8) (rest : List UInt8)
deriving DecidableEq

/-- `struct ttycblk` and the processes. -/
structure System where
  kernel : Kernel Point
  tyihead : Int
  tyitail : Int
  tyibuff : Int → UInt8
  tyisem : Int
  tyohead : Nat
  tyotail : Nat
  tyobuff : Nat → UInt8
  tyosem : Int
  tyehead : Nat
  tyetail : Nat
  tyebuff : Nat → UInt8
  tyimode : Mode
  tyiecho : Bool
  tyieback : Bool
  tyevis : Bool
  tyecrlf : Bool
  tyicrlf : Bool
  tyierase : Bool
  tyierasec : UInt8
  tyeof : Bool
  tyeofch : UInt8
  tyikill : Bool
  tyikillc : UInt8
  tyicursor : Int
  tyoflow : Bool
  tyoheld : Bool
  tyostop : UInt8
  tyostart : UInt8
  tyocrlf : Bool
  tyifullc : UInt8
  unread : List UInt8
  returned : List UInt8
  stored : List UInt8
  sent : List UInt8

def System.place (s : System) (pid : Nat) (process : Process Point) : System :=
  { s with kernel := s.kernel.place pid process }

/-- `eputc`. -/
def eputc (ch : UInt8) (s : System) : System :=
  { s with
    tyebuff := Function.update s.tyebuff s.tyetail ch
    tyetail := if tyEbuflen ≤ s.tyetail + 1 then 0 else s.tyetail + 1 }

/-- A control character. -/
def unprintable (ch : UInt8) : Bool := ch < tyBlank ∨ ch = tyDelete

/-- `echoch`. -/
def echoch (ch : UInt8) (s : System) : System :=
  if (ch = tyNewline ∨ ch = tyReturn) ∧ s.tyecrlf then eputc tyNewline (eputc tyReturn s)
  else if unprintable ch ∧ s.tyevis then eputc (ch + 64) (eputc tyUparrow s)
  else eputc ch s

/-- A character on the screen is erased. -/
def rubOut (s : System) : System :=
  let s := eputc tyBacksp s
  if s.tyieback then eputc tyBacksp (eputc tyBlank s) else s

/-- `erase1`, which takes back the last character of the line. -/
def erase1 (s : System) : System :=
  let tail := s.tyitail - 1
  let s := { s with
    tyitail := if tail < 0 then tail + tyIbuflen else tail
    unread := s.unread.dropLast }
  let ch := s.tyibuff s.tyitail
  if s.tyiecho then
    if unprintable ch then rubOut (if s.tyevis then rubOut s else s)
    else rubOut s
  else s

/-- A character is stored behind the others. Some of the callers wrap the pointer. -/
def insert (ch : UInt8) (wrap : Bool) (s : System) : System :=
  let tail := s.tyitail + 1
  { s with
    tyibuff := Function.update s.tyibuff s.tyitail ch
    tyitail := if wrap ∧ tyIbuflen ≤ tail then 0 else tail
    unread := s.unread ++ [ch] }

def System.signal (s : System) : System := { s with kernel := (Semaphores.signal s.kernel s.tyisem).2 }

/-- The characters that are available, for the tests of `ttyhandle_in`. -/
def System.avail (s : System) : Int := max 0 (semcount s.kernel s.tyisem)

/-- `ttyhandle_in` in raw mode. The wrap is that of the output pointer. -/
def handleRaw (ch : UInt8) (s : System) : System :=
  if tyIbuflen ≤ s.avail then s
  else
    let s := insert ch false s
    let s := { s with tyotail := if tyObuflen ≤ s.tyotail then 0 else s.tyotail }
    s.signal

/-- `ttyhandle_in` in cbreak mode, behind the common part. -/
def handleCbreak (ch : UInt8) (s : System) : System :=
  if tyIbuflen ≤ s.avail then eputc s.tyifullc s
  else
    let s := insert ch true s
    if s.tyiecho then echoch ch s else s

/-- The line kill character. The wrap moves the other pointer. -/
def killLine (s : System) : System :=
  let tail := s.tyitail - s.tyicursor
  let s := { s with
    tyitail := tail
    tyihead := if tail < 0 then s.tyihead + tyIbuflen else s.tyihead
    unread := s.unread.take (s.unread.length - s.tyicursor.toNat)
    tyicursor := 0 }
  eputc tyNewline (eputc tyReturn s)

/-- The end of a line, which makes the line available. -/
def endLine (ch : UInt8) (s : System) : System :=
  let s := if s.tyiecho then echoch ch s else s
  let s := insert ch true s
  { s with kernel := signaln s.kernel s.tyisem (s.tyicursor + 1), tyicursor := 0 }

/-- `ttyhandle_in` in cooked mode, behind the common part. -/
def handleCooked (ch : UInt8) (s : System) : System :=
  if ch = s.tyikillc ∧ s.tyikill then killLine s
  else if ch = s.tyierasec ∧ s.tyierase then
    if 0 < s.tyicursor then erase1 { s with tyicursor := s.tyicursor - 1 } else s
  else if ch = tyNewline ∨ ch = tyReturn then endLine ch s
  else if tyIbuflen - 1 ≤ s.avail + s.tyicursor then eputc s.tyifullc s
  else if ch = s.tyeofch ∧ s.tyeof then
    let s := if s.tyiecho then echoch ch s else s
    if s.tyicursor ≠ 0 then s else (insert ch false s).signal
  else
    let s := if s.tyiecho then echoch ch s else s
    insert ch true { s with tyicursor := s.tyicursor + 1 }

/-- A carriage return becomes a newline outside of raw mode. -/
def System.map (s : System) (ch : UInt8) : UInt8 := if ch = tyReturn ∧ s.tyicrlf then tyNewline else ch

/-- `ttyhandle_in`. -/
def ttyhandleIn (typed : UInt8) (s : System) : System :=
  if s.tyimode = .raw then handleRaw typed s
  else
    let ch := s.map typed
    if s.tyoflow ∧ ch = s.tyostart then { s with tyoheld := false }
    else if s.tyoflow ∧ ch = s.tyostop then { s with tyoheld := true }
    else
      let s := { s with tyoheld := false }
      if s.tyimode = .cbreak then handleCbreak ch s else handleCooked ch s

/-- `ttygetc` behind its `wait`. -/
def getcRest (s : System) : Option Int × System :=
  let ch := s.tyibuff s.tyihead
  let head := s.tyihead + 1
  let s := { s with
    tyihead := if tyIbuflen ≤ head then 0 else head
    unread := s.unread.tail
    returned := s.returned ++ [ch] }
  if s.tyimode = .cooked ∧ s.tyeof ∧ ch = s.tyeofch then (some eof, s) else (some ch.toNat, s)

/-- `ttygetc`. -/
def ttygetc (s : System) (pid : Nat) : Option Int × System :=
  match wait s.kernel pid .getting s.tyisem with
  | (.blocked, kernel) => (none, { s with kernel := kernel })
  | (.passed, kernel) | (.refused, kernel) => getcRest { s with kernel := kernel }

/-- `ttyputc` behind its `wait`. -/
def putRest (ch : UInt8) (s : System) : System :=
  { s with
    tyobuff := Function.update s.tyobuff s.tyotail ch
    tyotail := if tyObuflen ≤ s.tyotail + 1 then 0 else s.tyotail + 1
    stored := s.stored ++ [ch] }

/-- The characters that `ttyputc` puts one after another. -/
def putLoop (pid : Nat) : List UInt8 → System → Option Int × System
  | [], s => (some ok, s)
  | ch :: rest, s =>
    match wait s.kernel pid (.putting ch rest) s.tyosem with
    | (.blocked, kernel) => (none, { s with kernel := kernel })
    | (.passed, kernel) | (.refused, kernel) => putLoop pid rest (putRest ch { s with kernel := kernel })

/-- `ttyputc`, which calls itself to put a carriage return before a newline. -/
def ttyputc (s : System) (pid : Nat) (ch : UInt8) : Option Int × System :=
  putLoop pid (if ch = tyNewline ∧ s.tyocrlf then [tyReturn, ch] else [ch]) s

/-- The loop of `ttyhandle_out` over the echo queue, with the space that is left. -/
def echoLoop : Nat → System → Nat × System
  | 0, s => (0, s)
  | uspace + 1, s =>
    if s.tyehead ≠ s.tyetail then
      echoLoop uspace { s with tyehead := if tyEbuflen ≤ s.tyehead + 1 then 0 else s.tyehead + 1 }
    else (uspace + 1, s)

/-- The loop of `ttyhandle_out` over the output queue. -/
def sendLoop : Nat → System → System
  | 0, s => s
  | chars + 1, s =>
    sendLoop chars { s with
      sent := s.sent ++ [s.tyobuff s.tyohead]
      tyohead := if tyObuflen ≤ s.tyohead + 1 then 0 else s.tyohead + 1 }

/-- The characters that `ttyhandle_out` takes from the output queue: as many as there is space for and
as the semaphore tells. -/
def System.ochars (s : System) (uspace : Nat) : Nat :=
  min uspace (tyObuflen - semcount s.kernel s.tyosem).toNat

/-- `ttyhandle_out`, at a level of the output queue of the device. -/
def ttyhandleOut (level : Nat) (s : System) : System :=
  if s.tyoheld then s
  else if s.tyehead = s.tyetail ∧ tyObuflen ≤ semcount s.kernel s.tyosem then s
  else
    let (uspace, s) := echoLoop (uartFifoSize - level) s
    let ochars := s.ochars uspace
    let s := sendLoop ochars s
    if 0 < ochars then { s with kernel := signaln s.kernel s.tyosem ochars } else s

/-- The functions of `ttycontrol`. -/
inductive Func where
  | moder
  | modec
  | modek
  | ichars
  | echo
  | noecho
deriving DecidableEq

/-- `ttycontrol`. -/
def ttycontrol (s : System) : Func → Int × System
  | .moder => (ok, { s with tyimode := .raw })
  | .modec => (ok, { s with tyimode := .cooked })
  | .modek => (ok, { s with tyimode := .cbreak })
  | .ichars => (semcount s.kernel s.tyisem, s)
  | .echo => (ok, { s with tyiecho := true })
  | .noecho => (ok, { s with tyiecho := false })

/-- A process makes a call or goes on in one, a character is typed, or an output interrupt comes. -/
inductive Move where
  | type (ch : UInt8)
  | getc (pid : Nat)
  | putc (pid : Nat) (ch : UInt8)
  | output (level : Nat)
  | control (func : Func)
  | goOn (pid : Nat)
deriving DecidableEq

/-- A process goes on. -/
def proceed (s : System) (pid : Nat) : Point → Option Int × System
  | .getting => getcRest (s.place pid .idle)
  | .putting ch rest => putLoop pid rest (putRest ch (s.place pid .idle))

/-- One move, with what the call returns if it is over. -/
def step (s : System) : Move → Option (Option Int × System)
  | .type ch => some (none, ttyhandleIn ch s)
  | .getc pid => if s.kernel.process pid = .idle then some (ttygetc s pid) else none
  | .putc pid ch => if s.kernel.process pid = .idle then some (ttyputc s pid ch) else none
  | .output level => some (none, ttyhandleOut level s)
  | .control func =>
    let (result, s) := ttycontrol s func
    some (some result, s)
  | .goOn pid => match s.kernel.process pid with
    | .ready point => some (proceed s pid point)
    | .idle | .waiting _ _ => none

/-- `ttyinit`, with semaphores that others use. -/
def ttyinit (used : Int → Processes.Sstate) : System :=
  let (tyisem, kernel) := semcreate (atBoot used) 0
  let (tyosem, kernel) := semcreate kernel tyObuflen
  { kernel := kernel
    tyihead := 0
    tyitail := 0
    tyibuff := fun _ => 0
    tyisem := tyisem
    tyohead := 0
    tyotail := 0
    tyobuff := fun _ => 0
    tyosem := tyosem
    tyehead := 0
    tyetail := 0
    tyebuff := fun _ => 0
    tyimode := .cooked
    tyiecho := true
    tyieback := true
    tyevis := true
    tyecrlf := true
    tyicrlf := true
    tyierase := true
    tyierasec := tyBacksp
    tyeof := true
    tyeofch := tyEofch
    tyikill := true
    tyikillc := tyKillch
    tyicursor := 0
    tyoflow := true
    tyoheld := false
    tyostop := tyStopch
    tyostart := tyStrtch
    tyocrlf := true
    tyifullc := tyBell
    unread := []
    returned := []
    stored := []
    sent := [] }

end Xinu.Tty
