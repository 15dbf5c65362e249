import Xinu.SemaphoreTokens
import Xinu.RingBuffer
import Xinu.Runs

/-!
# The UART

The upper half of the driver, `uartRead` and `uartWrite`, and the lower half, `uartInterrupt` of the
PL011, share two circular buffers. A semaphore counts the bytes in the input buffer, and another one
the free places of the output buffer. A byte is written to the hardware directly while the
transmitter is marked idle, and through the output buffer otherwise.

The calls run with interrupts disabled; other processes and the interrupts come in where `wait`
blocks. Which process goes on is left open, and so are the bytes that the hardware has received and
the bytes that it can take at an interrupt.

Beside the control block the system records the bytes on the line, the bytes of the received ones
that were kept or lost, the bytes that were taken and to whom they were delivered, and the bytes that
the processes asked to write and those of them that were accepted.
-/

namespace Xinu.Uart

open Semaphores Runs RingBuffer

/-- `UART_IBLEN` and `UART_OBLEN`. -/
def uartIblen : Nat := 1024

def uartOblen : Nat := 1024

/-- The flags of the driver. -/
def uartIflagNoblock : UInt8 := 1

def uartIflagEcho : UInt8 := 2

def ttyIcrnl : UInt8 := 8

def uartOflagNoblock : UInt8 := 1

/-- `TY_NEWLINE` and `TY_RETURN`. -/
def tyNewline : UInt8 := 10

def tyReturn : UInt8 := 13

/-- `SYSERR` and `OK`, as what the calls return. -/
def syserr : Int := -1

def ok : Int := 1

/-- Who calls `uartWrite`: a process with bytes behind the current one, or `uartRead`, which echoes a
byte. The latter has some turns left, and has counted and stored some bytes. -/
inductive Caller where
  | write (count : Nat) (rest : List UInt8)
  | echo (left count : Nat) (buf : List UInt8)
deriving DecidableEq

/-- Where a process goes on: behind the `wait` of `uartRead` and behind that of `uartWrite`. -/
inductive Point where
  | removing (left count : Nat) (buf : List UInt8)
  | storing (ch : UInt8) (caller : Caller)
deriving DecidableEq

/-- `struct uart` and the processes. `csr` tells whether the registers were set. -/
structure System where
  kernel : Kernel Point
  csr : Bool
  cout : UInt32
  cin : UInt32
  ovrrn : UInt32
  iirq : UInt32
  oirq : UInt32
  iflags : UInt8
  isema : Int
  istart : Nat
  icount : Int
  input : Nat → UInt8
  oflags : UInt8
  osema : Int
  ostart : Nat
  ocount : Int
  output : Nat → UInt8
  oidle : Bool
  line : List UInt8
  received : List (UInt8 × Bool)
  taken : List (UInt8 × Bool)
  delivered : List (Nat × UInt8)
  asked : Nat → List UInt8
  accepted : List (Nat × UInt8)

/-- What a call returns, with the buffer of a `uartRead`. -/
inductive Reply where
  | wrote (count : Int)
  | read (count : Int) (buf : List UInt8)
  | control (old : Int)
deriving DecidableEq

/-- A byte was sent or stored, or there was no room, or the process waits. -/
inductive Put where
  | done
  | refused
  | blocked
deriving DecidableEq

def System.place (s : System) (pid : Nat) (process : Process Point) : System :=
  { s with kernel := s.kernel.place pid process }

/-- `uartHwPutc`. -/
def uartHwPutc (s : System) (pid : Nat) (ch : UInt8) : System :=
  { s with line := s.line ++ [ch], accepted := s.accepted ++ [(pid, ch)] }

/-- `uartWrite` behind its `wait`. -/
def storeByte (s : System) (pid : Nat) (ch : UInt8) : System :=
  { s with
    output := Function.update s.output ((s.ostart + s.ocount) % uartOblen).toNat ch
    ocount := s.ocount + 1
    accepted := s.accepted ++ [(pid, ch)] }

/-- One turn of the loop of `uartWrite`. -/
def putByte (s : System) (pid : Nat) (ch : UInt8) (caller : Caller) : Put × System :=
  if s.oidle then (.done, { uartHwPutc s pid ch with oidle := false, cout := s.cout + 1 })
  else if s.oflags &&& uartOflagNoblock ≠ 0 ∧ s.ocount = uartOblen then (.refused, s)
  else
    match wait s.kernel pid (.storing ch caller) s.osema with
    | (.blocked, kernel) => (.blocked, { s with kernel := kernel })
    | (.passed, kernel) | (.refused, kernel) => (.done, storeByte { s with kernel := kernel } pid ch)

/-- The loop of `uartWrite`. -/
def writeLoop (pid : Nat) : List UInt8 → Nat → System → Option Reply × System
  | [], count, s => (some (.wrote count), s)
  | ch :: rest, count, s =>
    match putByte s pid ch (.write count rest) with
    | (.done, s) => writeLoop pid rest (count + 1) s
    | (.refused, s) => (some (.wrote count), s)
    | (.blocked, s) => (none, s)

/-- The bytes that a process asks to write. -/
def System.ask (s : System) (pid : Nat) (bytes : List UInt8) : System :=
  { s with asked := Function.update s.asked pid (s.asked pid ++ bytes) }

/-- `uartWrite`. -/
def uartWrite (s : System) (pid : Nat) (buf : List UInt8) : Option Reply × System :=
  if s.csr = false then (some (.wrote syserr), s)
  else writeLoop pid buf 0 (s.ask pid buf)

/-- A carriage return becomes a newline if the flag is set. -/
def mapReturn (c : UInt8) (icrnl : Bool) : UInt8 := if icrnl ∧ c = tyReturn then tyNewline else c

def System.icrnl (s : System) : Bool := s.iflags &&& ttyIcrnl ≠ 0

/-- The byte that is removed next, as it is stored. -/
def System.next (s : System) : UInt8 := mapReturn (s.input s.istart) s.icrnl

/-- `uartRead` behind its `wait`: a byte is removed and stored. -/
def removeByte (s : System) (pid : Nat) : System :=
  { s with
    icount := s.icount - 1
    istart := (s.istart + 1) % uartIblen
    taken := s.taken ++ [(s.input s.istart, s.icrnl)]
    delivered := s.delivered ++ [(pid, s.next)] }

/-- The echo of a byte through `uartPutc`. -/
def echoByte (s : System) (pid : Nat) (c : UInt8) (caller : Caller) : Put × System :=
  if s.iflags &&& uartIflagEcho ≠ 0 then
    if s.csr = false then (.refused, s)
    else putByte (s.ask pid [c]) pid c caller
  else (.done, s)

/-- A newline or a carriage return ends `uartRead`. -/
def endsLine (c : UInt8) : Bool := c = tyNewline ∨ c = tyReturn

/-- The end of a turn of `uartRead`, behind the echo. -/
def readNext (next : Nat → List UInt8 → System → Option Reply × System) (count : Nat) (buf : List UInt8)
    (c : UInt8) (s : System) : Option Reply × System :=
  if endsLine c then (some (.read count buf), s) else next (count + 1) buf s

/-- A turn of `uartRead` behind its `wait`. -/
def readTurn (next : Nat → List UInt8 → System → Option Reply × System) (pid left count : Nat)
    (buf : List UInt8) (s : System) : Option Reply × System :=
  let c := s.next
  match echoByte (removeByte s pid) pid c (.echo left count (buf ++ [c])) with
  | (.blocked, s) => (none, s)
  | (.done, s) | (.refused, s) => readNext next count (buf ++ [c]) c s

/-- The loop of `uartRead`. -/
def readLoop (pid : Nat) : Nat → Nat → List UInt8 → System → Option Reply × System
  | 0, count, buf, s => (some (.read count buf), s)
  | left + 1, count, buf, s =>
    if s.iflags &&& uartIflagNoblock ≠ 0 ∧ s.icount = 0 then (some (.read count buf), s)
    else
      match wait s.kernel pid (.removing left count buf) s.isema with
      | (.blocked, kernel) => (none, { s with kernel := kernel })
      | (.passed, kernel) | (.refused, kernel) =>
        readTurn (readLoop pid left) pid left count buf { s with kernel := kernel }

/-- `uartRead`. -/
def uartRead (s : System) (pid len : Nat) : Option Reply × System :=
  if s.csr = false then (some (.read syserr []), s) else readLoop pid len 0 [] s

/-- The loop over the output buffer, with the bytes that the hardware can take behind the first. -/
def transmitLoop : Nat → System → Nat × System
  | space, s =>
    let s := { s with
      line := s.line ++ [s.output s.ostart]
      ostart := (s.ostart + 1) % uartOblen
      ocount := s.ocount - 1 }
    match space with
    | 0 => (1, s)
    | space + 1 =>
      if 0 < s.ocount then
        let (count, s) := transmitLoop space s
        (count + 1, s)
      else (1, s)

/-- `uartInterrupt` for a transmit interrupt. -/
def transmit (s : System) (space : Nat) : System :=
  let s := { s with oirq := s.oirq + 1 }
  if 0 < s.ocount then
    let (count, s) := transmitLoop space s
    { s with cout := s.cout + UInt32.ofNat count, kernel := signaln s.kernel s.osema count }
  else { s with oidle := true }

/-- The loop over the bytes that were received. -/
def receiveLoop : List UInt8 → Nat → System → Nat × System
  | [], count, s => (count, s)
  | c :: rest, count, s =>
    if s.icount < uartIblen then
      receiveLoop rest (count + 1) { s with
        input := Function.update s.input ((s.istart + s.icount) % uartIblen).toNat c
        icount := s.icount + 1
        received := s.received ++ [(c, true)] }
    else receiveLoop rest count { s with ovrrn := s.ovrrn + 1, received := s.received ++ [(c, false)] }

/-- `uartInterrupt` for a receive interrupt. -/
def receive (s : System) (first : UInt8) (rest : List UInt8) : System :=
  let (count, s) := receiveLoop (first :: rest) 0 { s with iirq := s.iirq + 1 }
  { s with cin := s.cin + UInt32.ofNat count, kernel := signaln s.kernel s.isema count }

/-- The functions of `uartControl`. -/
inductive Func where
  | setIflag
  | clrIflag
  | getIflag
  | setOflag
  | clrOflag
  | getOflag
  | outputIdle
deriving DecidableEq

/-- `uartControl`. -/
def uartControl (s : System) (arg1 : UInt8) : Func → Int × System
  | .setIflag => ((s.iflags &&& arg1).toNat, { s with iflags := s.iflags ||| arg1 })
  | .clrIflag => ((s.iflags &&& arg1).toNat, { s with iflags := s.iflags &&& ~~~arg1 })
  | .getIflag => (s.iflags.toNat, s)
  | .setOflag => ((s.oflags &&& arg1).toNat, { s with oflags := s.oflags ||| arg1 })
  | .clrOflag => ((s.oflags &&& arg1).toNat, { s with oflags := s.oflags &&& ~~~arg1 })
  | .getOflag => (s.oflags.toNat, s)
  | .outputIdle => (if s.oidle then 1 else 0, s)

/-- A process makes a call or goes on in one, or an interrupt comes. -/
inductive Move where
  | write (pid : Nat) (buf : List UInt8)
  | read (pid len : Nat)
  | control (func : Func) (arg1 : UInt8)
  | transmit (space : Nat)
  | receive (first : UInt8) (rest : List UInt8)
  | goOn (pid : Nat)
deriving DecidableEq

/-- A process goes on. -/
def proceed (s : System) (pid : Nat) : Point → Option Reply × System
  | .removing left count buf => readTurn (readLoop pid left) pid left count buf (s.place pid .idle)
  | .storing ch caller =>
    let s := storeByte (s.place pid .idle) pid ch
    match caller with
    | .write count rest => writeLoop pid rest (count + 1) s
    | .echo left count buf => readNext (readLoop pid left) count buf ch s

/-- One move, with what the call returns if it is over. -/
def step (s : System) : Move → Option (Option Reply × System)
  | .write pid buf => if s.kernel.process pid = .idle then some (uartWrite s pid buf) else none
  | .read pid len => if s.kernel.process pid = .idle then some (uartRead s pid len) else none
  | .control func arg1 =>
    let (old, s) := uartControl s arg1 func
    some (some (.control old), s)
  | .transmit space => some (none, transmit s space)
  | .receive first rest => some (none, receive s first rest)
  | .goOn pid => match s.kernel.process pid with
    | .ready point => some (proceed s pid point)
    | .idle | .waiting _ _ => none

/-- The driver before it is initialised, with semaphores that others use. -/
def boot (used : Int → Processes.Sstate) : System where
  kernel := atBoot used
  csr := false
  cout := 0
  cin := 0
  ovrrn := 0
  iirq := 0
  oirq := 0
  iflags := 0
  isema := 0
  istart := 0
  icount := 0
  input := fun _ => 0
  oflags := 0
  osema := 0
  ostart := 0
  ocount := 0
  output := fun _ => 0
  oidle := false
  line := []
  received := []
  taken := []
  delivered := []
  asked := fun _ => []
  accepted := []

/-- `uartInit`, whose hardware part succeeds or not. -/
def uartInit (s : System) (hardware : Bool) : Int × System :=
  let (isema, kernel) := semcreate s.kernel 0
  let s := { s with
    kernel := kernel, cout := 0, cin := 0, ovrrn := 0, iirq := 0, oirq := 0, isema := isema
    iflags := uartIflagEcho ||| ttyIcrnl, istart := 0, icount := 0 }
  if Processes.isbadsem isema then (syserr, s)
  else
    let (osema, kernel) := semcreate s.kernel uartOblen
    let s := { s with
      kernel := kernel, osema := osema, oflags := 0, ostart := 0, ocount := 0, oidle := true }
    if Processes.isbadsem osema then (syserr, { s with kernel := (semdelete s.kernel isema).2 })
    else if hardware = false then
      (syserr, { s with kernel := (semdelete (semdelete s.kernel isema).2 osema).2 })
    else (ok, { s with csr := true })

end Xinu.Uart
