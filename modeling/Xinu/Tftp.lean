import Xinu.CStrings
import Xinu.Datagrams
import Xinu.NetworkOrder

/-!
# Download by TFTP

`tftpget_mb` asks a server for a file and stores the blocks it gets into buffers, one buffer after
another. Each request is sent again when nothing comes in time, at most three times. `tftp_send1`
takes the first datagram with the block that is expected and drops what else comes.

The network is open: whether a message can be sent, and what each call of `udp_recvaddr` comes to,
are inputs, and a download that waits for more than its arrivals has no result. Ports are left out:
nothing depends on them. Beside the buffers the places are recorded that were written.
-/

namespace Xinu.Tftp

open CIntegers Datagrams NetworkOrder

/-- `TFTP_DATA` and `TFTP_ERROR`. -/
def tftpData : UInt16 := 3

def tftpError : UInt16 := 5

/-- `TFTP_MAXNAM`, `TFTP_MAXDATA` and `TFTP_MAXRETRIES`. -/
def tftpMaxnam : Nat := 64

def tftpMaxdata : Nat := 512

def tftpMaxretries : Nat := 3

/-- `SYSERR` and `TIMEOUT`. -/
def syserr : Int := -1

def timeout : Int := -3

/-- The places of `tf_opcode`, `tf_dblk` and `tf_data` in a message, and `sizeof(struct tftp_msg)`. -/
def tfOpcode : Nat := 0

def tfDblk : Nat := 2

def tfData : Nat := 4

def tftpMsgSize : Nat := tfData + tftpMaxdata

/-- What is sent: a read request with the name of the file, or an acknowledgement. -/
inductive Outmsg where
  | rrq (filename : CString)
  | ack (block : UInt16)
deriving DecidableEq

/-- The network: which messages can be sent, those that were sent, and what comes. -/
structure Net where
  sendto : Nat → Bool
  sent : List Outmsg
  arrivals : List Received

/-- `udp_sendto`. -/
def udpSendto (net : Net) (msg : Outmsg) : Bool × Net :=
  (net.sendto net.sent.length, { net with sent := net.sent ++ [msg] })

/-- The loop of `tftp_send1`, on the arrivals that are left. -/
def tftpSend1Loop (expected : UInt16) : Memory → List Received → Option (Int × Memory × List Received)
  | _, [] => none
  | inmsg, .syserr :: rest => some (syserr, inmsg, rest)
  | inmsg, .timeout :: rest => some (timeout, inmsg, rest)
  | inmsg, .datagram data :: rest =>
    let n := min tftpMsgSize data.length
    let inmsg := store inmsg tftpMsgSize data
    if n < 4 then tftpSend1Loop expected inmsg rest
    else if ntohs inmsg tfOpcode = tftpError then some (syserr, inmsg, rest)
    else if ntohs inmsg tfOpcode = tftpData ∧ ntohs inmsg tfDblk = expected then
      some (n, inmsg, rest)
    else tftpSend1Loop expected inmsg rest

/-- `tftp_send1`. -/
def tftpSend1 (net : Net) (msg : Outmsg) (inmsg : Memory) (expected : UInt16) :
    Option (Int × Memory × Net) :=
  let (sent, net) := udpSendto net msg
  if !sent then some (syserr, inmsg, net)
  else
    (tftpSend1Loop expected inmsg net.arrivals).map fun (n, inmsg, rest) =>
      (n, inmsg, { net with arrivals := rest })

/-- The loop of `tftpget_mb` that sends a message until it is answered. No length stands for a
download that fails. -/
def requestLoop (msg : Outmsg) (expected : UInt16) :
    Nat → Memory → Net → Option (Option Nat × Memory × Net)
  | 0, inmsg, net => some (none, inmsg, net)
  | turns + 1, inmsg, net =>
    (tftpSend1 net msg inmsg expected).bind fun (n, inmsg, net) =>
      if 0 < n then some (some n.toNat, inmsg, net)
      else if n = syserr then some (none, inmsg, net)
      else requestLoop msg expected turns inmsg net

/-- The buffers of a download, with `curr_buf_ind`, `curr_used` and `filesiz`. -/
structure Filling where
  bufs : Nat → Memory
  currBufInd : Nat
  currUsed : Nat
  filesiz : Nat
  written : List (Nat × Nat)

/-- `*curr_buf++ = inmsg.tf_data[i]; curr_used++; filesiz++`. -/
def Filling.put (f : Filling) (byte : UInt8) : Filling where
  bufs := Function.update f.bufs f.currBufInd (Function.update (f.bufs f.currBufInd) f.currUsed byte)
  currBufInd := f.currBufInd
  currUsed := f.currUsed + 1
  filesiz := f.filesiz + 1
  written := f.written ++ [(f.currBufInd, f.currUsed)]

/-- The loop that moves a block into the buffers; it tells whether they are full. -/
def moveLoop (sizes : List Nat) (inmsg : Memory) : Nat → Nat → Filling → Bool × Filling
  | 0, _, f => (false, f)
  | left + 1, i, f =>
    if f.currUsed < sizes.getD f.currBufInd 0 then
      moveLoop sizes inmsg left (i + 1) (f.put (inmsg (tfData + i)))
    else if sizes.length ≤ f.currBufInd + 1 then (true, f)
    else
      moveLoop sizes inmsg left (i + 1)
        ({ f with currBufInd := f.currBufInd + 1, currUsed := 0 }.put (inmsg (tfData + i)))

/-- The outer loop of `tftpget_mb`, for a number of blocks. -/
def blockLoop (sizes : List Nat) : Nat → Outmsg → UInt16 → Memory → Filling → Net →
    Option (Int × Filling × Net)
  | 0, _, _, _, _, _ => none
  | turns + 1, msg, expected, inmsg, f, net =>
    (requestLoop msg expected tftpMaxretries inmsg net).bind fun (n, inmsg, net) =>
      match n with
      | none => some (syserr, f, net)
      | some n =>
        let dlen := n - tfData
        let (full, f) := moveLoop sizes inmsg dlen 0 f
        if full then some (f.filesiz, f, net)
        else if dlen < tftpMaxdata then
          let (sent, net) := udpSendto net (.ack expected)
          if !sent then some (syserr, f, net) else some (f.filesiz, f, net)
        else blockLoop sizes turns (.ack expected) (expected + 1) inmsg f net

/-- The arguments of `tftpget_mb`, with what `getutime` and `udp_register` come to. A size stands for
a buffer, none for a null pointer. -/
structure Request where
  serverip : UInt32
  filename : Option CString
  rcvBufs : List (Option Nat)
  clock : Bool
  socket : Bool

/-- `tftpget_mb`. Every turn of its outer loop takes something that came. -/
def tftpgetMb (q : Request) (bufs : Nat → Memory) (inmsg : Memory) (net : Net) :
    Option (Int × Filling × Net) :=
  let f : Filling := ⟨bufs, 0, 0, 0, []⟩
  match q.filename with
  | none => some (syserr, f, net)
  | some filename =>
    if q.serverip = 0 ∨ q.rcvBufs = [] then some (syserr, f, net)
    else if ∃ buf ∈ q.rcvBufs, buf.getD 0 = 0 then some (syserr, f, net)
    else if filename.chars.length = 0 ∨ tftpMaxnam < filename.chars.length then some (syserr, f, net)
    else if !q.clock then some (syserr, f, net)
    else if !q.socket then some (syserr, f, net)
    else blockLoop (q.rcvBufs.map (·.getD 0)) (net.arrivals.length + 1) (.rrq filename) 1 inmsg f net

end Xinu.Tftp
