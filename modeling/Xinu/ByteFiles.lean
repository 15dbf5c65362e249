import Xinu.LocalFiles

/-!
# What local files are for

Files are byte sequences with names, and an open file has a position. Each call on an open file is a
function of the position and the bytes alone, so that a call on one file cannot change another one, and
closing a file and opening it again finds the same bytes. At most twenty files exist, at most six are open,
and none of them twice.

Nothing here tells how the bytes are stored. Only the capacity of a disk shows: the files fit on it if
there are enough index blocks and data blocks for their lengths.
-/

namespace Xinu.LocalFiles

/-- An open file. -/
structure Handle where
  name : CString
  position : Nat

/-- Files with their names in the order of creation, and the open files by pseudo-device. -/
structure Files where
  names : List CString
  contents : CString → List UInt8
  handles : Nat → Option Handle

/-- What a call on an open file returns and leaves. -/
structure Outcome where
  reply : Reply
  position : Nat
  bytes : List UInt8

/-- Bytes at a position are replaced, beyond the end if there are more of them. -/
def overwrite (contents : List UInt8) (position : Nat) (data : List UInt8) : List UInt8 :=
  contents.take position ++ data ++ contents.drop (position + data.length)

/-- The next byte, or the end of the file. -/
def getOutcome (position : Nat) (bytes : List UInt8) : Outcome :=
  match bytes[position]? with
  | none => ⟨(eof, []), position, bytes⟩
  | some ch => ⟨((ch.toNat : Int), []), position + 1, bytes⟩

/-- A byte replaces the next one, or is appended. -/
def putOutcome (ch : UInt8) (position : Nat) (bytes : List UInt8) : Outcome :=
  ⟨(ok, []), position + 1, overwrite bytes position [ch]⟩

/-- A position of the file or its end. -/
def seekOutcome (offset : Nat) (position : Nat) (bytes : List UInt8) : Outcome :=
  if bytes.length < offset then ⟨(syserr, []), position, bytes⟩ else ⟨(ok, []), offset, bytes⟩

/-- The next bytes, as many as there are. -/
def readOutcome (count : Nat) (position : Nat) (bytes : List UInt8) : Outcome :=
  let data := (bytes.drop position).take count
  if data = [] then ⟨(eof, []), position, bytes⟩
  else ⟨((data.length : Int), data), position + data.length, bytes⟩

/-- Bytes replace the next ones, and are appended at the end. -/
def writeOutcome (data : List UInt8) (position : Nat) (bytes : List UInt8) : Outcome :=
  ⟨((data.length : Int), []), position + data.length, overwrite bytes position data⟩

/-- The file becomes empty. -/
def truncateOutcome (_position : Nat) (_bytes : List UInt8) : Outcome := ⟨(ok, []), 0, []⟩

/-- An unknown request of `lflcontrol`. -/
def refuseOutcome (position : Nat) (bytes : List UInt8) : Outcome := ⟨(syserr, []), position, bytes⟩

/-- An open file gets a position and bytes. -/
def Files.put (files : Files) (device : Nat) (name : CString) (position : Nat) (bytes : List UInt8) : Files :=
  { files with
    contents := Function.update files.contents name bytes
    handles := Function.update files.handles device (some ⟨name, position⟩) }

/-- A call on a pseudo-device. -/
def Files.act (files : Files) (device : Nat) (act : Nat → List UInt8 → Outcome) : Reply × Files :=
  match files.handles device with
  | none => ((syserr, []), files)
  | some handle =>
    let outcome := act handle.position (files.contents handle.name)
    (outcome.reply, files.put device handle.name outcome.position outcome.bytes)

/-- The file of a name is open. -/
def Files.isOpen (files : Files) (name : CString) : Bool :=
  (List.range nlfl).any fun device => (files.handles device).any fun handle => handle.name = name

/-- The first pseudo-device that is free. -/
def Files.freeDevice (files : Files) : Option Nat :=
  (List.range nlfl).find? fun device => (files.handles device).isNone

/-- The file of a name is opened at its start. -/
def Files.opened (files : Files) (device : Nat) (name : CString) : Files :=
  { files with handles := Function.update files.handles device (some ⟨name, 0⟩) }

/-- An empty file is added. -/
def Files.created (files : Files) (name : CString) : Files :=
  { files with names := files.names ++ [name], contents := Function.update files.contents name [] }

/-- A file is opened, an old one or a new one as the mode allows. -/
def Files.openFile (files : Files) (name mode : CString) : Reply × Files :=
  let refused := ((syserr, []), files)
  if lfNameLen ≤ name.chars.length ∨ files.isOpen name then refused
  else
    match lfgetmode mode, files.freeDevice with
    | some mbits, some device =>
      if name ∈ files.names then
        if mbits.n then refused else (((lfile0 + device : Nat), []), files.opened device name)
      else if mbits.o ∨ lfNumDirEnt ≤ files.names.length then refused
      else (((lfile0 + device : Nat), []), (files.created name).opened device name)
    | _, _ => refused

/-- A call. A transfer of nothing succeeds on every pseudo-device. -/
def Files.call (files : Files) : Call → Reply × Files
  | .open name mode => files.openFile name mode
  | .close device =>
    match files.handles device with
    | none => ((syserr, []), files)
    | some _ => ((ok, []), { files with handles := Function.update files.handles device none })
  | .getc device => files.act device getOutcome
  | .putc device ch => files.act device (putOutcome ch)
  | .seek device offset => files.act device (seekOutcome offset.toNat)
  | .read device count =>
    if count < 0 then ((syserr, []), files)
    else if count = 0 then ((0, []), files)
    else files.act device (readOutcome count.toNat)
  | .write device buff count =>
    if count < 0 then ((syserr, []), files)
    else if count = 0 then ((0, []), files)
    else files.act device (writeOutcome ((List.range count.toNat).map buff))
  | .control device func _ =>
    files.act device (if func = lfCtlTrunc then truncateOutcome else refuseOutcome)

/-- No files at all. -/
def Files.empty : Files := ⟨[], fun _ => [], fun _ => none⟩

/-- The files after some calls. -/
def Files.after (files : Files) (calls : List Call) : Files := calls.foldl (fun files call => (files.call call).2) files

/-- What the calls return, one after another. -/
def Files.replies (files : Files) : List Call → List Reply
  | [] => []
  | call :: calls => (files.call call).1 :: (files.call call).2.replies calls

/-- The blocks that the files need. -/
def Files.indexBlocks (files : Files) : Nat :=
  (files.names.map fun name => ((files.contents name).length + 8191) / 8192).sum

def Files.dataBlocks (files : Files) : Nat :=
  (files.names.map fun name => ((files.contents name).length + 511) / 512).sum

section Sequences

variable {contents : List UInt8} {position : Nat}

/-- Two transfers in a row. -/
theorem overwrite_cons (within : position ≤ contents.length) (ch : UInt8) (rest : List UInt8) :
    overwrite (overwrite contents position [ch]) (position + 1) rest =
      overwrite contents position (ch :: rest) := by
  have front : (contents.take position ++ [ch]).length = position + 1 := by
    rw [List.length_append, List.length_take, Nat.min_eq_left within, List.length_singleton]
  have rear : (contents.take position ++ [ch] ++ contents.drop (position + 1)).drop (position + 1 + rest.length) =
      contents.drop (position + 1 + rest.length) := by
    rw [← front, List.drop_length_add_append, List.drop_drop, front]
  unfold overwrite
  rw [List.length_singleton, List.take_left' front, rear, List.append_assoc (contents.take position),
    List.singleton_append, List.length_cons, Nat.add_right_comm, Nat.add_assoc position]

theorem length_overwrite (within : position ≤ contents.length) (data : List UInt8) :
    (overwrite contents position data).length = max contents.length (position + data.length) := by
  unfold overwrite
  rw [List.length_append, List.length_append, List.length_take, List.length_drop]
  lia

end Sequences

end Xinu.LocalFiles
