import Xinu.FileInvariants

/-!
# Written data and later opens

An inode lives in its block on the device and, for every descriptor, in a copy in
the open-file table. `fs_write` updates the copy of its own descriptor and does
not store it, although `fs_put_inode_by_num` exists for that. Whatever has been
written, the stored inode keeps size zero, and a later `fs_open` of the file
either refuses it as empty or hands out an empty copy.

Durability is stated for whole runs with any number of descriptors: after a
completed write, an `fs_open` of the same file that passes its checks yields a
descriptor through which the written range shows the bytes last written. A run has
this property exactly when it contains no such `fs_open`.
-/

namespace Xinu.FileSystem

open CIntegers BlockStore Runs

/-- A completed write of some bytes at a position of a file, which is named by the
index of its directory entry. -/
def WritesFile (event : Event State Call Reply) (file : Nat) (position count : Int) : Prop :=
  ∃ answers fd buf nbytes, ∃ d : Fin 16, event.call = .write answers fd buf nbytes ∧
    event.reply.value = .ok count ∧ 0 < count ∧ fd.toInt = d.val ∧
    (event.before.oft d).de = some file ∧ position = (event.before.oft d).fileptr.toInt

/-- An `fs_open` of a file that passes the checks on its arguments, its name and
the number of descriptors. -/
def OpensFile (event : Event State Call Reply) (file : Nat) : Prop :=
  ∃ answers filename flags entry, event.call = .open answers filename flags ∧
    lookup filename 0 event.before.fsd.rootDir = some (file, entry) ∧
    ¬ OpenRefused event.before filename flags

/-- The byte an event writes at a position of a file. -/
def writtenByte (file : Nat) (k : Int) (event : Event State Call Reply) : Option UInt8 :=
  match event.call, event.reply.value with
  | .write _ fd buf _, .ok count =>
    (oftIndex fd).bind fun d =>
      if (event.before.oft d).de = some file ∧ (event.before.oft d).fileptr.toInt ≤ k ∧
          k < (event.before.oft d).fileptr.toInt + count then
        some (buf (k - (event.before.oft d).fileptr.toInt).toNat)
      else none
  | _, _ => none

/-- The byte last written at a position of a file, through any descriptor. -/
def lastWritten (file : Nat) (k : Int) (events : List (Event State Call Reply)) : Option UInt8 :=
  events.foldl (fun byte event => (writtenByte file k event).or byte) none

/-- The byte an inode's block list shows at a position. -/
def shownByte (s : State) (inode : Inode) (k : Int) : Option UInt8 :=
  (inode.block (k / s.fsd.blocksz.toInt)).map fun block =>
    s.device.blocks.bytes (block.toInt * s.fsd.blocksz.toInt + k % s.fsd.blocksz.toInt).toNat

/-- After a completed write, a later open of the file yields a descriptor that
covers the written range and shows the bytes last written there. -/
def Durable (events : List (Event State Call Reply)) : Prop :=
  ∀ front write middle later back, events = front ++ write :: middle ++ later :: back →
    ∀ file position count, WritesFile write file position count → OpensFile later file →
      ∃ d : Fin 16, later.reply.value = .ok (d.val : Int) ∧
        position + count ≤ (later.after.oft d).inode.size.toInt ∧
        ∀ k, position ≤ k → k < position + count →
          shownByte later.after (later.after.oft d).inode k =
            lastWritten file k (front ++ write :: middle)

/-- A file is opened after a completed write to it. -/
def Reopened (events : List (Event State Call Reply)) : Prop :=
  ∃ front write middle later back file position count,
    events = front ++ write :: middle ++ later :: back ∧
    WritesFile write file position count ∧ OpensFile later file

/-- In a sound state `fs_open` hands out empty inodes only, at position zero. -/
theorem FilesSound.opened_empty {s next : State} (sound : FilesSound s) (answers : Answers)
    (filename : CString) (flags : Int32) (d : Fin 16)
    (done : fsOpen s answers filename flags = some (.ok (d.val : Int), next)) :
    (next.oft d).state = .opened ∧ (next.oft d).fileptr = 0 ∧ (next.oft d).inode.size = 0 := by
  rcases open_cases s next answers filename flags _ done with
    ⟨_, _, _, impossible⟩ | ⟨_, i, entry, found, read, present, taken, getDone, outcome⟩
  · cases impossible
  · have inode := sound.descriptorTaken.inodes entry (lookup_member filename 0 i _ entry present)
    obtain ⟨_, stored, rfl, empty⟩ := sound.descriptorTaken.inode_read entry.inodeNum inode
      found getDone
    rcases outcome with ⟨⟨_, impossible⟩, _⟩ | ⟨opened, same, _, number, rfl⟩
    · cases impossible
    · cases same
      have here : d = ⟨s.nextOpenFd, taken⟩ := by
        apply Fin.ext
        simpa using number
      rw [here, State.setOft]
      simp [openPosition, empty]

/-- In every run on a sound geometry whose calls fit, data is durable exactly when
no file is opened after a write to it.

A pair of a write and a later open refutes durability: the write ends above zero
and the descriptor handed out has size zero. -/
theorem durable_iff_not_reopened (size count inodes : Int32) (first last : State)
    (events : List (Event State Call Reply)) (formatted : FormattedBy size count inodes first)
    (positive : 0 < first.fsd.blocksz.toInt)
    (region : 2 + (first.fsd.numInodeBlocks : Int) ≤ first.fsd.nblocks.toInt)
    (product : first.fsd.nblocks.toInt * first.fsd.blocksz.toInt < 2 ^ 31)
    (run : Run exec first events last) (fits : Meets StepFits events) :
    Durable events ↔ ¬ Reopened events := by
  have geometry := formatted_geometry size count inodes first formatted positive region product
  have steps := invariant_events FilesSound StepFits
    (fun _ _ _ _ sound fits completed => sound.step fits completed) first last events run
    (formatted_filesSound size count inodes first formatted geometry) fits
  constructor
  · rintro durable ⟨front, write, middle, later, back, file, position, count, split, writes, opens⟩
    obtain ⟨d, success, covered, _⟩ := durable front write middle later back split file position
      count writes opens
    obtain ⟨laterSound, _, laterDone⟩ := steps later (by rw [split]; simp)
    obtain ⟨writeSound, _, _⟩ := steps write (by rw [split]; simp)
    obtain ⟨answers, filename, flags, _, isOpen, _, _⟩ := opens
    obtain ⟨_, _, _, _, e, _, _, nonempty, _, _, rfl⟩ := writes
    rw [isOpen] at laterDone
    have opened := exec_open laterDone
    rw [success] at opened
    obtain ⟨_, _, empty⟩ := laterSound.opened_empty answers filename flags d opened
    have low := (writeSound.entries e).pointerLow
    have zero : (0 : Int32).toInt = 0 := by decide
    rw [empty, zero] at covered
    lia
  · intro never front write middle later back split file position count writes opens
    exact absurd ⟨front, write, middle, later, back, file, position, count, split, writes, opens⟩
      never

/-- Create the file `a`, write 1200 bytes to it, close it and open it again. -/
def writtenAndReopened : List Call :=
  [.create granting fileA oCreat, .write granting 0 (fun _ => 7) 1200, .close 0,
    .open granting fileA oRdwr]

/-- The law applies to that run. -/
theorem durable_iff_sample : ∃ first events last, FormattedBy 512 16 16 first ∧
    Run exec first events last ∧ Meets StepFits events ∧ events.length = 4 ∧
    (Durable events ↔ ¬ Reopened events) := by
  obtain ⟨first, events, last, formatted, run, checked⟩ := formatted_trace_exists 512 16 16
    writtenAndReopened (fun events _ => events.length == 4 && events.all fun event =>
      decide (StepFits event.before event.call)) (by decide +kernel)
  rw [Bool.and_eq_true] at checked
  have fits : Meets StepFits events := fun event member =>
    of_decide_eq_true (List.all_eq_true.mp checked.2 event member)
  obtain ⟨size, _, region, product⟩ := formatted16_sizes first formatted
  exact ⟨first, events, last, formatted, run, fits, by simpa using checked.1,
    durable_iff_not_reopened 512 16 16 first last events formatted (by rw [size]; decide) region
      product run fits⟩

instance (s : State) (filename : CString) (flags : Int32) :
    Decidable (OpenRefused s filename flags) :=
  inferInstanceAs (Decidable (_ ∨ _ ∨ _ ∨ _))

/-- The descriptor that the first `fs_create` or `fs_open` returns. -/
def firstDescriptor : Fin 16 := 0

/-- A write to the first descriptor puts bytes into the file with the first number. -/
def writesToFirst (write : Event State Call Reply) : Bool :=
  match write.call, write.reply.value with
  | .write _ fd _ _, .ok count => decide (fd.toInt = 0) && decide (0 < count) &&
    decide ((write.before.oft firstDescriptor).de = some 0) &&
    decide (0 ≤ (write.before.oft firstDescriptor).fileptr.toInt)
  | _, _ => false

/-- The second descriptor is opened on that file and is empty. -/
def opensEmpty (later : Event State Call Reply) : Bool :=
  match later.call, later.reply.value with
  | .open _ filename flags, .ok value => decide (value = 1) &&
    decide ((lookup filename 0 later.before.fsd.rootDir).map Prod.fst = some 0) &&
    decide (¬ OpenRefused later.before filename flags) &&
    decide ((later.after.oft 1).inode.size.toInt = 0)
  | _, _ => false

/-- The four calls are recorded in this way. -/
def losesContents : List (Event State Call Reply) → Bool
  | [created, write, closed, later] =>
    decide created.call.OnFiles && decide closed.call.OnFiles && writesToFirst write &&
      opensEmpty later
  | _ => false

/-- The second descriptor of that run is empty although 1200 bytes were written to
its file. -/
theorem reopened_file_is_empty :
    ¬ ∀ (size count inodes : Int32) (first last : State) (events : List (Event State Call Reply)),
      FormattedBy size count inodes first → Run exec first events last →
      (∀ event ∈ events, event.call.OnFiles) → Durable events := by
  intro durable
  obtain ⟨first, events, last, formatted, run, checked⟩ := formatted_trace_exists 512 16 16
    writtenAndReopened (fun events _ => losesContents events) (by decide +kernel)
  unfold losesContents at checked
  split at checked
  case h_2 => cases checked
  case h_1 created write closed later =>
    simp only [Bool.and_eq_true, decide_eq_true_eq] at checked
    obtain ⟨⟨⟨createdCall, closedCall⟩, writes⟩, opens⟩ := checked
    unfold writesToFirst at writes
    split at writes
    case h_2 => cases writes
    case h_1 answers fd buf nbytes count isWrite written =>
      unfold opensEmpty at opens
      split at opens
      case h_2 => cases opens
      case h_1 openAnswers filename flags value isOpen opened =>
        simp only [Bool.and_eq_true, decide_eq_true_eq] at writes opens
        obtain ⟨⟨⟨isZero, nonempty⟩, file⟩, nonneg⟩ := writes
        change 0 ≤ (write.before.oft 0).fileptr.toInt at nonneg
        obtain ⟨⟨⟨isOne, found⟩, accepted⟩, empty⟩ := opens
        obtain ⟨⟨index, entry⟩, present, rfl⟩ := Option.map_eq_some_iff.mp found
        have onFiles : ∀ event ∈ [created, write, closed, later], event.call.OnFiles := by
          intro event member
          simp only [List.mem_cons, List.not_mem_nil, or_false] at member
          rcases member with rfl | rfl | rfl | rfl
          · exact createdCall
          · rw [isWrite]
            trivial
          · exact closedCall
          · rw [isOpen]
            trivial
        obtain ⟨d, success, covered, _⟩ := durable 512 16 16 first last _ formatted run onFiles
          [created] write [closed] later [] rfl 0 _ count
          ⟨answers, fd, buf, nbytes, 0, isWrite, written, nonempty, by rw [isZero]; rfl, file, rfl⟩
          ⟨openAnswers, filename, flags, entry, isOpen, present, accepted⟩
        rw [opened, isOne] at success
        have here : d = 1 := by
          have number : (1 : Int) = d.val := by simpa using success
          exact Fin.ext (by simpa using number.symm)
        rw [here, empty] at covered
        omega

end Xinu.FileSystem
