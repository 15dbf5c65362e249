import Xinu.FileInvariants

/-!
# The bytes a transfer touches

`fs_read` and `fs_write` pass chunks one after another, so the bytes of the caller's buffer that
they touch are those below the sum of the chunk sizes. On 512-byte blocks the sum is the size of
the first chunk, whole blocks, and the remainder of the range; it is the number of bytes to be
moved only for ranges that begin at a block boundary and are one block or end off a boundary.
-/

namespace Xinu.FileSystem

open CIntegers BlockStore Runs

/-- The sizes that a loop passes, with the turns left and the block index. -/
def chunkSizes (blocksz fileptr newSize start last : Int) : Nat → Int → List Int
  | 0, _ => []
  | turns + 1, i => (chunkOf blocksz fileptr newSize start last i).2 ::
      chunkSizes blocksz fileptr newSize start last turns (i + 1)

/-- The sizes of the transfers that a call adds to the record. -/
def passed (s next : State) : List Int :=
  (next.transfers.drop s.transfers.length).map Transfer.len

/-- A write depends on the bytes that it moves. -/
theorem bwrite_same_bytes (s : State) (block offset : Int) {buf other : Memory} {len : Int}
    (same : ∀ k < len.toNat, other k = buf k) :
    s.bwrite block offset other none len = s.bwrite block offset buf none len := by
  have copied : ∀ bytes at_, copy bytes at_ other len.toNat = copy bytes at_ buf len.toNat := by
    intro bytes at_
    funext address
    unfold copy
    split
    case isTrue inside => exact same _ (by omega)
    case isFalse => rfl
  unfold State.bwrite bsBwrite
  split
  · rfl
  · simp only [copied]

section Loops

variable {inode : Inode} {fileptr newSize start last : Int}

theorem chunkSizes_nonneg {blocksz : Int} (positive : 0 < blocksz) (fromNonneg : 0 ≤ fileptr)
    (endNonneg : 0 ≤ newSize) (turns : Nat) (i : Int) :
    0 ≤ (chunkSizes blocksz fileptr newSize start last turns i).sum := by
  induction turns generalizing i with
  | zero => exact le_rfl
  | succ turns inductionHypothesis =>
    have chunk := (chunkOf_range blocksz fileptr newSize start last i positive fromNonneg
      endNonneg).2.2.1
    rw [chunkSizes, List.sum_cons]
    exact Int.add_nonneg chunk (inductionHypothesis _)

/-- The read loop passes its chunk sizes and stores below their sum. -/
theorem readBlocks_sizes {turns : Nat} {i pos : Int} {buf after : Memory} {s next : State}
    (positive : 0 < s.fsd.blocksz.toInt) (fromNonneg : 0 ≤ fileptr) (endNonneg : 0 ≤ newSize)
    (done : readBlocks inode fileptr newSize start last turns i pos buf s = some (after, next)) :
    ∃ issued, next.transfers = s.transfers ++ issued ∧
      issued.map Transfer.len =
        chunkSizes s.fsd.blocksz.toInt fileptr newSize start last turns i ∧
      ∀ k : Nat,
        pos + (chunkSizes s.fsd.blocksz.toInt fileptr newSize start last turns i).sum ≤ k →
        after k = buf k := by
  induction turns generalizing i pos buf s with
  | zero =>
    simp only [readBlocks, Option.some.injEq, Prod.mk.injEq] at done
    obtain ⟨rfl, rfl⟩ := done
    exact ⟨[], by simp, rfl, fun _ _ => rfl⟩
  | succ turns inductionHypothesis =>
    simp only [readBlocks, Option.bind_eq_bind, Option.bind_eq_some_iff] at done
    obtain ⟨block, _, rest⟩ := done
    split at rest
    case isTrue => cases rest
    case isFalse started =>
      simp only [Option.bind_eq_some_iff] at rest
      obtain ⟨⟨chunk, middle⟩, readDone, tail⟩ := rest
      obtain rfl := bread_frame _ _ _ _ _ _ _ _ readDone
      obtain ⟨issued, recorded, sizes, kept⟩ := inductionHypothesis (by exact positive) tail
      refine ⟨_, by rw [recorded, List.append_assoc], ?_, ?_⟩
      · rw [List.map_append, sizes]
        rfl
      · intro k beyond
        have sizeNonneg := (chunkOf_range s.fsd.blocksz.toInt fileptr newSize start last i
          positive fromNonneg endNonneg).2.2.1
        have restNonneg := @chunkSizes_nonneg fileptr newSize start last _ positive fromNonneg
          endNonneg turns (i + 1)
        rw [chunkSizes, List.sum_cons] at beyond
        rw [kept k (by dsimp only; lia)]
        exact copy_outside _ _ _ _ _ (by lia)

/-- The write loop passes its chunk sizes. -/
theorem writeBlocks_sizes {turns : Nat} {i pos : Int} {buf : Memory} {s next : State}
    (done : writeBlocks inode fileptr newSize start last buf turns i pos s = some next) :
    ∃ issued, next.transfers = s.transfers ++ issued ∧
      issued.map Transfer.len =
        chunkSizes s.fsd.blocksz.toInt fileptr newSize start last turns i := by
  induction turns generalizing i pos s with
  | zero =>
    simp only [writeBlocks, Option.some.injEq] at done
    exact ⟨[], by simp [done], rfl⟩
  | succ turns inductionHypothesis =>
    simp only [writeBlocks, Option.bind_eq_bind, Option.bind_eq_some_iff] at done
    obtain ⟨block, _, rest⟩ := done
    split at rest
    case isTrue => cases rest
    case isFalse =>
      simp only [Option.bind_eq_some_iff] at rest
      obtain ⟨middle, writeDone, tail⟩ := rest
      have frame := bwrite_frame _ _ _ _ _ _ _ writeDone
      have fsd : middle.fsd = s.fsd := by rw [frame]
      have record : middle.transfers = s.transfers ++ [⟨true, block.toInt,
          (chunkOf s.fsd.blocksz.toInt fileptr newSize start last i).1,
          (chunkOf s.fsd.blocksz.toInt fileptr newSize start last i).2⟩] := by rw [frame]
      obtain ⟨issued, recorded, sizes⟩ := inductionHypothesis tail
      refine ⟨_, by rw [recorded, record, List.append_assoc], ?_⟩
      rw [List.map_append, sizes, fsd]
      rfl

/-- The write loop reads the buffer below the sum of its chunk sizes. -/
theorem writeBlocks_same_bytes {turns : Nat} {i pos : Int} {buf other : Memory} (s : State)
    (positive : 0 < s.fsd.blocksz.toInt) (fromNonneg : 0 ≤ fileptr) (endNonneg : 0 ≤ newSize)
    (same : ∀ k : Nat,
      k < pos + (chunkSizes s.fsd.blocksz.toInt fileptr newSize start last turns i).sum →
      other k = buf k) :
    writeBlocks inode fileptr newSize start last other turns i pos s =
      writeBlocks inode fileptr newSize start last buf turns i pos s := by
  induction turns generalizing i pos s with
  | zero => rfl
  | succ turns inductionHypothesis =>
    have sizeNonneg := (chunkOf_range s.fsd.blocksz.toInt fileptr newSize start last i
      positive fromNonneg endNonneg).2.2.1
    have restNonneg := @chunkSizes_nonneg fileptr newSize start last _ positive fromNonneg
      endNonneg turns (i + 1)
    rw [chunkSizes, List.sum_cons] at same
    simp only [writeBlocks]
    congr 1
    funext block
    split
    case isTrue => rfl
    case isFalse started =>
      have moved : ∀ k < (chunkOf s.fsd.blocksz.toInt fileptr newSize start last i).2.toNat,
          shift other pos.toNat k = shift buf pos.toNat k := by
        intro k below
        rw [shift_apply, shift_apply]
        exact same _ (by lia)
      rw [bwrite_same_bytes s _ _ moved]
      refine Option.bind_congr fun middle written => ?_
      have fsd : middle.fsd = s.fsd := by rw [bwrite_frame _ _ _ _ _ _ _ written]
      exact inductionHypothesis middle (by rw [fsd]; exact positive)
        (fun k below => same k (by rw [fsd] at below; lia))

/-- Behind the first chunk come whole blocks and the remainder of the end. -/
theorem chunkSizes_tail {blocksz : Int} (endNonneg : 0 ≤ newSize) (turns : Nat) {i : Int}
    (later : i ≠ start + 1) (beyond : start + 1 ≤ i) (ending : last = i + turns) :
    (chunkSizes blocksz fileptr newSize start last (turns + 1) i).sum =
      turns * blocksz + newSize % blocksz := by
  induction turns generalizing i with
  | zero =>
    have final : i = last := by lia
    simp only [chunkSizes, chunkOf, if_neg later, if_pos final]
    simp [Int.tmod_eq_emod_of_nonneg endNonneg]
  | succ turns inductionHypothesis =>
    have middle : i ≠ last := by omega
    rw [chunkSizes, List.sum_cons, inductionHypothesis (by lia) (by lia) (by lia)]
    simp only [chunkOf, if_neg later, if_neg middle]
    push_cast
    ring

/-- The sum of the sizes of a loop: nothing, the first chunk, or more. -/
def chunkTotal (blocksz fileptr newSize : Int) : Nat → Int
  | 0 => 0
  | 1 => blocksz - fileptr % blocksz
  | more + 2 => blocksz - fileptr % blocksz + (more * blocksz + newSize % blocksz)

theorem chunkSizes_sum {blocksz : Int} (fromNonneg : 0 ≤ fileptr) (endNonneg : 0 ≤ newSize)
    (turns : Nat) (ending : last = start + turns) :
    (chunkSizes blocksz fileptr newSize start last turns (start + 1)).sum =
      chunkTotal blocksz fileptr newSize turns := by
  match turns, ending with
  | 0, _ => rfl
  | 1, _ => simp [chunkSizes, chunkOf, chunkTotal, Int.tmod_eq_emod_of_nonneg fromNonneg]
  | more + 2, ending =>
    rw [chunkSizes, List.sum_cons, chunkSizes_tail endNonneg more (by lia) (by lia)
      (by push_cast at ending; lia)]
    simp [chunkOf, chunkTotal, Int.tmod_eq_emod_of_nonneg fromNonneg]

end Loops

/-- The counts that the chunk sizes add up to: none, one block, or more than a block with an end
off a block boundary, from a position at a block boundary. -/
def AddsUp (fileptr count : Int) : Prop :=
  count = 0 ∨ fileptr % 512 = 0 ∧ (count = 512 ∨ 512 < count ∧ count % 512 ≠ 0)

/-- The chunk sizes of a range add up to its length exactly for those counts. -/
theorem range_adds_up {low high : Int} (nonneg : 0 ≤ low) (order : low ≤ high)
    (small : high < 2 ^ 31) :
    (chunkSizes 512 low high (blockBefore low 512) (blockBefore high 512)
        (blockBefore high 512 - blockBefore low 512).toNat (blockBefore low 512 + 1)).sum =
      high - low ↔ AddsUp low (high - low) := by
  have mono := blocksFor_mono low high 512 (by decide) order
  rw [blockBefore_exact low 512 (by decide) nonneg (by omega),
    blockBefore_exact high 512 (by decide) (by omega) small,
    chunkSizes_sum nonneg (by omega) _ (by lia), AddsUp]
  unfold blocksFor at *
  generalize turns : (_ : Int).toNat = count
  match count with
  | 0 =>
    rw [chunkTotal]
    lia
  | 1 =>
    rw [chunkTotal]
    omega
  | more + 2 =>
    rw [chunkTotal]
    lia

/-- A transfer on an open descriptor whose position is inside of its file. -/
structure Transferring (s : State) (fd : Int32) (d : Fin 16) (nbytes : Int32) : Prop where
  blocks : s.fsd.blocksz.toInt = 512
  here : fd.toInt = d.val
  opened : (s.oft d).state = .opened
  low : 0 ≤ (s.oft d).fileptr.toInt
  high : (s.oft d).fileptr.toInt ≤ (s.oft d).inode.size.toInt
  positive : 0 < nbytes.toInt
  exact : (s.oft d).fileptr.toInt + nbytes.toInt < 2 ^ 31

/-- The bytes that are left for a read. -/
def countLeft (entry : FileTable) (nbytes : Int32) : Int :=
  min nbytes.toInt (entry.inode.size.toInt - entry.fileptr.toInt)

/-- A completed read passes sizes that add up to its count and stores below it. -/
def ReadsCount (s next : State) (buf after : Memory) (count : Int) : Prop :=
  (passed s next).sum = count ∧ ∀ k : Nat, count ≤ k → after k = buf k

/-- A completed write passes sizes that add up to its count and reads below it. -/
def WritesCount (s next : State) (answers : Answers) (fd : Int32) (buf : Memory) (nbytes : Int32) :
    Prop :=
  (passed s next).sum = nbytes.toInt ∧
    ∀ other : Memory, (∀ k : Nat, k < nbytes.toInt → other k = buf k) →
      fsWrite s answers fd other nbytes = fsWrite s answers fd buf nbytes

theorem passed_append {s next : State} {issued : List Transfer}
    (recorded : next.transfers = s.transfers ++ issued) :
    passed s next = issued.map Transfer.len := by
  rw [passed, recorded, List.drop_left]

section Calls

variable {s : State} {fd : Int32} {d : Fin 16} {nbytes : Int32}

/-- An accepted descriptor is the one of the table. -/
theorem Transferring.entry (ready : Transferring s fd d nbytes) {other : Fin 16}
    (here : fd.toInt = other.val) : other = d := by
  have same := ready.here
  ext
  lia

/-- The range of a read ends where the count ends. -/
theorem Transferring.readEnd_eq (ready : Transferring s fd d nbytes) :
    readEnd (s.oft d) nbytes.toInt = (s.oft d).fileptr.toInt + countLeft (s.oft d) nbytes ∧
      readCount (s.oft d) nbytes.toInt = countLeft (s.oft d) nbytes ∧
      0 ≤ countLeft (s.oft d) nbytes ∧ countLeft (s.oft d) nbytes ≤ nbytes.toInt := by
  obtain ⟨_, _, _, low, high, positive, exact⟩ := ready
  have range := toInt_range (s.oft d).inode.size
  rw [readEnd, readCount, countLeft, wrap_of_range _ (by lia) exact]
  split
  case isTrue shorter =>
    rw [wrap_of_range _ (by omega) (by omega)]
    omega
  case isFalse => lia

/-- A read on an open descriptor returns the bytes left, and its chunks add up to them exactly for
the counts above. -/
theorem Transferring.read (ready : Transferring s fd d nbytes) {answers : Answers}
    {buf after : Memory} {value : Return} {next : State}
    (done : fsRead s answers fd buf nbytes = some (value, after, next)) :
    value = .ok (countLeft (s.oft d) nbytes) ∧
      (ReadsCount s next buf after (countLeft (s.oft d) nbytes) ↔
        AddsUp (s.oft d).fileptr.toInt (countLeft (s.oft d) nbytes)) := by
  obtain ⟨ending, returned, nonneg, most⟩ := ready.readEnd_eq
  have bounds := ready.exact
  have start := ready.low
  rcases read_cases _ _ _ _ _ _ _ _ done with
    ⟨_, _, refused⟩ | ⟨other, middle, here, _, _, _, rfl, readDone, rfl⟩
  · exfalso
    rcases refused with ⟨_, _, outside | ⟨other, here, shut⟩⟩ | empty
    · have below := d.isLt
      have named := ready.here
      unfold numFd at outside
      lia
    · exact shut (ready.entry here ▸ ready.opened)
    · exact absurd ready.positive (not_lt.mpr empty)
  · obtain rfl := ready.entry here
    rw [ending] at readDone ⊢
    obtain ⟨issued, recorded, sizes, kept⟩ := readBlocks_sizes
      (by rw [ready.blocks]; decide) start (by lia) readDone
    rw [ready.blocks] at sizes kept
    have total := range_adds_up start (show (s.oft other).fileptr.toInt ≤
      (s.oft other).fileptr.toInt + countLeft (s.oft other) nbytes by lia) (by lia)
    rw [add_sub_cancel_left] at total
    refine ⟨by rw [returned], ?_⟩
    rw [ReadsCount, passed_append (show State.transfers (State.setOft middle other _) = _ from
      recorded), sizes, ← total]
    constructor
    · exact And.left
    · intro exact
      refine ⟨exact, fun k beyond => kept k ?_⟩
      rw [exact, zero_add]
      exact beyond

/-- Two buffers that the write loop does not tell apart are written alike. -/
theorem fsWrite_same (answers : Answers) {buf other : Memory}
    (here : oftIndex fd = some d)
    (loop : ∀ inode marked, allocBlocks
        (blockBefore (writeEnd (s.oft d) nbytes.toInt) s.fsd.blocksz.toInt -
          blockBefore (s.oft d).inode.size.toInt s.fsd.blocksz.toInt).toNat
        (blockBefore (s.oft d).inode.size.toInt s.fsd.blocksz.toInt + 1) (s.oft d).inode s.fsd =
          some (some inode, marked) → ∀ start last turns i,
      blockBefore (s.oft d).fileptr.toInt s.fsd.blocksz.toInt = start →
      blockBefore (writeEnd (s.oft d) nbytes.toInt) s.fsd.blocksz.toInt = last →
      (last - start).toNat = turns → start + 1 = i →
      writeBlocks inode (s.oft d).fileptr.toInt (writeEnd (s.oft d) nbytes.toInt) start last other
          turns i 0 { s with fsd := marked } =
        writeBlocks inode (s.oft d).fileptr.toInt (writeEnd (s.oft d) nbytes.toInt) start last buf
          turns i 0 { s with fsd := marked }) :
    fsWrite s answers fd other nbytes = fsWrite s answers fd buf nbytes := by
  unfold fsWrite
  split
  · rfl
  split
  · rfl
  simp only [here, Option.bind_eq_bind, Option.bind_some]
  split
  · rfl
  refine Option.bind_congr fun _ _ => ?_
  split
  · rfl
  split
  · rfl
  refine Option.bind_congr fun allocated marked => ?_
  obtain ⟨found, fsd⟩ := allocated
  cases found with
  | none => rfl
  | some inode =>
    dsimp only
    rw [show wrap ((s.oft d).fileptr.toInt + nbytes.toInt) = writeEnd (s.oft d) nbytes.toInt
      from rfl] at marked ⊢
    rw [loop inode fsd marked _ _ _ _ rfl rfl rfl rfl]

/-- A write on an open descriptor is refused without a transfer, or returns its count, and its
chunks add up to it exactly for the counts above. -/
theorem Transferring.write (ready : Transferring s fd d nbytes) {answers : Answers}
    {buf : Memory} {value : Return} {next : State}
    (done : fsWrite s answers fd buf nbytes = some (value, next)) :
    (∃ failure, value = .error failure ∧ passed s next = []) ∨
      value = .ok nbytes.toInt ∧
        (WritesCount s next answers fd buf nbytes ↔
          AddsUp (s.oft d).fileptr.toInt nbytes.toInt) := by
  have positive := ready.positive
  have exact := ready.exact
  have start := ready.low
  have ending : writeEnd (s.oft d) nbytes.toInt = (s.oft d).fileptr.toInt + nbytes.toInt :=
    wrap_of_range _ (by omega) exact
  rcases write_cases _ _ _ _ _ _ _ done with
    ⟨rfl, refused⟩ | ⟨other, found, marked, here, _, _, _, _, allocDone, outcome⟩
  · left
    rcases refused with ⟨failure, rfl, _⟩ | ⟨_, empty⟩
    · exact ⟨failure, rfl, by simp [passed]⟩
    · lia
  · obtain rfl := ready.entry here
    have frame := allocBlocks_frame _ _ _ _ _ _ allocDone
    rcases outcome with ⟨_, rfl, rfl⟩ | ⟨inode, middle, rfl, rfl, writeDone, rfl⟩
    · exact Or.inl ⟨_, rfl, by simp [passed]⟩
    · refine Or.inr ⟨rfl, ?_⟩
      obtain ⟨issued, recorded, sizes⟩ := writeBlocks_sizes writeDone
      have blocks : marked.blocksz.toInt = 512 := by
        rw [frame]
        exact ready.blocks
      have total := range_adds_up start (show (s.oft other).fileptr.toInt ≤
        (s.oft other).fileptr.toInt + nbytes.toInt by lia) exact
      dsimp only at sizes
      rw [ready.blocks, ending, blocks] at sizes
      rw [add_sub_cancel_left] at total
      have lengths : passed s (middle.setOft other (writtenEntry (middle.oft other) inode
          (writeEnd (s.oft other) nbytes.toInt))) = issued.map Transfer.len :=
        passed_append recorded
      rw [WritesCount, lengths, sizes, ← total]
      constructor
      · exact And.left
      · intro sum
        refine ⟨sum, fun second same => ?_⟩
        refine fsWrite_same answers ((oftIndex_iff fd other).mpr here) ?_
        rintro copied again allocAgain _ _ _ _ rfl rfl rfl rfl
        have size : again.blocksz.toInt = 512 := by
          rw [allocBlocks_frame _ _ _ _ _ _ allocAgain]
          exact ready.blocks
        refine writeBlocks_same_bytes _ (by rw [size]; decide) start (by lia) ?_
        intro k below
        dsimp only at below
        rw [size, ready.blocks, ending, sum, zero_add] at below
        exact same k below

/-- On 512-byte blocks, the chunks of every read and every write on an open descriptor add up to
the count, and stay below it in the caller's buffer, exactly for a count of zero, of one block, or
of more than a block with an end off a block boundary, from a position at a block boundary. -/
theorem transfers_stay_inside (ready : Transferring s fd d nbytes) (answers : Answers)
    (buf : Memory) :
    (∀ value after next, fsRead s answers fd buf nbytes = some (value, after, next) →
      value = .ok (countLeft (s.oft d) nbytes) ∧
        (ReadsCount s next buf after (countLeft (s.oft d) nbytes) ↔
          AddsUp (s.oft d).fileptr.toInt (countLeft (s.oft d) nbytes))) ∧
    ∀ value next, fsWrite s answers fd buf nbytes = some (value, next) →
      (∃ failure, value = .error failure ∧ passed s next = []) ∨
        value = .ok nbytes.toInt ∧
          (WritesCount s next answers fd buf nbytes ↔
            AddsUp (s.oft d).fileptr.toInt nbytes.toInt) :=
  ⟨fun _ _ _ done => ready.read done, fun _ _ done => ready.write done⟩

end Calls

/-- A descriptor of 512-byte blocks is open on an empty file. -/
def openOnEmpty (s : State) (d : Fin 16) : Bool :=
  s.fsd.blocksz.toInt == 512 && decide ((s.oft d).state = .opened) &&
    (s.oft d).fileptr.toInt == 0 && (s.oft d).inode.size.toInt == 0

/-- After a file was created, a few bytes can be moved. -/
theorem created_transferring {s : State} (empty : openOnEmpty s 0 = true) {nbytes : Int32}
    (positive : 0 < nbytes.toInt) : Transferring s 0 0 nbytes := by
  simp only [openOnEmpty, Bool.and_eq_true, beq_iff_eq, decide_eq_true_eq] at empty
  obtain ⟨⟨⟨blocks, opened⟩, pointer⟩, size⟩ := empty
  have bound := toInt_range nbytes
  exact ⟨blocks, by decide, opened, by lia, by omega, positive, by omega⟩

/-- Six hundred bytes are written at the beginning of a file just created. -/
theorem six_hundred_stay_inside : ∃ events last, Run exec boot events last ∧
    0 < (600 : Int32).toInt ∧ Transferring last 0 0 600 ∧
    ∀ value next, fsWrite last granting 0 (fun _ => 7) 600 = some (value, next) →
      (∃ failure, value = .error failure ∧ passed last next = []) ∨
        value = .ok (600 : Int32).toInt ∧
          (WritesCount last next granting 0 (fun _ => 7) 600 ↔
            AddsUp (last.oft 0).fileptr.toInt (600 : Int32).toInt) := by
  obtain ⟨events, last, run, checked⟩ := trace_exists exec boot
    (device16 16 ++ [.create granting fileA oCreat]) (fun _ last => openOnEmpty last 0)
    (by decide +kernel)
  have ready : Transferring last 0 0 600 := created_transferring checked (by decide)
  exact ⟨events, last, run, by decide, ready,
    (transfers_stay_inside ready granting fun _ => 7).2⟩

/-- A write of ten bytes at the beginning of a file reads a whole block of the caller's buffer. -/
theorem ten_bytes_read_a_block :
    ¬ ∀ events last, Run exec boot events last → ∀ fd d nbytes, Transferring last fd d nbytes →
      ∀ answers buf value next, fsWrite last answers fd buf nbytes = some (.ok value, next) →
        (passed last next).sum = nbytes.toInt := by
  intro exact
  obtain ⟨events, last, run, checked⟩ := trace_exists exec boot
    (device16 16 ++ [.create granting fileA oCreat])
    (fun _ last => openOnEmpty last 0 &&
      (fsWrite last granting 0 (fun _ => 7) 10).any fun written =>
        written.1.isOk && decide ((passed last written.2).sum = 512))
    (by decide +kernel)
  rw [Bool.and_eq_true, Option.any_eq_true] at checked
  obtain ⟨empty, ⟨value, next⟩, done, whole⟩ := checked
  rw [Bool.and_eq_true, decide_eq_true_eq] at whole
  cases value with
  | error => cases whole.1
  | ok value =>
    have sum := exact events last run 0 0 10 (created_transferring empty (by decide)) granting _ _
      _ done
    rw [whole.2] at sum
    exact absurd sum (by decide)

end Xinu.FileSystem
