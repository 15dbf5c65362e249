import Xinu.LocalTruncate
import Xinu.LocalNames

/-!
# Local files refine byte sequences

The directory, the blocks and the control blocks mean files: the names of the entries, the bytes of their
data blocks, and the positions of the open files. Each call returns what it returns on these files and
leaves what it leaves there. A call that stops because no block is free would have left more files than fit
on the disk.
-/

namespace Xinu.LocalFiles

open CIntegers WordMemory

/-- A control block is free, or it is that of an open file. -/
def Opened (names : List CString) (file : Lflcblk) : Option Handle → Prop
  | none => file.lfused = false
  | some handle => file.lfused = true ∧ file.lfpos.toNat = handle.position ∧
    names[file.lfdirptr]? = some handle.name ∧ sameName handle.name.chars file.lfname 0 = true

/-- A system whose directory is in memory means files. -/
structure Means (g : Geometry) (s : System) (ib : UInt32 → Lfiblk) (db : UInt32 → Memory) (l : Layout)
    (files : Files) : Prop where
  rests : Rests g s ib db l
  named : Named s.lfDir files.names
  contents : ∀ e name, files.names[e]? = some name → files.contents name = fileBytes db s.lfDir l e
  handles : ∀ m, Opened files.names (s.lfltab m) (files.handles m)

/-- The files fit on the disk. -/
def Files.Fits (files : Files) (g : Geometry) : Prop :=
  files.indexBlocks ≤ 7 * g.index ∧ files.dataBlocks ≤ g.sectors - g.index - 1

/-- A call does what it does on files, unless they would not fit. -/
def Simulates (g : Geometry) (s : System) (result : Except Failure (Reply × System)) (expected : Reply × Files) :
    Prop :=
  (result = .error .panic ∧ ¬ expected.2.Fits g) ∨
  ∃ after ib db l, result = .ok (expected.1, after) ∧ Means g after ib db l expected.2 ∧
    (DirSafe s → DirSafe after)

section Handles

variable {g : Geometry} {s after : System} {ib index : UInt32 → Lfiblk} {db data : UInt32 → Memory}
  {l later : Layout} {files : Files} {minor : Nat} {handle : Handle}

theorem Means.opened (means : Means g s ib db l files) (isOpen : files.handles minor = some handle) :
    (s.lfltab minor).lfused = true ∧ (s.lfltab minor).lfpos.toNat = handle.position ∧
      files.names[(s.lfltab minor).lfdirptr]? = some handle.name ∧
      sameName handle.name.chars (s.lfltab minor).lfname 0 = true := by
  have opened := means.handles minor
  rw [isOpen] at opened
  exact opened

theorem Means.closed (means : Means g s ib db l files) (isClosed : files.handles minor = none) :
    (s.lfltab minor).lfused = false := by
  have opened := means.handles minor
  rw [isClosed] at opened
  exact opened

/-- The bytes of an open file, and its position inside of them. -/
theorem Means.bytes (means : Means g s ib db l files) (isOpen : files.handles minor = some handle) :
    files.contents handle.name = fileBytes db s.lfDir l (s.lfltab minor).lfdirptr ∧
      (files.contents handle.name).length = extent s.lfDir (s.lfltab minor).lfdirptr ∧
      handle.position ≤ (files.contents handle.name).length := by
  obtain ⟨used, position, here, _⟩ := means.opened isOpen
  have fileOk := (means.rests.file minor used).2
  have contents := means.contents _ _ here
  have length : (files.contents handle.name).length = extent s.lfDir (s.lfltab minor).lfdirptr := by
    rw [contents, length_fileBytes]
  refine ⟨contents, length, ?_⟩
  rw [length, extent_of_lt fileOk.entry, ← position]
  exact fileOk.position

/-- Two entries have different names. -/
theorem Means.name_inj (means : Means g s ib db l files) {e f : Nat} {name : CString}
    (first : files.names[e]? = some name) (second : files.names[f]? = some name) : e = f :=
  (List.getElem?_inj (List.getElem?_eq_some_iff.mp first).1 means.named.distinct).mp (first.trans second.symm)

/-- A call on an open file leaves new bytes and a new position. -/
theorem Means.moved (means : Means g s ib db l files) (isOpen : files.handles minor = some handle)
    {position : Nat} {bytes : List UInt8} (rests : Rests g after index data later)
    (changed : fileBytes data after.lfDir later (s.lfltab minor).lfdirptr = bytes)
    (others : ∀ f, f ≠ (s.lfltab minor).lfdirptr →
      fileBytes data after.lfDir later f = fileBytes db s.lfDir l f)
    (moved : Moved s after minor position) :
    Means g after index data later (files.put minor handle.name position bytes) := by
  obtain ⟨used, _, here, named⟩ := means.opened isOpen
  refine ⟨rests, means.named.congr moved.nfiles moved.name, fun e name isName => ?_, fun m => ?_⟩
  · show Function.update files.contents handle.name bytes name = _
    rcases eq_or_ne e (s.lfltab minor).lfdirptr with rfl | apart
    · obtain rfl : name = handle.name := Option.some.inj (isName.symm.trans here)
      rw [Function.update_self, changed]
    · have notSame : name ≠ handle.name := by
        rintro rfl
        exact apart (means.name_inj isName here)
      rw [Function.update_of_ne notSame, others e apart]
      exact means.contents e name isName
  · show Opened files.names (after.lfltab m) (Function.update files.handles minor _ m)
    rcases eq_or_ne m minor with rfl | away
    · rw [Function.update_self]
      refine ⟨moved.used.trans used, moved.position, ?_, ?_⟩
      · rw [moved.entry]
        exact here
      · rw [moved.lfname]
        exact named
    · rw [Function.update_of_ne away, moved.others m away]
      exact means.handles m

/-- A call on an open file may leave everything as it is. -/
theorem Files.put_self (isOpen : files.handles minor = some handle) :
    files.put minor handle.name handle.position (files.contents handle.name) = files := by
  unfold Files.put
  rw [Function.update_eq_self, ← isOpen, Function.update_eq_self]

theorem Files.put_put (position last : Nat) (bytes more : List UInt8) (name : CString) :
    (files.put minor name position bytes).put minor name last more = files.put minor name last more := by
  unfold Files.put
  dsimp only
  rw [Function.update_idem, Function.update_idem]

theorem Files.act_some (isOpen : files.handles minor = some handle) (act : Nat → List UInt8 → Outcome) :
    files.act minor act = ((act handle.position (files.contents handle.name)).reply,
      files.put minor handle.name (act handle.position (files.contents handle.name)).position
        (act handle.position (files.contents handle.name)).bytes) := by
  unfold Files.act
  rw [isOpen]

theorem Files.act_none (isClosed : files.handles minor = none) (act : Nat → List UInt8 → Outcome) :
    files.act minor act = ((syserr, []), files) := by
  unfold Files.act
  rw [isClosed]

theorem Files.put_handles (position : Nat) (bytes : List UInt8) (name : CString) :
    (files.put minor name position bytes).handles minor = some ⟨name, position⟩ := Function.update_self _ _ _

theorem Files.put_contents (position : Nat) (bytes : List UInt8) (name : CString) :
    (files.put minor name position bytes).contents name = bytes := Function.update_self _ _ _

end Handles

section Capacity

variable {g : Geometry} {s : System} {ib : UInt32 → Lfiblk} {db : UInt32 → Memory} {l : Layout} {files : Files}
  {minor : Nat} {handle : Handle}

/-- All numbers of a range stand in the lists of some entries. -/
theorem length_le_sum {family : Nat → List UInt32} (first count entries : Nat) (small : first + count ≤ 2 ^ 32)
    (covered : ∀ n : UInt32, first ≤ n.toNat → n.toNat < first + count → ∃ e < entries, n ∈ family e) :
    count ≤ ((List.range entries).map fun e => (family e).length).sum := by
  have distinct : ((List.range' first count).map UInt32.ofNat).Nodup := by
    refine List.Nodup.map_on (fun a inFirst b inSecond same => ?_) List.nodup_range'
    rw [List.mem_range'_1] at inFirst inSecond
    have values := congrArg UInt32.toNat same
    rw [UInt32.toNat_ofNat_of_lt' (by show a < 2 ^ 32; lia),
      UInt32.toNat_ofNat_of_lt' (by show b < 2 ^ 32; lia)] at values
    exact values
  have subset : (List.range' first count).map UInt32.ofNat ⊆ (List.range entries).flatMap family := by
    intro n member
    obtain ⟨value, inRange, rfl⟩ := List.mem_map.mp member
    rw [List.mem_range'_1] at inRange
    have isValue : (UInt32.ofNat value).toNat = value := UInt32.toNat_ofNat_of_lt' (by show value < 2 ^ 32; omega)
    obtain ⟨e, below, inside⟩ := covered (UInt32.ofNat value) (by lia) (by lia)
    exact List.mem_flatMap.mpr ⟨e, List.mem_range.mpr below, inside⟩
  have bound := (List.Nodup.subperm distinct subset).length_le
  rwa [List.length_map, List.length_range', List.length_flatMap] at bound

/-- The blocks of the files are those of their entries. -/
theorem Means.sum_eq (means : Means g s ib db l files) (family : Nat → List UInt32) (size : Nat → Nat)
    (lengths : ∀ e, (family e).length = size (extent s.lfDir e)) :
    (files.names.map fun name => size (files.contents name).length).sum =
      ((List.range (lfdNfiles s.lfDir)).map fun e => (family e).length).sum := by
  refine congrArg List.sum (List.ext_getElem? fun e => ?_)
  rw [List.getElem?_map, List.getElem?_map]
  cases here : files.names[e]? with
  | none =>
    have outside := List.getElem?_eq_none_iff.mp here
    rw [means.named.length] at outside
    rw [List.getElem?_eq_none (by rw [List.length_range]; exact outside)]
    rfl
  | some name =>
    have inside := (List.getElem?_eq_some_iff.mp here).1
    rw [means.named.length] at inside
    rw [List.getElem?_range inside, Option.map_some, Option.map_some, lengths,
      means.contents e name here, length_fileBytes]

/-- If the free index blocks are used up, the files need all index blocks. -/
theorem Means.index_full (means : Means g s ib db l files) (empty : l.ifree = []) :
    7 * g.index ≤ files.indexBlocks := by
  have small := g.small
  have room := g.room
  have sound := means.rests.sound
  unfold Files.indexBlocks
  rw [means.sum_eq l.chain (fun n => (n + 8191) / 8192) sound.long]
  refine length_le_sum 0 _ _ (by lia) fun n _ below => ?_
  have isIndex : g.IsIndex n := by
    unfold Geometry.IsIndex
    omega
  obtain ⟨place, member⟩ := (sound.iparts.covers n).mp isIndex
  cases place with
  | none =>
    rw [show l.iplaces none = [] from empty] at member
    cases member
  | some e =>
    refine ⟨e, Nat.lt_of_not_le fun outside => ?_, member⟩
    have long := sound.long e
    rw [sound.beyond e outside] at long
    have noChain : l.chain e = [] := List.length_eq_zero_iff.mp long
    rw [show l.iplaces (some e) = [] from noChain] at member
    cases member

theorem Means.data_full (means : Means g s ib db l files) (empty : l.dfree = []) :
    g.sectors - g.index - 1 ≤ files.dataBlocks := by
  have small := g.small
  have room := g.room
  have sound := means.rests.sound
  unfold Files.dataBlocks
  rw [means.sum_eq l.blocks (fun n => (n + 511) / 512) sound.wide]
  refine length_le_sum (g.index + 1) _ _ (by omega) fun n above below => ?_
  have isData : g.IsData n := by
    unfold Geometry.IsData
    omega
  obtain ⟨place, member⟩ := (sound.dparts.covers n).mp isData
  cases place with
  | none =>
    rw [show l.dplaces none = [] from empty] at member
    cases member
  | some e =>
    refine ⟨e, Nat.lt_of_not_le fun outside => ?_, member⟩
    have wide := sound.wide e
    have inside := sound.inside e
    rw [sound.beyond e outside] at wide
    have noBlocks : l.blocks e = [] := List.length_eq_zero_iff.mp wide
    rw [show l.dplaces (some e) = [] from noBlocks] at member
    cases member

/-- More bytes in one file need more blocks. -/
theorem Files.sum_grows (size : Nat → Nat) {name : CString} {longer : List UInt8}
    (member : name ∈ files.names) (grows : size (files.contents name).length < size longer.length) :
    (files.names.map fun other => size (files.contents other).length).sum <
      (files.names.map fun other => size (Function.update files.contents name longer other).length).sum := by
  refine List.sum_lt_sum _ _ (fun other _ => ?_) ⟨name, member, ?_⟩
  · rcases eq_or_ne other name with rfl | apart
    · rw [Function.update_self]
      exact grows.le
    · rw [Function.update_of_ne apart]
  · rw [Function.update_self]
    exact grows

/-- Where a block is needed and none is free, the longer file does not fit. -/
theorem Means.unfit (means : Means g s ib db l files) (isOpen : files.handles minor = some handle)
    {position : Nat} {longer : List UInt8} (grows : (files.contents handle.name).length < longer.length)
    (needs : l.ifree = [] ∧ (files.contents handle.name).length % 8192 = 0 ∨
      l.dfree = [] ∧ (files.contents handle.name).length % 512 = 0) :
    ¬ (files.put minor handle.name position longer).Fits g := by
  have member : handle.name ∈ files.names := List.mem_of_getElem? (means.opened isOpen).2.2.1
  rintro ⟨indexFits, dataFits⟩
  rcases needs with ⟨empty, isFull⟩ | ⟨empty, isFull⟩
  · have full := means.index_full empty
    have more : files.indexBlocks < (files.put minor handle.name position longer).indexBlocks :=
      Files.sum_grows (fun n => (n + 8191) / 8192) member (by lia)
    lia
  · have full := means.data_full empty
    have more : files.dataBlocks < (files.put minor handle.name position longer).dataBlocks :=
      Files.sum_grows (fun n => (n + 511) / 512) member (by lia)
    lia

end Capacity

section Calls

variable {g : Geometry} {s : System} {ib : UInt32 → Lfiblk} {db : UInt32 → Memory} {l : Layout} {files : Files}
  {minor : Nat} {handle : Handle}

/-- `lflgetc` of an open file. -/
theorem Means.lflgetc (means : Means g s ib db l files) (isOpen : files.handles minor = some handle) :
    ∃ after index data later, lflgetc s minor =
        .ok ((getOutcome handle.position (files.contents handle.name)).reply.1, after) ∧
      Means g after index data later (files.put minor handle.name
        (getOutcome handle.position (files.contents handle.name)).position (files.contents handle.name)) ∧
      (DirSafe s → DirSafe after) := by
  obtain ⟨used, position, here, _⟩ := means.opened isOpen
  obtain ⟨bytes, length, within⟩ := means.bytes isOpen
  have size := extent_of_lt (means.rests.file minor used).2.entry
  rcases Nat.lt_or_ge handle.position (files.contents handle.name).length with inside | atEnd
  · have byte : (files.contents handle.name)[handle.position]? =
        some (byteAt db l (s.lfltab minor).lfdirptr (s.lfltab minor).lfpos.toNat) := by
      rw [bytes, getElem?_fileBytes, if_pos (by lia), position]
    obtain ⟨after, index, data, later, got, rests, same, moved, safe⟩ :=
      Rests.lflgetc means.rests used (by rw [position, ← length]; exact inside)
    rw [position] at moved
    refine ⟨after, index, data, later, ?_, ?_, safe⟩
    · rw [got]
      unfold getOutcome
      rw [byte]
    · unfold getOutcome
      rw [byte]
      exact means.moved isOpen rests (by rw [same, bytes]) (fun f _ => same f) moved
  · have byte : (files.contents handle.name)[handle.position]? = none := List.getElem?_eq_none atEnd
    refine ⟨s, ib, db, l, ?_, ?_, id⟩
    · have isEnd : (s.lfltab minor).lfpos ≥ ldSize s.lfDir (s.lfltab minor).lfdirptr := by
        rw [ge_iff_le, UInt32.le_iff_toNat_le, position, ← size, ← length]
        exact atEnd
      unfold LocalFiles.lflgetc getOutcome
      rw [if_neg (by rw [used]; decide), if_pos isEnd, byte]
    · unfold getOutcome
      rw [byte]
      dsimp only
      rw [Files.put_self isOpen]
      exact means

/-- `lflputc` of an open file. -/
theorem Means.lflputc (means : Means g s ib db l files) (isOpen : files.handles minor = some handle) (ch : UInt8) :
    (LocalFiles.lflputc s minor ch = .error .panic ∧ ∀ position longer,
      (overwrite (files.contents handle.name) handle.position [ch]).length ≤ longer.length →
      ¬ (files.put minor handle.name position longer).Fits g) ∨
    ∃ after index data later, lflputc s minor ch = .ok (ok, after) ∧
      Means g after index data later (files.put minor handle.name (handle.position + 1)
        (overwrite (files.contents handle.name) handle.position [ch])) ∧
      (DirSafe s → DirSafe after) := by
  obtain ⟨used, position, here, _⟩ := means.opened isOpen
  obtain ⟨bytes, length, within⟩ := means.bytes isOpen
  rcases Rests.lflputc means.rests used ch rfl with
    ⟨needs, atEnd, fails⟩ | ⟨after, index, data, later, put, rests, changed, others, moved, safe⟩
  · refine Or.inl ⟨fails, fun last longer above => means.unfit isOpen ?_ ?_⟩
    · rw [length_overwrite within, List.length_singleton] at above
      omega
    · rw [length]
      exact needs
  · rw [position] at moved changed
    rw [← bytes] at changed
    exact Or.inr ⟨after, index, data, later, put, means.moved isOpen rests changed others moved, safe⟩

/-- A turn of the loop of `lflread` that gets a byte. -/
theorem readLoop_succ {middle : System} {ch : UInt8} (left : Nat) (buff : List UInt8)
    (got : LocalFiles.lflgetc s minor = .ok ((ch.toNat : Int), middle)) :
    readLoop minor (left + 1) buff s = readLoop minor left (buff ++ [ch]) middle := by
  have isByte : UInt8.ofNat (Int.toNat (ch.toNat : Int)) = ch := by
    rw [Int.toNat_natCast, UInt8.ofNat_toNat]
  have notError : (ch.toNat : Int) ≠ syserr := by
    unfold syserr
    omega
  have notEnd : (ch.toNat : Int) ≠ eof := by
    unfold eof
    omega
  rw [readLoop, got]
  simp only [bind, Except.bind, if_neg notError, if_neg notEnd, isByte]

/-- The loop of `lflread`. -/
theorem Means.readLoop (left : Nat) : ∀ {s : System} {ib : UInt32 → Lfiblk} {db : UInt32 → Memory} {l : Layout}
    {files : Files} {handle : Handle} (buff : List UInt8), Means g s ib db l files →
    files.handles minor = some handle →
    ∃ after index data later, readLoop minor left buff s =
        .ok (if buff ++ ((files.contents handle.name).drop handle.position).take left = [] ∧ 0 < left then eof
            else ((buff ++ ((files.contents handle.name).drop handle.position).take left).length : Int),
          buff ++ ((files.contents handle.name).drop handle.position).take left, after) ∧
      Means g after index data later (files.put minor handle.name
        (handle.position + (((files.contents handle.name).drop handle.position).take left).length)
        (files.contents handle.name)) ∧
      (DirSafe s → DirSafe after) := by
  induction left with
  | zero =>
    intro s ib db l files handle buff means isOpen
    refine ⟨s, ib, db, l, ?_, ?_, id⟩
    · rw [List.take_zero, List.append_nil, if_neg fun both => Nat.lt_irrefl 0 both.2]
      rfl
    · rw [List.take_zero, List.length_nil, Nat.add_zero, Files.put_self isOpen]
      exact means
  | succ left inductionHypothesis =>
    intro s ib db l files handle buff means isOpen
    obtain ⟨middle, index, data, later, got, next, safe⟩ := means.lflgetc isOpen
    unfold getOutcome at got next
    cases byte : (files.contents handle.name)[handle.position]? with
    | none =>
      have noMore : (files.contents handle.name).drop handle.position = [] :=
        List.drop_of_length_le (List.getElem?_eq_none_iff.mp byte)
      rw [byte] at got next
      rw [noMore, List.take_nil, List.append_nil, LocalFiles.readLoop, got]
      refine ⟨middle, index, data, later, ?_, next, safe⟩
      cases buff with
      | nil => rfl
      | cons ch rest => rfl
    | some ch =>
      have inside := (List.getElem?_eq_some_iff.mp byte).1
      have more : (files.contents handle.name).drop handle.position =
          ch :: (files.contents handle.name).drop (handle.position + 1) := by
        rw [List.drop_eq_getElem_cons inside, (List.getElem?_eq_some_iff.mp byte).2]
      rw [byte] at got next
      dsimp only at got next
      obtain ⟨after, index', data', later', looped, means', safe'⟩ := inductionHypothesis (buff ++ [ch]) next
        (Files.put_handles _ _ _)
      rw [Files.put_contents] at looped means'
      rw [Files.put_put] at means'
      rw [more, List.take_succ_cons]
      refine ⟨after, index', data', later', ?_, ?_, fun isSafe => safe' (safe isSafe)⟩
      · have joined : buff ++ [ch] ++ ((files.contents handle.name).drop (handle.position + 1)).take left =
            buff ++ ch :: ((files.contents handle.name).drop (handle.position + 1)).take left := by
          rw [List.append_assoc, List.singleton_append]
        have some_ : buff ++ ch :: ((files.contents handle.name).drop (handle.position + 1)).take left ≠ [] := by simp
        rw [joined, if_neg fun both => some_ both.1] at looped
        rw [if_neg fun both => some_ both.1, readLoop_succ left buff got]
        exact looped
      · rw [List.length_cons, Nat.add_comm _ 1, ← Nat.add_assoc]
        exact means'

/-- The loop of `lflwrite`. -/
theorem Means.writeLoop (count : Int) (data : List UInt8) : ∀ {s : System} {ib : UInt32 → Lfiblk}
    {db : UInt32 → Memory} {l : Layout} {files : Files} {handle : Handle}, Means g s ib db l files →
    files.handles minor = some handle →
    (writeLoop minor count data s = .error .panic ∧ ¬ (files.put minor handle.name
      (handle.position + data.length) (overwrite (files.contents handle.name) handle.position data)).Fits g) ∨
    ∃ after index written later, writeLoop minor count data s = .ok (count, after) ∧
      Means g after index written later (files.put minor handle.name (handle.position + data.length)
        (overwrite (files.contents handle.name) handle.position data)) ∧
      (DirSafe s → DirSafe after) := by
  induction data with
  | nil =>
    intro s ib db l files handle means isOpen
    have same : overwrite (files.contents handle.name) handle.position [] = files.contents handle.name := by
      unfold overwrite
      rw [List.append_nil, List.length_nil, Nat.add_zero, List.take_append_drop]
    refine Or.inr ⟨s, ib, db, l, rfl, ?_, id⟩
    rw [same, List.length_nil, Nat.add_zero, Files.put_self isOpen]
    exact means
  | cons ch rest inductionHypothesis =>
    intro s ib db l files handle means isOpen
    have within := (means.bytes isOpen).2.2
    rcases means.lflputc isOpen ch with ⟨fails, unfit⟩ | ⟨middle, index, written, later, put, next, safe⟩
    · refine Or.inl ⟨?_, unfit _ _ ?_⟩
      · unfold LocalFiles.writeLoop
        rw [fails]
        rfl
      · rw [length_overwrite within, length_overwrite within, List.length_singleton, List.length_cons]
        lia
    · have unfolded : LocalFiles.writeLoop minor count (ch :: rest) s = LocalFiles.writeLoop minor count rest middle := by
        rw [LocalFiles.writeLoop, put]
        rfl
      have tail := inductionHypothesis next (Files.put_handles _ _ _)
      rw [Files.put_contents, Files.put_put, overwrite_cons within, Nat.add_assoc, Nat.add_comm 1,
        ← List.length_cons] at tail
      rw [unfolded]
      rcases tail with ⟨fails, unfit⟩ | ⟨after, index', written', later', done, means', safe'⟩
      · exact Or.inl ⟨fails, unfit⟩
      · exact Or.inr ⟨after, index', written', later', done, means', fun isSafe => safe' (safe isSafe)⟩

/-- The calls on a pseudo-device that is open. -/
theorem Means.exec_getc (means : Means g s ib db l files) (isOpen : files.handles minor = some handle) :
    Simulates g s (exec s (.getc minor)) (files.call (.getc minor)) := by
  obtain ⟨after, index, data, later, got, next, safe⟩ := means.lflgetc isOpen
  have acted : files.call (.getc minor) = _ := Files.act_some isOpen getOutcome
  have same : getOutcome handle.position (files.contents handle.name) =
      ⟨((getOutcome handle.position (files.contents handle.name)).reply.1, []),
        (getOutcome handle.position (files.contents handle.name)).position, files.contents handle.name⟩ := by
    unfold getOutcome
    cases (files.contents handle.name)[handle.position]? <;> rfl
  rw [acted, same]
  refine Or.inr ⟨after, index, data, later, ?_, next, safe⟩
  show Except.map _ (LocalFiles.lflgetc s minor) = _
  rw [got]
  rfl

theorem Means.exec_putc (means : Means g s ib db l files) (isOpen : files.handles minor = some handle) (ch : UInt8) :
    Simulates g s (exec s (.putc minor ch)) (files.call (.putc minor ch)) := by
  have acted : files.call (.putc minor ch) = ((ok, []), files.put minor handle.name (handle.position + 1)
      (overwrite (files.contents handle.name) handle.position [ch])) := Files.act_some isOpen _
  rw [acted]
  rcases means.lflputc isOpen ch with ⟨fails, unfit⟩ | ⟨after, index, data, later, put, next, safe⟩
  · refine Or.inl ⟨?_, unfit _ _ (le_refl _)⟩
    show Except.map _ (LocalFiles.lflputc s minor ch) = _
    rw [fails]
    rfl
  · refine Or.inr ⟨after, index, data, later, ?_, next, safe⟩
    show Except.map _ (LocalFiles.lflputc s minor ch) = _
    rw [put]
    rfl

theorem Means.exec_seek (means : Means g s ib db l files) (isOpen : files.handles minor = some handle)
    (offset : UInt32) : Simulates g s (exec s (.seek minor offset)) (files.call (.seek minor offset)) := by
  obtain ⟨used, position, here, _⟩ := means.opened isOpen
  obtain ⟨bytes, length, within⟩ := means.bytes isOpen
  have acted : files.call (.seek minor offset) = _ := Files.act_some isOpen (seekOutcome offset.toNat)
  have unfolded : exec s (.seek minor offset) =
      .ok (((LocalFiles.lflseek s minor offset).1, []), (LocalFiles.lflseek s minor offset).2) := rfl
  rw [acted, unfolded]
  unfold seekOutcome
  rcases Rests.lflseek means.rests used offset with ⟨beyond, refused⟩ | ⟨after, inside, done, rests, same, moved, safe⟩
  · rw [if_pos (by rw [length]; exact beyond), refused]
    dsimp only
    rw [Files.put_self isOpen]
    exact Or.inr ⟨s, ib, db, l, rfl, means, id⟩
  · rw [if_neg (by rw [length]; exact Nat.not_lt.mpr inside), done]
    exact Or.inr ⟨after, ib, db, l, rfl,
      means.moved isOpen rests (by rw [same, bytes]) (fun f _ => by rw [same]) moved, safe⟩

/-- A transfer of nothing changes nothing. -/
theorem Means.exec_nothing (means : Means g s ib db l files) (buff : Memory) {count : Int} (nothing : count ≤ 0) :
    Simulates g s (exec s (.read minor count)) (files.call (.read minor count)) ∧
      Simulates g s (exec s (.write minor buff count)) (files.call (.write minor buff count)) := by
  unfold exec Files.call lflread lflwrite
  dsimp only
  rcases Int.lt_or_eq_of_le nothing with negative | rfl
  · rw [if_pos negative, if_pos negative, if_pos negative, if_pos negative]
    exact ⟨Or.inr ⟨s, ib, db, l, rfl, means, id⟩, Or.inr ⟨s, ib, db, l, rfl, means, id⟩⟩
  · exact ⟨Or.inr ⟨s, ib, db, l, rfl, means, id⟩, Or.inr ⟨s, ib, db, l, rfl, means, id⟩⟩

theorem Means.exec_read (means : Means g s ib db l files) (isOpen : files.handles minor = some handle)
    (count : Int) : Simulates g s (exec s (.read minor count)) (files.call (.read minor count)) := by
  rcases Int.lt_or_le 0 count with some_ | nothing
  case inr => exact (means.exec_nothing (fun _ => 0) nothing).1
  obtain ⟨after, index, data, later, looped, next, safe⟩ := means.readLoop count.toNat [] isOpen
  have acted : files.call (.read minor count) = files.act minor (readOutcome count.toNat) := by
    show (if count < 0 then _ else if count = 0 then _ else _) = _
    rw [if_neg (by omega), if_neg (by omega)]
  have unfolded : exec s (.read minor count) =
      (LocalFiles.readLoop minor count.toNat [] s).map fun result => ((result.1, result.2.1), result.2.2) := by
    show (lflread s minor count).map _ = _
    unfold lflread
    rw [if_neg (by omega)]
  rw [List.nil_append] at looped
  rw [acted, Files.act_some isOpen, unfolded, looped]
  unfold readOutcome
  dsimp only
  by_cases noMore : ((files.contents handle.name).drop handle.position).take count.toNat = []
  · rw [noMore, List.length_nil, Nat.add_zero] at next
    rw [if_pos noMore, if_pos ⟨noMore, by omega⟩, noMore]
    exact Or.inr ⟨after, index, data, later, rfl, next, safe⟩
  · rw [if_neg noMore, if_neg fun both => noMore both.1]
    exact Or.inr ⟨after, index, data, later, rfl, next, safe⟩

theorem Means.exec_write (means : Means g s ib db l files) (isOpen : files.handles minor = some handle)
    (buff : Memory) (count : Int) :
    Simulates g s (exec s (.write minor buff count)) (files.call (.write minor buff count)) := by
  rcases Int.lt_or_le 0 count with some_ | nothing
  case inr => exact (means.exec_nothing buff nothing).2
  have acted : files.call (.write minor buff count) =
      files.act minor (writeOutcome ((List.range count.toNat).map buff)) := by
    show (if count < 0 then _ else if count = 0 then _ else _) = _
    rw [if_neg (by omega), if_neg (by omega)]
  have unfolded : exec s (.write minor buff count) =
      (LocalFiles.writeLoop minor count ((List.range count.toNat).map buff) s).map
        fun result => ((result.1, []), result.2) := by
    show (lflwrite s minor buff count).map _ = _
    unfold lflwrite
    rw [if_neg (by omega)]
  have length : ((((List.range count.toNat).map buff).length : Nat) : Int) = count := by
    rw [List.length_map, List.length_range]
    lia
  rw [acted, Files.act_some isOpen, unfolded]
  unfold writeOutcome
  dsimp only
  rw [length]
  rcases means.writeLoop count ((List.range count.toNat).map buff) isOpen with
    ⟨fails, unfit⟩ | ⟨after, index, written, later, done, next, safe⟩
  · rw [fails]
    exact Or.inl ⟨rfl, unfit⟩
  · rw [done]
    exact Or.inr ⟨after, index, written, later, rfl, next, safe⟩

theorem Means.exec_control (means : Means g s ib db l files) (isOpen : files.handles minor = some handle)
    (func : Int) (stack : UInt32 → Memory) :
    Simulates g s (exec s (.control minor func stack)) (files.call (.control minor func stack)) := by
  obtain ⟨used, position, here, _⟩ := means.opened isOpen
  have acted : files.call (.control minor func stack) = _ :=
    Files.act_some isOpen (if func = lfCtlTrunc then truncateOutcome else refuseOutcome)
  have unfolded : exec s (.control minor func stack) =
      (if func = lfCtlTrunc then lftruncate s minor stack else .ok (syserr, s)).map
        fun result => ((result.1, []), result.2) := by
    show (lflcontrol s minor func stack).map _ = _
    unfold lflcontrol
    rw [if_neg (by rw [used]; decide)]
  rw [acted, unfolded]
  by_cases isTruncate : func = lfCtlTrunc
  · obtain ⟨after, index, data, later, done, rests, isEmpty, others, moved, safe⟩ :=
      Rests.lftruncate means.rests used rfl stack
    rw [if_pos isTruncate, if_pos isTruncate, done]
    exact Or.inr ⟨after, index, data, later, rfl, means.moved isOpen rests isEmpty others moved, safe⟩
  · rw [if_neg isTruncate, if_neg isTruncate]
    unfold refuseOutcome
    dsimp only
    rw [Files.put_self isOpen]
    exact Or.inr ⟨s, ib, db, l, rfl, means, id⟩

theorem Means.exec_close (means : Means g s ib db l files) (isOpen : files.handles minor = some handle) :
    ∃ after, exec s (.close minor) = .ok ((files.call (.close minor)).1, after) ∧
      Means g after ib db l (files.call (.close minor)).2 ∧ (DirSafe s → DirSafe after) ∧
      (DirSafe s → s.lfDirdirty = true ∨ s.fresh = false → after.disk lfAreaDir = after.lfDir) := by
  obtain ⟨used, _, _, _⟩ := means.opened isOpen
  obtain ⟨after, done, rests, same, others, free, safe, written⟩ := Rests.lflclose means.rests used
  have acted : files.call (.close minor) =
      ((ok, []), { files with handles := Function.update files.handles minor none }) := by
    unfold Files.call
    dsimp only
    rw [isOpen]
  have unfolded : exec s (.close minor) =
      .ok (((LocalFiles.lflclose s minor).1, []), (LocalFiles.lflclose s minor).2) := rfl
  rw [acted, unfolded, done]
  refine ⟨after, rfl, ⟨rests, ?_, fun e name isName => ?_, fun m => ?_⟩, safe, written⟩
  · rw [same]
    exact means.named
  · rw [same]
    exact means.contents e name isName
  · show Opened files.names (after.lfltab m) (Function.update files.handles minor none m)
    rcases eq_or_ne m minor with rfl | away
    · rw [Function.update_self]
      exact free
    · rw [Function.update_of_ne away, others m away]
      exact means.handles m

/-- A call on a pseudo-device that is not open changes nothing. -/
theorem exec_closed (free : (s.lfltab minor).lfused = false) (isClosed : files.handles minor = none) (call : Call)
    (onDevice : call.minor = some minor) :
    exec s call = .ok ((files.call call).1, s) ∧ (files.call call).2 = files := by
  have noByte : lflgetc s minor = .ok (syserr, s) := if_pos free
  have noPut : ∀ ch, lflputc s minor ch = .ok (syserr, s) := fun ch => if_pos free
  cases call with
  | «open» name mode => cases onDevice
  | close device =>
    cases onDevice
    have closes : lflclose s minor = (syserr, s) := if_pos free
    unfold exec Files.call
    dsimp only
    rw [isClosed, closes]
    exact ⟨rfl, rfl⟩
  | getc device =>
    cases onDevice
    unfold exec Files.call
    dsimp only
    rw [Files.act_none isClosed, noByte]
    exact ⟨rfl, rfl⟩
  | putc device ch =>
    cases onDevice
    unfold exec Files.call
    dsimp only
    rw [Files.act_none isClosed, noPut]
    exact ⟨rfl, rfl⟩
  | seek device offset =>
    cases onDevice
    have seeks : lflseek s minor offset = (syserr, s) := if_pos free
    unfold exec Files.call
    dsimp only
    rw [Files.act_none isClosed, seeks]
    exact ⟨rfl, rfl⟩
  | read device count =>
    cases onDevice
    unfold exec Files.call lflread
    dsimp only
    rw [Files.act_none isClosed]
    rcases lt_trichotomy count 0 with negative | zero | positive
    · rw [if_pos negative, if_pos negative]
      exact ⟨rfl, rfl⟩
    · rw [if_neg (by omega), if_neg (by omega), if_pos zero, zero]
      exact ⟨rfl, rfl⟩
    · obtain ⟨left, isLeft⟩ : ∃ left, count.toNat = left + 1 := ⟨count.toNat - 1, by lia⟩
      rw [if_neg (by omega), if_neg (by omega), if_neg (by omega), isLeft, readLoop, noByte]
      exact ⟨rfl, rfl⟩
  | write device buff count =>
    cases onDevice
    unfold exec Files.call lflwrite
    dsimp only
    rw [Files.act_none isClosed]
    rcases lt_trichotomy count 0 with negative | zero | positive
    · rw [if_pos negative, if_pos negative]
      exact ⟨rfl, rfl⟩
    · rw [if_neg (by omega), if_neg (by omega), if_pos zero, zero]
      exact ⟨rfl, rfl⟩
    · obtain ⟨left, isLeft⟩ : ∃ left, count.toNat = left + 1 := ⟨count.toNat - 1, by omega⟩
      rw [if_neg (by omega), if_neg (by omega), if_neg (by omega), isLeft, List.range_succ_eq_map, List.map_cons,
        writeLoop, noPut]
      exact ⟨rfl, rfl⟩
  | control device func stack =>
    cases onDevice
    have controls : lflcontrol s minor func stack = .ok (syserr, s) := if_pos free
    unfold exec Files.call
    dsimp only
    rw [Files.act_none isClosed, controls]
    exact ⟨rfl, rfl⟩

end Calls

end Xinu.LocalFiles
