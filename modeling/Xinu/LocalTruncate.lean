import Xinu.LocalCalls

/-!
# Truncating a file

`lftruncate` walks along the index blocks of a file. It pushes the data blocks of each of them to the free
list, one after another, and clears the index block. The last index block comes to point to the old head of
the free index blocks, which also ends the walk, and the first one becomes the new head. The blocks that are
freed are in nobody's memory: the file has given up its copies before.
-/

namespace Xinu.LocalFiles

open CIntegers WordMemory WriteBack

/-- The parts of a directory beside the head of the free data blocks. -/
structure SameEntries (dir after : Memory) : Prop where
  nfiles : lfdNfiles after = lfdNfiles dir
  ifree : lfdIfree after = lfdIfree dir
  ilist : ∀ e, ldIlist after e = ldIlist dir e
  size : ∀ e, ldSize after e = ldSize dir e
  name : ∀ f k, k < 16 → after (ldName f + k) = dir (ldName f + k)

/-- Some data blocks of an entry have been pushed to the free list, the first ones first. -/
structure Freeing (g : Geometry) (s t : System) (index : UInt32 → Lfiblk) (db data : UInt32 → Memory)
    (l : Layout) (e count : Nat) : Prop where
  table : t.lfltab = s.lfltab
  present : t.lfDirpresent = s.lfDirpresent
  dirty : t.lfDirdirty = s.lfDirdirty
  entries : SameEntries s.lfDir t.lfDir
  icoh : Coherent g.IsIndex (lfibget t.disk) (fun m => (s.lfltab m).islot) index
  dcoh : Coherent g.IsData (ddisk t.disk) (fun m => (s.lfltab m).dslot) data
  kept : ∀ d, d ∉ l.blocks e → data d = db d
  path : Path (fun d => load (data d) 0) (lfdDfree t.lfDir) (((l.blocks e).take count).reverse ++ l.dfree) lfDnull

/-- Nobody keeps a block of an entry. -/
structure Abandoned (s : System) (l : Layout) (e : Nat) : Prop where
  index : ∀ m c, (s.lfltab m).islot = some c → c.key ∉ l.chain e
  data : ∀ m c, (s.lfltab m).dslot = some c → c.key ∉ l.blocks e

section Freeing

variable {g : Geometry} {s t : System} {ib index : UInt32 → Lfiblk} {db data : UInt32 → Memory} {dir : Memory}
  {l : Layout} {iext dext : Nat → Nat} {e count q : Nat} {d n : UInt32}

theorem SameEntries.store_dfree (same : SameEntries dir t.lfDir) (w : UInt32) :
    SameEntries dir (store t.lfDir 0 w) :=
  ⟨(lfdNfiles_store (by decide) (by decide)).trans same.nfiles,
    (lfdIfree_store (by decide) (by decide)).trans same.ifree,
    fun f => (ldIlist_store (by unfold lfdFiles; lia) (by decide)).trans (same.ilist f),
    fun f => (ldSize_store (by unfold lfdFiles; lia) (by decide)).trans (same.size f),
    fun f k below => (name_store (Or.inl (by decide)) (by decide) f k below).trans (same.name f k below)⟩

/-- `lfdbfree` pushes the next data block. -/
theorem Freeing.lfdbfree (freeing : Freeing g s t index db data l e count)
    (sound : Sound g ib db dir l iext dext) (abandoned : Abandoned s l e)
    (here : (l.blocks e)[count]? = some d) (buf : Memory) :
    Freeing g s (lfdbfree buf t d) index db (Function.update data d (store buf 0 (lfdDfree t.lfDir))) l e
      (count + 1) := by
  have member := List.mem_of_getElem? here
  have isData := sound.blocks_data member
  have distinct : (l.blocks e).Nodup := sound.dparts.distinct (some e)
  have nobody : ∀ m c, (s.lfltab m).dslot = some c → c.key ≠ d := fun m c holds same =>
    abandoned.data m c holds (same ▸ member)
  have below : count < (l.blocks e).length := (List.getElem?_eq_some_iff.mp here).1
  have isTake : (l.blocks e).take (count + 1) = (l.blocks e).take count ++ [d] := by
    rw [List.take_add_one, here]
    rfl
  have notBefore : ∀ other ∈ ((l.blocks e).take count).reverse ++ l.dfree, other ≠ d := by
    rintro other inside rfl
    rcases List.mem_append.mp inside with freed | isFree
    · rw [List.mem_reverse] at freed
      obtain ⟨place, isPlace⟩ := List.mem_iff_getElem?.mp freed
      have early : place < count := by
        have small := (List.getElem?_eq_some_iff.mp isPlace).1
        rw [List.length_take] at small
        lia
      rw [List.getElem?_take_of_lt early] at isPlace
      have same := (List.getElem?_inj (by omega) distinct).mp (isPlace.trans here.symm)
      lia
    · exact sound.free_not_block isFree member
  refine ⟨freeing.table, freeing.present, freeing.dirty, freeing.entries.store_dfree d, ?_, ?_, fun other away => ?_, ?_⟩
  · exact icoh_dir (icoh_data freeing.icoh isData)
  · refine dcoh_dir ?_
    rw [ddisk_update]
    exact freeing.dcoh.write nobody _
  · have apart : other ≠ d := fun same => away (same ▸ member)
    rw [Function.update_of_ne apart]
    exact freeing.kept other away
  · have head : lfdDfree (LocalFiles.lfdbfree buf t d).lfDir = d := load_store_same
    rw [isTake, List.reverse_append, List.reverse_singleton, List.singleton_append, List.cons_append, head]
    refine ⟨rfl, ?_⟩
    dsimp only
    rw [Function.update_self, load_store_same]
    exact freeing.path.congr fun other inside => by rw [Function.update_of_ne (notBefore other inside)]

/-- Behind the last data block there is nothing to free. -/
theorem Freeing.skip (freeing : Freeing g s t index db data l e count) (past : (l.blocks e)[count]? = none) :
    Freeing g s t index db data l e (count + 1) := by
  have long := List.getElem?_eq_none_iff.mp past
  refine ⟨freeing.table, freeing.present, freeing.dirty, freeing.entries, freeing.icoh, freeing.dcoh,
    freeing.kept, ?_⟩
  rw [List.take_of_length_le (by omega), ← List.take_of_length_le long]
  exact freeing.path

/-- The pointers of an index block from one on. -/
theorem Freeing.pointers (sound : Sound g ib db dir l iext dext) (abandoned : Abandoned s l e)
    (stack : UInt32 → Memory) (left : Nat) : ∀ {t : System} {data : UInt32 → Memory} (r : Nat), r + left = 16 →
    Freeing g s t index db data l e (16 * q + r) →
    ∃ written, Freeing g s (((List.finRange 16).drop r).foldl (fun s i =>
      if (node (l.chain e) (l.blocks e) q).ibDba i ≠ lfDnull then
        LocalFiles.lfdbfree (stack ((node (l.chain e) (l.blocks e) q).ibDba i)) s
          ((node (l.chain e) (l.blocks e) q).ibDba i)
      else s) t) index db written l e (16 * (q + 1)) := by
  induction left with
  | zero =>
    intro t data r isEnd freeing
    have isLast : 16 * q + r = 16 * (q + 1) := by lia
    rw [List.drop_of_length_le (by rw [List.length_finRange]; omega), ← isLast]
    exact ⟨data, freeing⟩
  | succ left inductionHypothesis =>
    intro t data r isPlace freeing
    have below : r < (List.finRange 16).length := by
      rw [List.length_finRange]
      omega
    rw [List.drop_eq_getElem_cons below, List.foldl_cons, List.getElem_finRange]
    have pointer : (node (l.chain e) (l.blocks e) q).ibDba (Fin.cast (List.length_finRange) ⟨r, below⟩) =
        (l.blocks e)[16 * q + r]?.getD lfDnull := rfl
    rw [pointer]
    cases here : (l.blocks e)[16 * q + r]? with
    | none =>
      rw [Option.getD_none, if_neg (not_not.mpr rfl)]
      exact inductionHypothesis (r + 1) (by lia) (freeing.skip here)
    | some d =>
      have real := Geometry.data_ne_null (sound.blocks_data (List.mem_of_getElem? here))
      rw [Option.getD_some, if_pos real]
      exact inductionHypothesis (r + 1) (by omega) (freeing.lfdbfree sound abandoned here _)

/-- The data blocks of an index block are freed. -/
theorem Freeing.freeDblocks (freeing : Freeing g s t index db data l e (16 * q))
    (sound : Sound g ib db dir l iext dext) (abandoned : Abandoned s l e) (stack : UInt32 → Memory) :
    ∃ written, Freeing g s (freeDblocks stack (node (l.chain e) (l.blocks e) q) t) index db written l e
      (16 * (q + 1)) :=
  Freeing.pointers sound abandoned stack 16 0 rfl freeing

/-- The first index blocks of a chain point along it and then to the old free ones. The others are as they
were. -/
structure Cleared (ib index : UInt32 → Lfiblk) (chain : List UInt32) (ifree : UInt32) (q : Nat) : Prop where
  kept : ∀ n, n ∉ chain → index n = ib n
  behind : ∀ j n, j < q → chain[j]? = some n → (index n).ibNext = chain[j + 1]?.getD ifree
  ahead : ∀ j n, q ≤ j → chain[j]? = some n → index n = ib n

/-- One more index block is cleared. -/
theorem Cleared.step {chain : List UInt32} {ifree : UInt32} (cleared : Cleared ib index chain ifree q)
    (distinct : chain.Nodup) (here : chain[q]? = some n) {iblock : Lfiblk}
    (next : iblock.ibNext = chain[q + 1]?.getD ifree) :
    Cleared ib (Function.update index n iblock) chain ifree (q + 1) := by
  have places : ∀ j m, chain[j]? = some m → m = n → j = q := fun j m isHere same =>
    (List.getElem?_inj (List.getElem?_eq_some_iff.mp isHere).1 distinct).mp (by rw [isHere, here, same])
  refine ⟨fun m outside => ?_, fun j m before isHere => ?_, fun j m above isHere => ?_⟩
  · have apart : m ≠ n := fun same => outside (same ▸ List.mem_of_getElem? here)
    rw [Function.update_of_ne apart]
    exact cleared.kept m outside
  · rcases eq_or_ne m n with rfl | apart
    · rw [Function.update_self, next, places j m isHere rfl]
    · have notHere : j ≠ q := fun same => apart (Option.some.inj (by rw [← isHere, ← here, same]))
      rw [Function.update_of_ne apart]
      exact cleared.behind j m (by lia) isHere
  · have apart : m ≠ n := fun same => by
      have isPlace := places j m isHere same
      omega
    rw [Function.update_of_ne apart]
    exact cleared.ahead j m (by omega) isHere

/-- The loop of `lftruncate` from one index block of the chain on. -/
theorem Freeing.truncateLoop (sound : Sound g ib db dir l iext dext) (abandoned : Abandoned s l e)
    (stack : UInt32 → Memory) (turns : Nat) : ∀ {t : System} {index : UInt32 → Lfiblk} {data : UInt32 → Memory}
    (q : Nat), (l.chain e).length < q + turns → q ≤ (l.chain e).length →
    Freeing g s t index db data l e (16 * q) → Cleared ib index (l.chain e) (lfdIfree dir) q →
    ∃ after last written, truncateLoop stack (lfdIfree dir) turns ((l.chain e)[q]?.getD (lfdIfree dir)) t =
        .ok after ∧ Freeing g s after last db written l e (16 * (l.chain e).length) ∧
      Cleared ib last (l.chain e) (lfdIfree dir) (l.chain e).length := by
  induction turns with
  | zero =>
    intro t index data q enough within
    omega
  | succ turns inductionHypothesis =>
    intro t index data q enough within freeing cleared
    rcases Nat.lt_or_ge q (l.chain e).length with inside | atEnd
    · have here := List.getElem?_eq_getElem inside
      set n := (l.chain e)[q] with isBlock
      have member : n ∈ l.chain e := List.getElem_mem inside
      have isIndex := sound.chain_index member
      have real := Geometry.index_ne_null isIndex
      have notEnd : n ≠ lfdIfree dir := by
        have path := sound.ipath
        cases free : l.ifree with
        | nil =>
          rw [free] at path
          exact fun same => real (same.trans path)
        | cons first rest =>
          rw [free] at path
          intro same
          have isFree : n ∈ l.ifree := by
            rw [free, same.trans path.1]
            exact List.mem_cons_self
          exact sound.free_not_chain isFree member
      have nobody : ∀ m c, (s.lfltab m).islot = some c → c.key ≠ n := fun m c holds same =>
        abandoned.index m c holds (same ▸ member)
      have read : lfibget t.disk n = node (l.chain e) (l.blocks e) q := by
        rw [freeing.icoh.uncached n isIndex nobody, cleared.ahead q n (le_refl q) here, sound.nodes e q n here]
      obtain ⟨written, freed⟩ := freeing.freeDblocks sound abandoned stack
      have next : (if (node (l.chain e) (l.blocks e) q).ibNext = lfInull then lfdIfree dir
          else (node (l.chain e) (l.blocks e) q).ibNext) = (l.chain e)[q + 1]?.getD (lfdIfree dir) := by
        show (if (l.chain e)[q + 1]?.getD lfInull = lfInull then _ else (l.chain e)[q + 1]?.getD lfInull) = _
        cases later : (l.chain e)[q + 1]? with
        | none => rw [Option.getD_none, if_pos rfl, Option.getD_none]
        | some m =>
          have isReal := Geometry.index_ne_null (sound.chain_index (List.mem_of_getElem? later))
          rw [Option.getD_some, if_neg isReal, Option.getD_some]
      have unfolded : LocalFiles.truncateLoop stack (lfdIfree dir) (turns + 1) n t =
          LocalFiles.truncateLoop stack (lfdIfree dir) turns ((l.chain e)[q + 1]?.getD (lfdIfree dir))
            { LocalFiles.freeDblocks stack (node (l.chain e) (l.blocks e) q) t with
              disk := lfibput (LocalFiles.freeDblocks stack (node (l.chain e) (l.blocks e) q) t).disk n
                ⟨(l.chain e)[q + 1]?.getD (lfdIfree dir), 0, fun _ => lfDnull⟩ } := by
        rw [LocalFiles.truncateLoop, if_neg notEnd]
        dsimp only
        rw [read, next]
      have linked : (⟨(l.chain e)[q + 1]?.getD (lfdIfree dir), 0, fun _ => lfDnull⟩ : Lfiblk).ibNext =
          (l.chain e)[q + 1]?.getD (lfdIfree dir) := rfl
      rw [here, Option.getD_some, unfolded]
      refine inductionHypothesis (q + 1) (by omega) inside
        ⟨freed.table, freed.present, freed.dirty, freed.entries, ?_, ?_, freed.kept, freed.path⟩
        (cleared.step (sound.iparts.distinct (some e)) here linked)
      · dsimp only
        rw [lfibget_lfibput]
        exact freed.icoh.write nobody _
      · exact dcoh_index freed.dcoh isIndex _
    · have isEnd : q = (l.chain e).length := by lia
      subst isEnd
      rw [List.getElem?_eq_none (le_refl _), Option.getD_none, LocalFiles.truncateLoop, if_pos rfl]
      exact ⟨t, index, data, rfl, freeing, cleared⟩

end Freeing

section Truncation

variable {g : Geometry} {s : System} {ib : UInt32 → Lfiblk} {db : UInt32 → Memory} {l : Layout} {minor e : Nat}

/-- The control block of a file that is truncated. -/
def Lflcblk.reset (file : Lflcblk) : Lflcblk :=
  { file with lfpos := 0, lfinum := lfInull, lfdnum := lfDnull, lfbyte := lfBlksiz }

/-- The directory while a file is truncated. -/
def emptied (dir : Memory) (e : Nat) : Memory := store (store dir (lfdFiles e + 4) lfInull) (lfdFiles e) 0

theorem lfdNfiles_emptied (dir : Memory) (e : Nat) : lfdNfiles (emptied dir e) = lfdNfiles dir := by
  unfold emptied
  rw [lfdNfiles_store (by unfold lfdFiles; omega) (by unfold lfdFiles; omega),
    lfdNfiles_store (by unfold lfdFiles; lia) (by unfold lfdFiles; omega)]

theorem lfdDfree_emptied (dir : Memory) (e : Nat) : lfdDfree (emptied dir e) = lfdDfree dir := by
  unfold emptied
  rw [lfdDfree_store (by unfold lfdFiles; omega) (by unfold lfdFiles; omega),
    lfdDfree_store (by unfold lfdFiles; lia) (by unfold lfdFiles; omega)]

theorem ldSize_emptied (dir : Memory) (e f : Nat) :
    ldSize (emptied dir e) f = if f = e then 0 else ldSize dir f := by
  unfold emptied
  split
  case isTrue isEntry => exact isEntry ▸ load_store_same
  case isFalse apart =>
    rw [ldSize_store (by unfold lfdFiles; lia) (by unfold lfdFiles; omega),
      ldSize_store (by unfold lfdFiles; lia) (by unfold lfdFiles; omega)]

theorem ldIlist_emptied (dir : Memory) (e f : Nat) :
    ldIlist (emptied dir e) f = if f = e then lfInull else ldIlist dir f := by
  unfold emptied
  rw [ldIlist_store (by unfold lfdFiles; omega) (by unfold lfdFiles; omega)]
  split
  case isTrue isEntry => exact isEntry ▸ load_store_same
  case isFalse apart => exact ldIlist_store (by unfold lfdFiles; lia) (by unfold lfdFiles; omega)

theorem name_emptied (dir : Memory) (e f k : Nat) (below : k < 16) :
    emptied dir e (ldName f + k) = dir (ldName f + k) := by
  unfold emptied
  rw [name_store (Or.inr ⟨e, Or.inl rfl⟩) (by unfold lfdFiles; omega) f k below,
    name_store (Or.inr ⟨e, Or.inr rfl⟩) (by unfold lfdFiles; omega) f k below]

/-- The system when the loop of `lftruncate` starts. -/
def System.truncating (s : System) (minor : Nat) : System :=
  { s.setFile minor (s.lfltab minor).reset with
    lfDir := emptied s.lfDir (s.lfltab minor).lfdirptr
    lfDirdirty := true }

/-- A file without changed blocks gives up its copies. -/
theorem Holds.truncating {iext dext : Nat → Nat} (holds : Holds g s ib db l iext dext)
    (used : (s.lfltab minor).lfused = true) (iclean : (s.lfltab minor).lfibdirty = false)
    (dclean : (s.lfltab minor).lfdbdirty = false) :
    Abandoned (s.truncating minor) l (s.lfltab minor).lfdirptr ∧
      Freeing g (s.truncating minor) (s.truncating minor) ib db db l (s.lfltab minor).lfdirptr (16 * 0) := by
  have noIndex : (s.lfltab minor).reset.islot = none := if_neg fun both => both.2 rfl
  have noData : (s.lfltab minor).reset.dslot = none := if_neg fun both => both.2 rfl
  have islots : (fun m => ((s.truncating minor).lfltab m).islot) =
      Function.update (fun m => (s.lfltab m).islot) minor none := by
    rw [← noIndex]
    exact islot_setFile
  have dslots : (fun m => ((s.truncating minor).lfltab m).dslot) =
      Function.update (fun m => (s.lfltab m).dslot) minor none := by
    rw [← noData]
    exact dslot_setFile
  refine ⟨⟨fun m c isHeld member => ?_, fun m c isHeld member => ?_⟩, rfl, rfl, rfl,
    ⟨rfl, rfl, fun _ => rfl, fun _ => rfl, fun _ _ _ => rfl⟩, ?_, ?_, fun _ _ => rfl, ?_⟩
  · have held := congrFun islots m
    rw [isHeld] at held
    rcases eq_or_ne m minor with rfl | away
    · rw [Function.update_self] at held
      cases held
    · rw [Function.update_of_ne away] at held
      exact holds.unkeptIndex used (Or.inr member) m c away held.symm rfl
  · have held := congrFun dslots m
    rw [isHeld] at held
    rcases eq_or_ne m minor with rfl | away
    · rw [Function.update_self] at held
      cases held
    · rw [Function.update_of_ne away] at held
      exact holds.unkeptData used (Or.inr member) m c away held.symm rfl
  · rw [islots]
    exact holds.icoh.evict (islot_clean iclean)
  · rw [dslots]
    exact holds.dcoh.evict (dslot_clean dclean)
  · show Path _ (lfdDfree (emptied s.lfDir _)) _ _
    rw [lfdDfree_emptied]
    exact holds.sound.dpath

/-- The layout after all blocks of an entry were freed. -/
def Layout.truncated (l : Layout) (e : Nat) : Layout where
  ifree := l.chain e ++ l.ifree
  dfree := (l.blocks e).reverse ++ l.dfree
  chain := Function.update l.chain e []
  blocks := Function.update l.blocks e []

/-- The directory after a file was truncated. -/
structure EmptiedDir (dir after : Memory) (e : Nat) : Prop where
  nfiles : lfdNfiles after = lfdNfiles dir
  ifree : lfdIfree after = ldIlist dir e
  ilist : ∀ f, ldIlist after f = if f = e then lfInull else ldIlist dir f
  size : ∀ f, ldSize after f = if f = e then 0 else ldSize dir f
  name : ∀ f k, k < 16 → after (ldName f + k) = dir (ldName f + k)

theorem emptiedDir {dir after : Memory} (same : SameEntries (emptied dir e) after) :
    EmptiedDir dir (store after 4 (ldIlist dir e)) e := by
  refine ⟨?_, load_store_same, fun f => ?_, fun f => ?_, fun f k below => ?_⟩
  · rw [lfdNfiles_store (by decide) (by decide), same.nfiles, lfdNfiles_emptied]
  · rw [ldIlist_store (by unfold lfdFiles; lia) (by decide), same.ilist, ldIlist_emptied]
  · rw [ldSize_store (by unfold lfdFiles; lia) (by decide), same.size, ldSize_emptied]
  · rw [name_store (Or.inl (by decide)) (by decide) f k below, same.name f k below, name_emptied dir e f k below]

theorem EmptiedDir.extent {dir after : Memory} (isEmptied : EmptiedDir dir after e) (inFiles : e < lfdNfiles dir) :
    extent after = Function.update (extent dir) e 0 := by
  funext f
  unfold LocalFiles.extent
  rw [isEmptied.nfiles, isEmptied.size]
  rcases eq_or_ne f e with rfl | apart
  · rw [Function.update_self, if_pos rfl, if_pos inFiles]
    rfl
  · rw [Function.update_of_ne apart, if_neg apart]

/-- After the loop all blocks of the file are free. -/
theorem Freeing.sound {start middle : System} {index : UInt32 → Lfiblk} {data : UInt32 → Memory} {dir : Memory}
    {ext : Nat → Nat} (sound : Sound g ib db dir l ext ext) (inFiles : e < lfdNfiles dir) (some_ : 0 < ext e)
    (freed : Freeing g start middle index db data l e (16 * (l.chain e).length))
    (cleared : Cleared ib index (l.chain e) (lfdIfree dir) (l.chain e).length)
    (isEmptied : EmptiedDir dir (store middle.lfDir 4 (ldIlist dir e)) e) :
    Sound g index data (store middle.lfDir 4 (ldIlist dir e)) (l.truncated e)
      (Function.update ext e 0) (Function.update ext e 0) := by
  have long := sound.long e
  have wide := sound.wide e
  have spliced : Path (fun n => (index n).ibNext) (ldIlist dir e) (l.chain e) (lfdIfree dir) := by
    refine path_of_getElem ?_ fun q n here => cleared.behind q n (List.getElem?_eq_some_iff.mp here).1 here
    rw [sound.first e inFiles, List.head?_eq_getElem?, List.getElem?_eq_getElem (by lia)]
    rfl
  have path := freed.path
  rw [List.take_of_length_le (by lia)] at path
  refine sound.truncated inFiles spliced cleared.kept ?_ isEmptied.nfiles isEmptied.ifree isEmptied.ilist
  rw [lfdDfree_store (by decide) (by decide)]
  exact path

/-- `lftruncate` of a file without changed blocks. -/
theorem Rests.truncateClean (holds : Rests g s ib db l) (used : (s.lfltab minor).lfused = true)
    (iclean : (s.lfltab minor).lfibdirty = false) (dclean : (s.lfltab minor).lfdbdirty = false)
    (isEntry : (s.lfltab minor).lfdirptr = e) (some_ : 0 < extent s.lfDir e) (stack : UInt32 → Memory) :
    ∃ middle index data, truncateLoop stack (lfdIfree s.lfDir) ((ldSize s.lfDir e).toNat + 1)
        (ldIlist s.lfDir e) (s.truncating minor) = .ok middle ∧
      Rests g { middle with lfDir := store middle.lfDir 4 (ldIlist s.lfDir e), lfDirdirty := true } index data
        (l.truncated e) ∧
      EmptiedDir s.lfDir (store middle.lfDir 4 (ldIlist s.lfDir e)) e ∧
      middle.lfltab = Function.update s.lfltab minor (s.lfltab minor).reset ∧
      ∀ d, d ∉ l.blocks e → data d = db d := by
  subst isEntry
  have fileOk := (holds.file minor used).2
  have size := extent_of_lt fileOk.entry
  have long := holds.sound.long (s.lfltab minor).lfdirptr
  obtain ⟨abandoned, freeing⟩ := holds.truncating used iclean dclean
  have cleared : Cleared ib ib (l.chain (s.lfltab minor).lfdirptr) (lfdIfree s.lfDir) 0 :=
    ⟨fun _ _ => rfl, fun j n before _ => absurd before (Nat.not_lt_zero j), fun _ _ _ _ => rfl⟩
  have head : (l.chain (s.lfltab minor).lfdirptr)[0]?.getD (lfdIfree s.lfDir) =
      ldIlist s.lfDir (s.lfltab minor).lfdirptr := by
    rw [holds.sound.first _ fileOk.entry, List.head?_eq_getElem?, List.getElem?_eq_getElem (by lia)]
    rfl
  obtain ⟨middle, index, data, looped, freed, done⟩ := Freeing.truncateLoop holds.sound abandoned stack
    ((ldSize s.lfDir (s.lfltab minor).lfdirptr).toNat + 1) 0 (by lia) (Nat.zero_le _) freeing cleared
  rw [head] at looped
  have isEmptied := emptiedDir freed.entries
  have sound := Freeing.sound holds.sound fileOk.entry some_ freed done isEmptied
  rw [← isEmptied.extent fileOk.entry] at sound
  have table : middle.lfltab = Function.update s.lfltab minor (s.lfltab minor).reset := freed.table
  refine ⟨middle, index, data, looped, ?_, isEmptied, table, freed.kept⟩
  have present : middle.lfDirpresent = true := freed.present.trans holds.present
  unfold Rests
  rw [table, present]
  refine holds.replaceFile used rfl sound isEmptied.nfiles (fun f apart => ?_)
    (fun f apart => Function.update_of_ne apart _ _) (fun f apart => Function.update_of_ne apart _ _) ?_ ?_ ?_
  · rw [isEmptied.size]
    exact if_neg apart
  · rw [← islot_setFile]
    exact freed.icoh
  · rw [← dslot_setFile]
    exact freed.dcoh
  · exact ⟨isEmptied.nfiles ▸ fileOk.entry, fun loaded => absurd rfl loaded, fun loaded => absurd rfl loaded,
      fun _ => iclean, fun _ => dclean, Nat.zero_le _, fun near => absurd near (Nat.lt_irrefl _)⟩

/-- `lftruncate` frees all blocks of the file. -/
theorem Rests.lftruncate (holds : Rests g s ib db l) (used : (s.lfltab minor).lfused = true)
    (isEntry : (s.lfltab minor).lfdirptr = e) (stack : UInt32 → Memory) :
    ∃ after index data later, lftruncate s minor stack = .ok (ok, after) ∧ Rests g after index data later ∧
      fileBytes data after.lfDir later e = [] ∧
      (∀ f, f ≠ e → fileBytes data after.lfDir later f = fileBytes db s.lfDir l f) ∧
      Moved s after minor 0 ∧ (DirSafe s → DirSafe after) := by
  have fileOk := (holds.file minor used).2
  subst isEntry
  have size := extent_of_lt fileOk.entry
  by_cases isEmpty : ldSize s.lfDir (s.lfltab minor).lfdirptr = 0
  · have zero : extent s.lfDir (s.lfltab minor).lfdirptr = 0 := by
      rw [size, isEmpty]
      rfl
    have position := fileOk.position
    rw [← size, zero] at position
    refine ⟨s, ib, db, l, ?_, holds, ?_, fun _ _ => rfl,
      ⟨rfl, fun _ _ _ => rfl, fun _ _ => rfl, rfl, rfl, rfl, by lia⟩, id⟩
    · unfold LocalFiles.lftruncate
      dsimp only
      rw [if_pos isEmpty]
    · unfold fileBytes
      rw [zero]
      rfl
  · obtain ⟨settled, kept, isDir, isFlushed, _⟩ := holds.settled used rfl
    set flushed := if (s.lfltab minor).lfibdirty = true ∨ (s.lfltab minor).lfdbdirty = true then lfflush s minor
      else s with isSettled
    have positive : 0 < extent s.lfDir (s.lfltab minor).lfdirptr := by
      rw [size]
      exact Nat.pos_of_ne_zero fun zero => isEmpty (UInt32.toNat_inj.mp zero)
    have rests : Rests g flushed ib db l := by
      unfold Rests
      rw [isDir]
      exact settled
    have truncated := Rests.truncateClean rests (kept.used.trans used) (by rw [isFlushed]; rfl)
      (by rw [isFlushed]; rfl) kept.entry (by rw [isDir]; exact positive) stack
    rw [isDir] at truncated
    obtain ⟨middle, index, data, looped, after, isEmptied, table, dkept⟩ := truncated
    have isReset : middle.lfltab minor = (flushed.lfltab minor).reset := by
      rw [table, Function.update_self]
    refine ⟨_, index, data, _, ?_, after, ?_, fun f apart => ?_, ⟨isEmptied.nfiles, isEmptied.name, fun m away => ?_,
      ?_, ?_, ?_, ?_⟩, fun _ => Or.inl rfl⟩
    · have unfolded : LocalFiles.lftruncate s minor stack =
          (LocalFiles.truncateLoop stack (lfdIfree flushed.lfDir)
            ((ldSize s.lfDir (s.lfltab minor).lfdirptr).toNat + 1)
            (ldIlist flushed.lfDir (s.lfltab minor).lfdirptr)
            { flushed.setFile minor (flushed.lfltab minor).reset with
              lfDir := emptied flushed.lfDir (s.lfltab minor).lfdirptr, lfDirdirty := true } >>= fun t =>
            .ok (ok, { t with
              lfDir := store t.lfDir 4 (ldIlist flushed.lfDir (s.lfltab minor).lfdirptr), lfDirdirty := true })) := by
        unfold LocalFiles.lftruncate
        dsimp only
        rw [if_neg isEmpty]
        rfl
      unfold System.truncating at looped
      rw [kept.entry] at looped
      rw [unfolded, isDir]
      rw [isDir] at looped
      rw [looped]
      rfl
    · unfold fileBytes
      rw [isEmptied.extent fileOk.entry, Function.update_self]
      rfl
    · unfold fileBytes
      rw [isEmptied.extent fileOk.entry, Function.update_of_ne apart]
      refine List.map_congr_left fun k member => ?_
      have below := holds.sound.inside_blocks (List.mem_range.mp member)
      have here := List.getElem?_eq_getElem below
      have sameBlocks : (l.truncated (s.lfltab minor).lfdirptr).blocks f = l.blocks f :=
        Function.update_of_ne apart _ _
      unfold byteAt
      rw [sameBlocks, here, Option.getD_some, dkept _ fun inside =>
        apart (holds.sound.blocks_apart (List.getElem_mem below) inside)]
    · dsimp only
      rw [table, Function.update_of_ne away]
      exact kept.others m away
    · dsimp only
      rw [isReset]
      exact kept.used
    · dsimp only
      rw [isReset]
      exact kept.entry
    · dsimp only
      rw [isReset]
      exact kept.lfname
    · dsimp only
      rw [isReset]
      rfl

end Truncation

end Xinu.LocalFiles
