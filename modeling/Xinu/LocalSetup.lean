import Xinu.LocalTransfers

/-!
# The blocks of a position

`lfsetup` brings the index block and the data block of the current position into memory. It writes the
old copies back, walks along the chain of index blocks, and allocates blocks at the end of the file. A
position inside of the file changes nothing that the blocks mean. A position at its end may add one data
block, and one index block.
-/

namespace Xinu.LocalFiles

open CIntegers WordMemory WriteBack

/-- The index blocks cover a position at most. -/
def Stretched (iext ispan : Nat → Nat) (e position : Nat) : Prop :=
  (∀ f, f ≠ e → ispan f = iext f) ∧ iext e ≤ ispan e ∧ ispan e ≤ max (iext e) (position + 1)

/-- The index block in memory is one of the chain, and it does not lie behind the position. The data block
has not changed. -/
structure Walk (s : System) (minor : Nat) (l : Layout) (q : Nat) : Prop where
  used : (s.lfltab minor).lfused = true
  here : (l.chain (s.lfltab minor).lfdirptr)[q]? = some (s.lfltab minor).lfinum
  before : 8192 * q ≤ (s.lfltab minor).lfpos.toNat
  dclean : (s.lfltab minor).lfdbdirty = false
  far : lfBlksiz ≤ (s.lfltab minor).lfbyte
  iclean : 8192 * (q + 1) ≤ (s.lfltab minor).lfpos.toNat → (s.lfltab minor).lfibdirty = false

/-- Index blocks come into memory, up to one of the chain. The data blocks stay. If the directory in memory
has become another one, then the position needs a data block that the file does not have yet. -/
structure Indexed (g : Geometry) (s after : System) (minor : Nat) (index : UInt32 → Lfiblk)
    (db : UInt32 → Memory) (l later : Layout) (iext ispan dext : Nat → Nat) (q : Nat) : Prop where
  holds : Holds g after index db later ispan dext
  walk : Walk after minor later q
  kept : Kept s after minor
  blocks : later.blocks = l.blocks
  dfree : later.dfree = l.dfree
  ifree : later.ifree = l.ifree ∨ (s.lfltab minor).lfpos.toNat < ispan (s.lfltab minor).lfdirptr
  stretched : Stretched iext ispan (s.lfltab minor).lfdirptr (s.lfltab minor).lfpos.toNat
  dir : DirSafe s →
    DirSafe after ∨ (l.blocks (s.lfltab minor).lfdirptr).length ≤ (s.lfltab minor).lfpos.toNat / 512

section Walks

variable {g : Geometry} {s : System} {ib : UInt32 → Lfiblk} {db : UInt32 → Memory} {l : Layout}
  {iext dext : Nat → Nat} {minor e q : Nat} {n d : UInt32}

theorem stretched_refl (iext : Nat → Nat) (e position : Nat) : Stretched iext iext e position :=
  ⟨fun _ _ => rfl, le_refl _, le_max_left _ _⟩

/-- The index block in memory. -/
theorem Holds.iblock (holds : Holds g s ib db l iext dext) (walk : Walk s minor l q) :
    (s.lfltab minor).lfiblock = node (l.chain (s.lfltab minor).lfdirptr) (l.blocks (s.lfltab minor).lfdirptr) q := by
  have isIndex := holds.sound.chain_index (List.mem_of_getElem? walk.here)
  obtain ⟨_, value, _⟩ := holds.icoh.cached minor _
    (islot_some walk.used (Geometry.index_ne_null isIndex))
  exact value.trans (holds.sound.nodes _ q _ walk.here)

/-- A file with an empty chain has no blocks. -/
theorem Sound.blocks_nil {dir : Memory} (sound : Sound g ib db dir l iext dext) (empty : l.chain e = []) :
    l.blocks e = [] := by
  have long := sound.long e
  have wide := sound.wide e
  have inside := sound.inside e
  rw [empty, List.length_nil] at long
  exact List.length_eq_zero_iff.mp (by lia)

/-- The first index block of an empty file is made. -/
theorem Holds.firstAlloc (holds : Holds g s ib db l iext dext) (used : (s.lfltab minor).lfused = true)
    (unloaded : (s.lfltab minor).lfinum = lfInull) (dclean : (s.lfltab minor).lfdbdirty = false)
    (far : lfBlksiz ≤ (s.lfltab minor).lfbyte) (empty : l.chain (s.lfltab minor).lfdirptr = [])
    {rest : List UInt32} (free : l.ifree = n :: rest) :
    Holds g ⟨Function.update s.disk lfAreaDir (store s.lfDir 4 (ib n).ibNext),
        store (store s.lfDir 4 (ib n).ibNext) (lfdFiles (s.lfltab minor).lfdirptr + 4) n, true, false,
        Function.update s.lfltab minor
          { s.lfltab minor with lfiblock := lfibclear 0, lfibdirty := true, lfinum := n }, false⟩
      (Function.update ib n (lfibclear 0)) db
      { l with
        ifree := rest
        chain := Function.update l.chain (s.lfltab minor).lfdirptr (l.chain (s.lfltab minor).lfdirptr ++ [n]) }
      (Function.update iext (s.lfltab minor).lfdirptr (iext (s.lfltab minor).lfdirptr + 1)) dext := by
  have fileOk := (holds.file minor used).2
  have isFree : n ∈ l.ifree := free ▸ List.mem_cons_self
  have isIndex := holds.sound.ifree_index isFree
  have long := holds.sound.long (s.lfltab minor).lfdirptr
  rw [empty, List.length_nil] at long
  have sound : Sound g (Function.update ib n (lfibclear 0)) db
      (store (store s.lfDir 4 (ib n).ibNext) (lfdFiles (s.lfltab minor).lfdirptr + 4) n)
      { l with
        ifree := rest
        chain := Function.update l.chain (s.lfltab minor).lfdirptr (l.chain (s.lfltab minor).lfdirptr ++ [n]) }
      (Function.update iext (s.lfltab minor).lfdirptr (iext (s.lfltab minor).lfdirptr + 1)) dext := by
    refine holds.sound.attachIndex fileOk.entry free ?_ ?_ (fun m isLast => ?_) (fun m apart _ => ?_) ?_ ?_ ?_
      (fun f => ?_)
    · rw [empty, List.length_nil]
      lia
    · rw [Function.update_self, empty]
      rfl
    · rw [empty] at isLast
      cases isLast
    · exact Function.update_of_ne apart _ _
    · rw [lfdNfiles_store (by unfold lfdFiles; lia) (by unfold lfdFiles; omega),
        lfdNfiles_store (by decide) (by decide)]
    · rw [lfdDfree_store (by unfold lfdFiles; lia) (by unfold lfdFiles; omega),
        lfdDfree_store (by decide) (by decide)]
    · rw [lfdIfree_store (by unfold lfdFiles; lia) (by unfold lfdFiles; omega)]
      exact load_store_same
    · split
      case isTrue both =>
        rw [both.1]
        exact load_store_same
      case isFalse other =>
        have apart : f ≠ (s.lfltab minor).lfdirptr := fun same => other ⟨same, empty⟩
        rw [ldIlist_store (by unfold lfdFiles; lia) (by unfold lfdFiles; omega),
          ldIlist_store (by unfold lfdFiles; lia) (by decide)]
  refine holds.replaceFile used rfl sound ?_ (fun f apart => ?_)
    (fun f apart => Function.update_of_ne apart _ _) (fun _ _ => rfl) ?_ ?_ ?_
  · rw [lfdNfiles_store (by unfold lfdFiles; omega) (by unfold lfdFiles; omega),
      lfdNfiles_store (by decide) (by decide)]
  · rw [ldSize_store (by unfold lfdFiles; lia) (by unfold lfdFiles; omega),
      ldSize_store (by unfold lfdFiles; lia) (by decide)]
  · have isSlot : Lflcblk.islot { s.lfltab minor with lfiblock := lfibclear 0, lfibdirty := true, lfinum := n } =
        some ⟨n, lfibclear 0, true⟩ := if_pos ⟨used, Geometry.index_ne_null isIndex⟩
    rw [isSlot]
    refine icoh_dir (holds.icoh.create (fun c kept => ?_) isIndex (holds.unkeptIndex used (Or.inl isFree)) _)
    exact absurd unloaded (islot_key kept).2.1
  · have isSlot : Lflcblk.dslot { s.lfltab minor with lfiblock := lfibclear 0, lfibdirty := true, lfinum := n } =
        (s.lfltab minor).dslot := rfl
    rw [isSlot, Function.update_eq_self]
    exact dcoh_dir holds.dcoh
  · refine ⟨?_, fun _ => ?_, fileOk.down, fun none_ => absurd none_ (Geometry.index_ne_null isIndex),
      fun _ => dclean, ?_, fun near => absurd far (Nat.not_le.mpr near)⟩
    · rw [lfdNfiles_store (by unfold lfdFiles; omega) (by unfold lfdFiles; omega),
        lfdNfiles_store (by decide) (by decide)]
      exact fileOk.entry
    · dsimp only
      rw [Function.update_self]
      exact List.mem_append_right _ List.mem_cons_self
    · dsimp only
      rw [ldSize_store (by lia) (by unfold lfdFiles; omega), ldSize_store (by unfold lfdFiles; lia) (by decide)]
      exact fileOk.position

/-- An index block of the chain is fetched, and the data block is kept or given up. -/
theorem Holds.fetchWalk (holds : Holds g s ib db l iext dext) (used : (s.lfltab minor).lfused = true)
    (iclean : (s.lfltab minor).lfibdirty = false) (dclean : (s.lfltab minor).lfdbdirty = false)
    (far : lfBlksiz ≤ (s.lfltab minor).lfbyte) (here : (l.chain (s.lfltab minor).lfdirptr)[q]? = some n)
    (before : 8192 * q ≤ (s.lfltab minor).lfpos.toNat) (keep : d = (s.lfltab minor).lfdnum ∨ d = lfDnull) :
    Indexed g s (s.setFile minor { s.lfltab minor with lfiblock := lfibget s.disk n, lfinum := n, lfdnum := d })
      minor ib db l l iext iext dext q := by
  obtain ⟨_, after⟩ := holds.fetchIndex used iclean dclean far (List.mem_of_getElem? here) keep
  refine ⟨after, ?_, ?_, rfl, rfl, Or.inl rfl, stretched_refl _ _ _, Or.inl⟩
  · refine ⟨?_, ?_, ?_, ?_, ?_, fun _ => ?_⟩ <;> rw [setFile_self] <;> assumption
  · have kept := @kept_setFile s minor { s.lfltab minor with
      lfiblock := lfibget s.disk n, lfinum := n, lfdnum := d } s.disk s.lfDirdirty s.fresh rfl
    unfold System.setFile
    rw [holds.present]
    exact kept

/-- The first index block comes into memory, unless a later one is there that does not lie behind the
position. -/
theorem Holds.firstIblock (holds : Holds g s ib db l iext dext) (used : (s.lfltab minor).lfused = true)
    (iclean : (s.lfltab minor).lfibdirty = false) (dclean : (s.lfltab minor).lfdbdirty = false)
    (far : lfBlksiz ≤ (s.lfltab minor).lfbyte)
    (bound : (s.lfltab minor).lfpos.toNat ≤ iext (s.lfltab minor).lfdirptr)
    (small : iext (s.lfltab minor).lfdirptr < 2 ^ 32) :
    (l.ifree = [] ∧ iext (s.lfltab minor).lfdirptr % 8192 = 0 ∧
      (s.lfltab minor).lfpos.toNat = iext (s.lfltab minor).lfdirptr ∧
      firstIblock s minor = .error .panic) ∨
    ∃ after index later ispan q, firstIblock s minor = .ok after ∧
      Indexed g s after minor index db l later iext ispan dext q := by
  have fileOk := (holds.file minor used).2
  have first := holds.sound.first _ fileOk.entry
  have long := holds.sound.long (s.lfltab minor).lfdirptr
  by_cases unloaded : (s.lfltab minor).lfinum = lfInull
  · cases chain : l.chain (s.lfltab minor).lfdirptr with
    | nil =>
      have isNull : ldIlist s.lfDir (s.lfltab minor).lfdirptr = lfInull := by
        rw [first, chain]
        rfl
      rw [chain, List.length_nil] at long
      have noBlocks := holds.sound.blocks_nil chain
      rcases holds.lfiballoc with ⟨empty, fails⟩ | ⟨n, rest, free, allocated⟩
      · refine Or.inl ⟨empty, by lia, by lia, ?_⟩
        unfold LocalFiles.firstIblock
        dsimp only
        rw [if_pos unloaded, if_pos isNull, fails]
        rfl
      · have after := holds.firstAlloc used unloaded dclean far chain free
        refine Or.inr ⟨_, _, _, _, 0, ?_, after, ?_, ?_, rfl, rfl, Or.inr ?_, ⟨fun f apart => ?_, ?_, ?_⟩,
          fun _ => Or.inr ?_⟩
        · unfold LocalFiles.firstIblock
          dsimp only
          rw [if_pos unloaded, if_pos isNull, allocated]
          rfl
        · refine ⟨?_, ?_, ?_, ?_, ?_, fun behind => ?_⟩ <;> dsimp only at * <;> rw [Function.update_self] at *
          · exact used
          · rw [Function.update_self, chain]
            rfl
          · exact Nat.zero_le _
          · exact dclean
          · exact far
          · dsimp only at behind
            lia
        · have kept := @kept_setFile s minor { s.lfltab minor with
            lfiblock := lfibclear 0, lfibdirty := true, lfinum := n } s.disk s.lfDirdirty s.fresh rfl
          refine ⟨fun f => ?_, ?_, fun f k below => ?_, kept.others, kept.used, kept.entry, kept.position,
            kept.lfname⟩
          · dsimp only
            rw [ldSize_store (by unfold lfdFiles; omega) (by unfold lfdFiles; omega),
              ldSize_store (by unfold lfdFiles; omega) (by decide)]
          · rw [lfdNfiles_store (by unfold lfdFiles; omega) (by unfold lfdFiles; omega),
              lfdNfiles_store (by decide) (by decide)]
          · dsimp only
            rw [name_store (Or.inr ⟨_, Or.inr rfl⟩) (by unfold lfdFiles; lia) f k below,
              name_store (Or.inl (by decide)) (by decide) f k below]
        · rw [Function.update_self]
          omega
        · exact Function.update_of_ne apart _ _
        · rw [Function.update_self]
          lia
        · rw [Function.update_self]
          lia
        · rw [noBlocks]
          exact Nat.zero_le _
    | cons n rest =>
      have isFirst : ldIlist s.lfDir (s.lfltab minor).lfdirptr = n := by
        rw [first, chain]
        rfl
      have here : (l.chain (s.lfltab minor).lfdirptr)[0]? = some n := by
        rw [chain]
        rfl
      have real : n ≠ lfInull := Geometry.index_ne_null (holds.sound.chain_index (List.mem_of_getElem? here))
      refine Or.inr ⟨_, _, _, _, 0, ?_, holds.fetchWalk used iclean dclean far here (Nat.zero_le _) (Or.inl rfl)⟩
      unfold LocalFiles.firstIblock
      dsimp only
      rw [if_pos unloaded, isFirst, if_neg real]
  · obtain ⟨q, here⟩ := List.mem_iff_getElem?.mp (fileOk.iown unloaded)
    have below : q < (l.chain (s.lfltab minor).lfdirptr).length := (List.getElem?_eq_some_iff.mp here).1
    obtain ⟨_, value, _⟩ := holds.icoh.cached minor _ (islot_some used unloaded)
    have offset : (s.lfltab minor).lfiblock.ibOffset.toNat = 8192 * q := by
      have block : (s.lfltab minor).lfiblock = node _ _ q := value.trans (holds.sound.nodes _ q _ here)
      rw [block]
      exact Nat.mod_eq_of_lt (show 8192 * q < 2 ^ 32 by lia)
    by_cases behind : (s.lfltab minor).lfpos < (s.lfltab minor).lfiblock.ibOffset
    · cases chain : l.chain (s.lfltab minor).lfdirptr with
      | nil =>
        rw [chain] at here
        cases here
      | cons n rest =>
        have isFirst : ldIlist s.lfDir (s.lfltab minor).lfdirptr = n := by
          rw [first, chain]
          rfl
        have start : (l.chain (s.lfltab minor).lfdirptr)[0]? = some n := by
          rw [chain]
          rfl
        refine Or.inr ⟨_, _, _, _, 0, ?_, holds.fetchWalk used iclean dclean far start (Nat.zero_le _) (Or.inl rfl)⟩
        unfold LocalFiles.firstIblock
        dsimp only
        rw [if_neg unloaded, if_pos behind, isFirst]
    · refine Or.inr ⟨s, ib, l, iext, q, ?_, holds, ⟨used, here, ?_, dclean, far, fun _ => iclean⟩, Kept.refl s minor,
        rfl, rfl, Or.inl rfl, stretched_refl _ _ _, Or.inl⟩
      · unfold LocalFiles.firstIblock
        dsimp only
        rw [if_neg unloaded, if_neg behind]
      · rw [UInt32.lt_iff_toNat_lt, offset] at behind
        lia

/-- An index block is made behind the last one of the chain, which is written with the pointer to it. -/
theorem Holds.nextAlloc (holds : Holds g s ib db l iext dext) (walk : Walk s minor l q)
    (isLast : (l.chain (s.lfltab minor).lfdirptr).length = q + 1)
    (full : iext (s.lfltab minor).lfdirptr = 8192 * (q + 1))
    {rest : List UInt32} (free : l.ifree = n :: rest) :
    Holds g ⟨lfibput (Function.update s.disk lfAreaDir (store s.lfDir 4 (ib n).ibNext)) (s.lfltab minor).lfinum
          { (s.lfltab minor).lfiblock with ibNext := n },
        store s.lfDir 4 (ib n).ibNext, true, false,
        Function.update s.lfltab minor { s.lfltab minor with
          lfinum := n
          lfiblock := lfibclear (UInt32.ofNat (8192 * (q + 1)))
          lfibdirty := true
          lfdnum := lfDnull }, false⟩
      (Function.update (Function.update ib (s.lfltab minor).lfinum
        { (s.lfltab minor).lfiblock with ibNext := n }) n (lfibclear (UInt32.ofNat (8192 * (q + 1))))) db
      { l with
        ifree := rest
        chain := Function.update l.chain (s.lfltab minor).lfdirptr (l.chain (s.lfltab minor).lfdirptr ++ [n]) }
      (Function.update iext (s.lfltab minor).lfdirptr (iext (s.lfltab minor).lfdirptr + 1)) dext := by
  have used := walk.used
  have fileOk := (holds.file minor used).2
  have isFree : n ∈ l.ifree := free ▸ List.mem_cons_self
  have isIndex := holds.sound.ifree_index isFree
  have member : (s.lfltab minor).lfinum ∈ l.chain (s.lfltab minor).lfdirptr := List.mem_of_getElem? walk.here
  have apart : (s.lfltab minor).lfinum ≠ n := fun same =>
    holds.sound.free_not_chain isFree (same ▸ member)
  have loaded := Geometry.index_ne_null (holds.sound.chain_index member)
  obtain ⟨_, value, _⟩ := holds.icoh.cached minor _ (islot_some used loaded)
  have lastIs : (l.chain (s.lfltab minor).lfdirptr).getLast? = some (s.lfltab minor).lfinum := by
    rw [List.getLast?_eq_getElem?, isLast]
    exact walk.here
  have sound : Sound g (Function.update (Function.update ib (s.lfltab minor).lfinum
        { (s.lfltab minor).lfiblock with ibNext := n }) n (lfibclear (UInt32.ofNat (8192 * (q + 1))))) db
      (store s.lfDir 4 (ib n).ibNext)
      { l with
        ifree := rest
        chain := Function.update l.chain (s.lfltab minor).lfdirptr (l.chain (s.lfltab minor).lfdirptr ++ [n]) }
      (Function.update iext (s.lfltab minor).lfdirptr (iext (s.lfltab minor).lfdirptr + 1)) dext := by
    refine holds.sound.attachIndex fileOk.entry free (isLast ▸ full) ?_ (fun m isEnd => ?_)
      (fun m away notEnd => ?_) ?_ ?_ ?_ (fun f => ?_)
    · rw [Function.update_self, isLast]
    · obtain rfl : (s.lfltab minor).lfinum = m := Option.some.inj (lastIs.symm.trans isEnd)
      rw [Function.update_of_ne apart, Function.update_self, ← value]
    · have notLast : m ≠ (s.lfltab minor).lfinum := fun same => notEnd (same ▸ lastIs)
      rw [Function.update_of_ne away, Function.update_of_ne notLast]
    · exact lfdNfiles_store (by decide) (by decide)
    · exact lfdDfree_store (by decide) (by decide)
    · exact load_store_same
    · rw [ldIlist_store (by unfold lfdFiles; lia) (by decide), if_neg fun both => ?_]
      rw [both.2, List.length_nil] at isLast
      omega
  refine holds.replaceFile used rfl sound ?_ (fun f away => ?_)
    (fun f away => Function.update_of_ne away _ _) (fun _ _ => rfl) ?_ ?_ ?_
  · exact lfdNfiles_store (by decide) (by decide)
  · exact ldSize_store (by unfold lfdFiles; lia) (by decide)
  · have isSlot : Lflcblk.islot { s.lfltab minor with
        lfinum := n
        lfiblock := lfibclear (UInt32.ofNat (8192 * (q + 1)))
        lfibdirty := true
        lfdnum := lfDnull } = some ⟨n, lfibclear (UInt32.ofNat (8192 * (q + 1))), true⟩ :=
      if_pos ⟨used, Geometry.index_ne_null isIndex⟩
    rw [isSlot, lfibget_lfibput]
    exact (icoh_dir holds.icoh).spill (islot_some used loaded) apart isIndex
      (holds.unkeptIndex used (Or.inl isFree)) _ _
  · have isSlot : Lflcblk.dslot { s.lfltab minor with
        lfinum := n
        lfiblock := lfibclear (UInt32.ofNat (8192 * (q + 1)))
        lfibdirty := true
        lfdnum := lfDnull } = none := if_neg fun both => both.2 rfl
    rw [isSlot]
    exact dcoh_index (dcoh_dir (holds.dcoh.evict (dslot_clean walk.dclean))) (holds.sound.chain_index member) _
  · refine ⟨?_, fun _ => ?_, fun none_ => absurd rfl none_,
      fun none_ => absurd none_ (Geometry.index_ne_null isIndex), fun _ => walk.dclean, ?_,
      fun near => absurd walk.far (Nat.not_le.mpr near)⟩
    · rw [lfdNfiles_store (by decide) (by decide)]
      exact fileOk.entry
    · dsimp only
      rw [Function.update_self]
      exact List.mem_append_right _ List.mem_cons_self
    · dsimp only
      rw [ldSize_store (by unfold lfdFiles; lia) (by decide)]
      exact fileOk.position

theorem Stretched.trans {ispan jspan : Nat → Nat} {position : Nat} (first : Stretched iext ispan e position)
    (second : Stretched ispan jspan e position) : Stretched iext jspan e position := by
  obtain ⟨same, above, below⟩ := first
  obtain ⟨same', above', below'⟩ := second
  exact ⟨fun f apart => (same' f apart).trans (same f apart), above.trans above', by lia⟩

/-- Two stretches of a walk. -/
theorem Indexed.trans {middle after : System} {index last : UInt32 → Lfiblk} {later final : Layout}
    {ispan jspan : Nat → Nat} {p : Nat} (first : Indexed g s middle minor index db l later iext ispan dext q)
    (second : Indexed g middle after minor last db later final ispan jspan dext p) :
    Indexed g s after minor last db l final iext jspan dext p := by
  have stretched := second.stretched
  have dir := second.dir
  have ifree := second.ifree
  rw [first.kept.entry, first.kept.position] at stretched dir ifree
  rw [first.blocks] at dir
  refine ⟨second.holds, second.walk, first.kept.trans second.kept, second.blocks.trans first.blocks,
    second.dfree.trans first.dfree, ?_, first.stretched.trans stretched, fun safe => ?_⟩
  · rcases first.ifree with same | covered
    · rw [← same]
      exact ifree
    · exact Or.inr (covered.trans_le stretched.2.1)
  · rcases first.dir safe with still | missing
    · exact dir still
    · exact Or.inr missing

/-- A turn of the loop: the next index block is fetched, or it is made at the end of the file. -/
theorem Holds.nextIblock (holds : Holds g s ib db l iext dext) (walk : Walk s minor l q)
    (ahead : 8192 * (q + 1) ≤ (s.lfltab minor).lfpos.toNat)
    (bound : (s.lfltab minor).lfpos.toNat ≤ iext (s.lfltab minor).lfdirptr) :
    (l.ifree = [] ∧ iext (s.lfltab minor).lfdirptr % 8192 = 0 ∧
      (s.lfltab minor).lfpos.toNat = iext (s.lfltab minor).lfdirptr ∧
      nextIblock s minor = .error .panic) ∨
    ∃ after index later ispan, nextIblock s minor = .ok after ∧
      Indexed g s after minor index db l later iext ispan dext (q + 1) := by
  have used := walk.used
  have iclean := walk.iclean ahead
  have long := holds.sound.long (s.lfltab minor).lfdirptr
  have below : q < (l.chain (s.lfltab minor).lfdirptr).length := (List.getElem?_eq_some_iff.mp walk.here).1
  have block := holds.iblock walk
  have next : (s.lfltab minor).lfiblock.ibNext =
      (l.chain (s.lfltab minor).lfdirptr)[q + 1]?.getD lfInull := by
    rw [block]
    rfl
  have offset : (s.lfltab minor).lfiblock.ibOffset = UInt32.ofNat (8192 * q) := by
    rw [block]
    rfl
  rcases Nat.lt_or_ge (q + 1) (l.chain (s.lfltab minor).lfdirptr).length with inside | atEnd
  · have here := List.getElem?_eq_getElem inside
    have real := Geometry.index_ne_null (holds.sound.chain_index (List.getElem_mem inside))
    rw [here, Option.getD_some] at next
    refine Or.inr ⟨_, _, _, _, ?_, holds.fetchWalk used iclean walk.dclean walk.far here ahead (Or.inr rfl)⟩
    unfold LocalFiles.nextIblock
    dsimp only
    rw [next, if_neg real]
  · have isLast : (l.chain (s.lfltab minor).lfdirptr).length = q + 1 := by lia
    have isNull : (s.lfltab minor).lfiblock.ibNext = lfInull := by
      rw [next, List.getElem?_eq_none atEnd]
      rfl
    have full : iext (s.lfltab minor).lfdirptr = 8192 * (q + 1) := by lia
    rcases holds.lfiballoc with ⟨empty, fails⟩ | ⟨n, rest, free, allocated⟩
    · refine Or.inl ⟨empty, by lia, by lia, ?_⟩
      unfold LocalFiles.nextIblock
      dsimp only
      rw [if_pos isNull, fails]
      rfl
    · have after := holds.nextAlloc walk isLast full free
      have sum : UInt32.ofNat (8192 * q) + lfIdata = UInt32.ofNat (8192 * (q + 1)) := by
        rw [Nat.mul_succ, UInt32.ofNat_add]
        rfl
      refine Or.inr ⟨_, _, _, _, ?_, after, ?_, ?_, rfl, rfl, Or.inr ?_, ⟨fun f apart => ?_, ?_, ?_⟩,
        fun _ => Or.inl ?_⟩
      · unfold LocalFiles.nextIblock
        dsimp only
        rw [if_pos isNull, allocated, offset, sum]
        rfl
      · refine ⟨?_, ?_, ?_, ?_, ?_, fun behind => ?_⟩ <;> dsimp only at * <;> rw [Function.update_self] at *
        · exact used
        · rw [Function.update_self, ← isLast, List.getElem?_concat_length]
        · exact ahead
        · exact walk.dclean
        · exact walk.far
        · dsimp only at behind
          lia
      · have kept := @kept_setFile s minor { s.lfltab minor with
          lfinum := n
          lfiblock := lfibclear (UInt32.ofNat (8192 * (q + 1)))
          lfibdirty := true
          lfdnum := lfDnull } s.disk s.lfDirdirty s.fresh rfl
        refine ⟨fun f => ?_, ?_, fun f k small => ?_, kept.others, kept.used, kept.entry, kept.position,
          kept.lfname⟩
        · exact ldSize_store (by unfold lfdFiles; omega) (by decide)
        · exact lfdNfiles_store (by decide) (by decide)
        · exact name_store (Or.inl (by decide)) (by decide) f k small
      · rw [Function.update_self]
        lia
      · exact Function.update_of_ne apart _ _
      · rw [Function.update_self]
        lia
      · rw [Function.update_self]
        lia
      · refine Or.inr (Or.inr ?_)
        dsimp only
        rw [lfibput_of_ne (Geometry.sect_pos _).symm, Function.update_self]

/-- The loop ends at the index block of the position. -/
theorem Holds.setupLoop (turns : Nat) : ∀ {s : System} {ib : UInt32 → Lfiblk} {l : Layout} {iext : Nat → Nat}
    {q : Nat}, Holds g s ib db l iext dext → Walk s minor l q →
    (s.lfltab minor).lfpos.toNat ≤ iext (s.lfltab minor).lfdirptr →
    (s.lfltab minor).lfpos.toNat / 8192 < q + turns →
    (l.ifree = [] ∧ iext (s.lfltab minor).lfdirptr % 8192 = 0 ∧
      (s.lfltab minor).lfpos.toNat = iext (s.lfltab minor).lfdirptr ∧
      setupLoop minor turns s = .error .panic) ∨
    ∃ after index later ispan, setupLoop minor turns s = .ok after ∧
      Indexed g s after minor index db l later iext ispan dext ((s.lfltab minor).lfpos.toNat / 8192) := by
  induction turns with
  | zero =>
    intro s ib l iext q _ walk _ enough
    have before := walk.before
    omega
  | succ turns inductionHypothesis =>
    intro s ib l iext q holds walk bound enough
    have before := walk.before
    have range := (s.lfltab minor).lfpos.toNat_lt
    have offset : (s.lfltab minor).lfiblock.ibOffset.toNat = 8192 * q := by
      rw [holds.iblock walk]
      exact Nat.mod_eq_of_lt (show 8192 * q < 2 ^ 32 by lia)
    have continues : (s.lfltab minor).lfpos &&& ~~~lfImask > (s.lfltab minor).lfiblock.ibOffset ↔
        8192 * (q + 1) ≤ (s.lfltab minor).lfpos.toNat := by
      rw [gt_iff_lt, UInt32.lt_iff_toNat_lt, offset, toNat_and_not_imask]
      lia
    by_cases ahead : 8192 * (q + 1) ≤ (s.lfltab minor).lfpos.toNat
    · rcases holds.nextIblock walk ahead bound with ⟨empty, whole, atEnd, fails⟩ |
        ⟨middle, index, later, ispan, moved, reached⟩
      · refine Or.inl ⟨empty, whole, atEnd, ?_⟩
        unfold LocalFiles.setupLoop
        rw [if_pos (continues.mpr ahead), fails]
        rfl
      · have unfolded : LocalFiles.setupLoop minor (turns + 1) s = LocalFiles.setupLoop minor turns middle := by
          rw [LocalFiles.setupLoop, if_pos (continues.mpr ahead), moved]
          rfl
        have grows := reached.stretched
        obtain ⟨_, above, below⟩ := grows
        have rest := inductionHypothesis reached.holds reached.walk
          (by rw [reached.kept.entry, reached.kept.position]; lia) (by rw [reached.kept.position]; lia)
        rw [reached.kept.entry, reached.kept.position] at rest
        rcases rest with ⟨empty, whole, atEnd, fails⟩ | ⟨after, last, final, jspan, done, arrived⟩
        · rcases reached.ifree with same | covered
          · exact Or.inl ⟨same ▸ empty, by lia, by lia, unfolded.trans fails⟩
          · omega
        · exact Or.inr ⟨after, last, final, jspan, unfolded.trans done, reached.trans arrived⟩
    · have isHere : (s.lfltab minor).lfpos.toNat / 8192 = q := by lia
      refine Or.inr ⟨s, ib, l, iext, ?_, holds, ?_, Kept.refl s minor, rfl, rfl, Or.inl rfl,
        stretched_refl _ _ _, Or.inl⟩
      · rw [LocalFiles.setupLoop, if_neg fun more => ahead (continues.mp more)]
      · rw [isHere]
        exact walk

end Walks

end Xinu.LocalFiles
