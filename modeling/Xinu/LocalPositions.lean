import Xinu.LocalSetup

/-!
# The data block of a position

The last part of `lfsetup` brings the data block into memory. Inside of the file it is fetched. At the end
of the file, where the last data block is full, one is allocated. The buffer of an allocated block is filled
and not yet marked as changed: `lflputc` marks it when it stores its character.
-/

namespace Xinu.LocalFiles

open CIntegers WordMemory WriteBack

/-- The data block of an open file is marked as changed. -/
def System.touch (s : System) (minor : Nat) : System :=
  s.setFile minor { s.lfltab minor with lfdbdirty := true }

section Data

variable {g : Geometry} {s : System} {ib : UInt32 → Lfiblk} {db : UInt32 → Memory} {l : Layout}
  {iext dext ispan dspan : Nat → Nat} {minor e q : Nat} {n d : UInt32}

/-- The pointer to the data block of a position. -/
theorem dba_at (chain blocks : List UInt32) (position : UInt32) :
    (node chain blocks (position.toNat / 8192)).ibDba (pointerIndex ((position &&& lfImask) >>> 9).toNat) =
      blocks[position.toNat / 512]?.getD lfDnull := by
  have index : 16 * (position.toNat / 8192) + position.toNat % 8192 / 512 % 16 = position.toNat / 512 := by lia
  show blocks[16 * (position.toNat / 8192) + ((position &&& lfImask) >>> 9).toNat % 16]?.getD lfDnull = _
  rw [toNat_dindex, index]

/-- Extents matter only through the numbers of blocks. -/
theorem Holds.relabel (holds : Holds g s ib db l iext dext)
    (long : ∀ f, (ispan f + 8191) / 8192 = (iext f + 8191) / 8192)
    (wide : ∀ f, (dspan f + 511) / 512 = (dext f + 511) / 512) (inside : ∀ f, dspan f ≤ ispan f) :
    Holds g s ib db l ispan dspan := by
  refine ⟨holds.present, ⟨holds.sound.files, holds.sound.ipath, holds.sound.dpath, holds.sound.first,
    holds.sound.nodes, fun f => ?_, fun f => ?_, inside, fun f outside => ?_, holds.sound.iparts,
    holds.sound.dparts⟩, holds.icoh, holds.dcoh, holds.file, holds.alone⟩
  · rw [long]
    exact holds.sound.long f
  · rw [wide]
    exact holds.sound.wide f
  · have same := long f
    rw [holds.sound.beyond f outside] at same
    lia

/-- A block that is kept may be marked as changed. -/
theorem Holds.touch (holds : Holds g s ib db l iext dext) (used : (s.lfltab minor).lfused = true)
    (loaded : (s.lfltab minor).lfdnum ≠ lfDnull) : Holds g (s.touch minor) ib db l iext dext := by
  have fileOk := (holds.file minor used).2
  have isHeld := dslot_some used loaded
  obtain ⟨_, value, _⟩ := holds.dcoh.cached minor _ isHeld
  unfold System.touch System.setFile
  rw [holds.present]
  refine holds.replaceFile used rfl holds.sound rfl (fun _ _ => rfl) (fun _ _ => rfl) (fun _ _ => rfl) ?_ ?_
    ⟨fileOk.entry, fileOk.iown, fileOk.down, fileOk.itidy, fun none_ => absurd none_ loaded, fileOk.position,
      fileOk.byte⟩
  · have isSlot : Lflcblk.islot { s.lfltab minor with lfdbdirty := true } = (s.lfltab minor).islot := rfl
    rw [isSlot, Function.update_eq_self]
    exact holds.icoh
  · have isSlot : Lflcblk.dslot { s.lfltab minor with lfdbdirty := true } =
        some ⟨(s.lfltab minor).lfdnum, (s.lfltab minor).lfdblock, true⟩ := if_pos ⟨used, loaded⟩
    have changed := holds.dcoh.modify isHeld (s.lfltab minor).lfdblock
    have same : Function.update db (s.lfltab minor).lfdnum (s.lfltab minor).lfdblock = db := by
      rw [Function.update_eq_self_iff]
      exact value
    rw [isSlot, ← same]
    exact changed

/-- The data block of a position inside of the file. -/
theorem Holds.setDblock_inside (holds : Holds g s ib db l iext dext)
    (walk : Walk s minor l ((s.lfltab minor).lfpos.toNat / 8192))
    (here : (l.blocks (s.lfltab minor).lfdirptr)[(s.lfltab minor).lfpos.toNat / 512]? = some d) :
    ∃ after, setDblock s minor = .ok after ∧ Holds g after ib db l iext dext ∧ Kept s after minor ∧
      (after.lfltab minor).lfbyte < lfBlksiz ∧ (DirSafe s → DirSafe after) := by
  have used := walk.used
  have fileOk := (holds.file minor used).2
  have member := List.mem_of_getElem? here
  have isData := holds.sound.blocks_data member
  have real := Geometry.data_ne_null isData
  have pointer : (s.lfltab minor).lfiblock.ibDba
      (pointerIndex (((s.lfltab minor).lfpos &&& lfImask) >>> 9).toNat) = d := by
    rw [holds.iblock walk, dba_at, here]
    rfl
  have byte : ((s.lfltab minor).lfpos &&& lfDmask).toNat = (s.lfltab minor).lfpos.toNat % 512 := toNat_and_dmask _
  have small : (s.lfltab minor).lfpos.toNat % 512 < lfBlksiz := Nat.mod_lt _ (by decide)
  by_cases same : d = (s.lfltab minor).lfdnum
  · refine ⟨s.setFile minor { s.lfltab minor with lfdnum := d, lfbyte := (s.lfltab minor).lfpos.toNat % 512 },
      ?_, ?_, ?_, ?_, id⟩
    · unfold setDblock
      dsimp only
      rw [pointer, if_neg real, if_neg (not_not.mpr same), byte]
    · unfold System.setFile
      rw [holds.present]
      refine holds.replaceFile used rfl holds.sound rfl (fun _ _ => rfl) (fun _ _ => rfl) (fun _ _ => rfl) ?_ ?_
        ⟨fileOk.entry, fileOk.iown, fun _ => member, fileOk.itidy, fun none_ => absurd none_ real, fileOk.position,
          fun _ => ⟨rfl, here⟩⟩
      · have isSlot : Lflcblk.islot { s.lfltab minor with
            lfdnum := d, lfbyte := (s.lfltab minor).lfpos.toNat % 512 } = (s.lfltab minor).islot := rfl
        rw [isSlot, Function.update_eq_self]
        exact holds.icoh
      · have isSlot : Lflcblk.dslot { s.lfltab minor with
            lfdnum := d, lfbyte := (s.lfltab minor).lfpos.toNat % 512 } = (s.lfltab minor).dslot := by
          rw [same]
          rfl
        rw [isSlot, Function.update_eq_self]
        exact holds.dcoh
    · unfold System.setFile
      rw [holds.present]
      exact kept_setFile rfl
    · rw [setFile_self]
      exact small
  · refine ⟨s.setFile minor { s.lfltab minor with
        lfdblock := s.disk d.toNat
        lfdbdirty := false
        lfdnum := d
        lfbyte := (s.lfltab minor).lfpos.toNat % 512 }, ?_, ?_, ?_, ?_, id⟩
    · unfold setDblock
      dsimp only
      rw [pointer, if_neg real, if_pos same, byte]
    · obtain ⟨_, dcoh⟩ := holds.dcoh.fetch (dslot_clean walk.dclean) isData (holds.unkeptData used (Or.inr member))
      unfold System.setFile
      rw [holds.present]
      refine holds.replaceFile used rfl holds.sound rfl (fun _ _ => rfl) (fun _ _ => rfl) (fun _ _ => rfl) ?_ ?_
        ⟨fileOk.entry, fileOk.iown, fun _ => member, fileOk.itidy, fun none_ => absurd none_ real, fileOk.position,
          fun _ => ⟨rfl, here⟩⟩
      · have isSlot : Lflcblk.islot { s.lfltab minor with
            lfdblock := s.disk d.toNat
            lfdbdirty := false
            lfdnum := d
            lfbyte := (s.lfltab minor).lfpos.toNat % 512 } = (s.lfltab minor).islot := rfl
        rw [isSlot, Function.update_eq_self]
        exact holds.icoh
      · have isSlot : Lflcblk.dslot { s.lfltab minor with
            lfdblock := s.disk d.toNat
            lfdbdirty := false
            lfdnum := d
            lfbyte := (s.lfltab minor).lfpos.toNat % 512 } = some ⟨d, s.disk d.toNat, false⟩ :=
          if_pos ⟨used, real⟩
        rw [isSlot]
        exact dcoh
    · unfold System.setFile
      rw [holds.present]
      exact kept_setFile rfl
    · rw [setFile_self]
      exact small

/-- The control block of a file that was given a data block. -/
def Lflcblk.extended (file : Lflcblk) (d : UInt32) (dbuff : Memory) : Lflcblk :=
  let dindex := pointerIndex ((file.lfpos &&& lfImask) >>> 9).toNat
  { file with
    lfiblock := { file.lfiblock with ibDba := Function.update file.lfiblock.ibDba dindex d }
    lfibdirty := true
    lfdblock := dbuff
    lfdnum := d
    lfbyte := (file.lfpos &&& lfDmask).toNat }

/-- A data block is made at the end of the file. -/
theorem Holds.dataAlloc (holds : Holds g s ib db l iext dext)
    (walk : Walk s minor l ((s.lfltab minor).lfpos.toNat / 8192))
    (atEnd : (s.lfltab minor).lfpos.toNat = 512 * (l.blocks (s.lfltab minor).lfdirptr).length)
    (full : dext (s.lfltab minor).lfdirptr = (s.lfltab minor).lfpos.toNat)
    (room : dext (s.lfltab minor).lfdirptr < iext (s.lfltab minor).lfdirptr)
    {rest : List UInt32} (free : l.dfree = d :: rest) (dbuff : Memory) {dirdirty fresh : Bool} :
    Holds g ⟨Function.update s.disk lfAreaDir (store s.lfDir 0 (load (db d) 0)),
        store s.lfDir 0 (load (db d) 0), true, dirdirty,
        Function.update s.lfltab minor { (s.lfltab minor).extended d dbuff with lfdbdirty := true }, fresh⟩
      (Function.update ib (s.lfltab minor).lfinum ((s.lfltab minor).extended d dbuff).lfiblock)
      (Function.update db d dbuff)
      { l with
        dfree := rest
        blocks := Function.update l.blocks (s.lfltab minor).lfdirptr (l.blocks (s.lfltab minor).lfdirptr ++ [d]) }
      iext (Function.update dext (s.lfltab minor).lfdirptr (dext (s.lfltab minor).lfdirptr + 1)) := by
  have used := walk.used
  have fileOk := (holds.file minor used).2
  have isFree : d ∈ l.dfree := free ▸ List.mem_cons_self
  have isData := holds.sound.dfree_data isFree
  have real := Geometry.data_ne_null isData
  have inChain := List.mem_of_getElem? walk.here
  have loaded := Geometry.index_ne_null (holds.sound.chain_index inChain)
  obtain ⟨_, value, _⟩ := holds.icoh.cached minor _ (islot_some used loaded)
  have sound : Sound g (Function.update ib (s.lfltab minor).lfinum ((s.lfltab minor).extended d dbuff).lfiblock)
      (Function.update db d dbuff) (store s.lfDir 0 (load (db d) 0))
      { l with
        dfree := rest
        blocks := Function.update l.blocks (s.lfltab minor).lfdirptr (l.blocks (s.lfltab minor).lfdirptr ++ [d]) }
      iext (Function.update dext (s.lfltab minor).lfdirptr (dext (s.lfltab minor).lfdirptr + 1)) := by
    have slot : (pointerIndex (((s.lfltab minor).lfpos &&& lfImask) >>> 9).toNat).val =
        (l.blocks (s.lfltab minor).lfdirptr).length % 16 := by
      show (((s.lfltab minor).lfpos &&& lfImask) >>> 9).toNat % 16 = _
      rw [toNat_dindex]
      lia
    have here : (l.chain (s.lfltab minor).lfdirptr)[(l.blocks (s.lfltab minor).lfdirptr).length / 16]? =
        some (s.lfltab minor).lfinum := by
      have place : (l.blocks (s.lfltab minor).lfdirptr).length / 16 = (s.lfltab minor).lfpos.toNat / 8192 := by lia
      rw [place]
      exact walk.here
    refine holds.sound.attachData fileOk.entry free (full.trans atEnd) room slot here ?_
      (fun f apart => Function.update_of_ne apart _ _) ?_ ?_ ?_ (fun f => ?_)
    · unfold Lflcblk.extended
      dsimp only
      rw [← value]
    · exact lfdNfiles_store (by decide) (by decide)
    · exact lfdIfree_store (by decide) (by decide)
    · exact load_store_same
    · exact ldIlist_store (by unfold lfdFiles; lia) (by decide)
  refine holds.replaceFile used rfl sound ?_ (fun f apart => ?_) (fun _ _ => rfl)
    (fun f apart => Function.update_of_ne apart _ _) ?_ ?_ ?_
  · exact lfdNfiles_store (by decide) (by decide)
  · exact ldSize_store (by unfold lfdFiles; lia) (by decide)
  · have isSlot : Lflcblk.islot { (s.lfltab minor).extended d dbuff with lfdbdirty := true } =
        some ⟨(s.lfltab minor).lfinum, ((s.lfltab minor).extended d dbuff).lfiblock, true⟩ :=
      if_pos ⟨used, loaded⟩
    rw [isSlot]
    exact icoh_dir (holds.icoh.modify (islot_some used loaded) _)
  · have isSlot : Lflcblk.dslot { (s.lfltab minor).extended d dbuff with lfdbdirty := true } =
        some ⟨d, dbuff, true⟩ := if_pos ⟨used, real⟩
    rw [isSlot]
    refine dcoh_dir (holds.dcoh.create (fun c kept => ⟨dslot_clean walk.dclean c kept, ?_⟩) isData
      (holds.unkeptData used (Or.inl isFree)) _)
    exact (holds.freeData isFree).1 minor c kept
  · refine ⟨?_, fileOk.iown, fun _ => ?_, fun none_ => absurd none_ loaded, fun none_ => absurd none_ real, ?_,
      fun _ => ⟨toNat_and_dmask _, ?_⟩⟩
    · rw [lfdNfiles_store (by decide) (by decide)]
      exact fileOk.entry
    · show d ∈ Function.update l.blocks (s.lfltab minor).lfdirptr _ (s.lfltab minor).lfdirptr
      rw [Function.update_self]
      exact List.mem_append_right _ List.mem_cons_self
    · rw [ldSize_store (by unfold lfdFiles; lia) (by decide)]
      exact fileOk.position
    · show (Function.update l.blocks (s.lfltab minor).lfdirptr (l.blocks (s.lfltab minor).lfdirptr ++ [d])
        (s.lfltab minor).lfdirptr)[(s.lfltab minor).lfpos.toNat / 512]? = some d
      have place : (s.lfltab minor).lfpos.toNat / 512 = (l.blocks (s.lfltab minor).lfdirptr).length := by lia
      rw [Function.update_self, place, List.getElem?_concat_length]

/-- The data block of a position at the end of the file, behind full data blocks. -/
theorem Holds.setDblock_end (holds : Holds g s ib db l iext dext)
    (walk : Walk s minor l ((s.lfltab minor).lfpos.toNat / 8192))
    (atEnd : (s.lfltab minor).lfpos.toNat = 512 * (l.blocks (s.lfltab minor).lfdirptr).length)
    (full : dext (s.lfltab minor).lfdirptr = (s.lfltab minor).lfpos.toNat)
    (room : dext (s.lfltab minor).lfdirptr < iext (s.lfltab minor).lfdirptr) :
    (l.dfree = [] ∧ setDblock s minor = .error .panic) ∨
    ∃ after index data later, setDblock s minor = .ok after ∧
      Holds g (after.touch minor) index data later iext
        (Function.update dext (s.lfltab minor).lfdirptr (dext (s.lfltab minor).lfdirptr + 1)) ∧
      Kept s after minor ∧ Grown db data l later (s.lfltab minor).lfdirptr ∧
      (after.lfltab minor).lfbyte < lfBlksiz ∧ DirSafe after := by
  have beyond : (l.blocks (s.lfltab minor).lfdirptr)[(s.lfltab minor).lfpos.toNat / 512]? = none :=
    List.getElem?_eq_none (by omega)
  have pointer : (s.lfltab minor).lfiblock.ibDba
      (pointerIndex (((s.lfltab minor).lfpos &&& lfImask) >>> 9).toNat) = lfDnull := by
    rw [holds.iblock walk, dba_at, beyond]
    rfl
  rcases holds.lfdballoc with ⟨empty, fails⟩ | ⟨d, rest, free, allocated⟩
  · refine Or.inl ⟨empty, ?_⟩
    unfold setDblock
    dsimp only
    rw [pointer, if_pos rfl, fails]
    rfl
  · have isFree : d ∈ l.dfree := free ▸ List.mem_cons_self
    have after := @Holds.dataAlloc g s ib db l iext dext minor d holds walk atEnd full room rest free
      (copy (db d) 0 (fun _ => dfill) lfBlksiz) false false
    refine Or.inr ⟨⟨Function.update s.disk lfAreaDir (store s.lfDir 0 (load (db d) 0)),
      store s.lfDir 0 (load (db d) 0), true, false, Function.update s.lfltab minor
        ((s.lfltab minor).extended d (copy (db d) 0 (fun _ => dfill) lfBlksiz)), false⟩,
      Function.update ib (s.lfltab minor).lfinum
        ((s.lfltab minor).extended d (copy (db d) 0 (fun _ => dfill) lfBlksiz)).lfiblock,
      Function.update db d (copy (db d) 0 (fun _ => dfill) lfBlksiz),
      { l with
        dfree := rest
        blocks := Function.update l.blocks (s.lfltab minor).lfdirptr (l.blocks (s.lfltab minor).lfdirptr ++ [d]) },
      ?_, ?_, ?_, ⟨fun f apart => Function.update_of_ne apart _ _, ?_, fun f d' member => ?_⟩, ?_,
      Or.inr (Or.inr ?_)⟩
    · unfold setDblock
      dsimp only
      rw [pointer, if_pos rfl, allocated]
      rfl
    · unfold System.touch System.setFile
      dsimp only
      rw [Function.update_self, Function.update_idem]
      exact after
    · have kept := @kept_setFile s minor ((s.lfltab minor).extended d (copy (db d) 0 (fun _ => dfill) lfBlksiz))
        s.disk s.lfDirdirty s.fresh rfl
      refine ⟨fun f => ?_, ?_, fun f k small => ?_, kept.others, kept.used, kept.entry, kept.position,
        kept.lfname⟩
      · exact ldSize_store (by unfold lfdFiles; omega) (by decide)
      · exact lfdNfiles_store (by decide) (by decide)
      · exact name_store (Or.inl (by decide)) (by decide) f k small
    · dsimp only
      rw [Function.update_self]
      exact List.prefix_append _ _
    · have apart : d' ≠ d := fun same => holds.sound.free_not_block isFree (same ▸ member)
      exact Function.update_of_ne apart _ _
    · dsimp only
      rw [Function.update_self]
      show ((s.lfltab minor).lfpos &&& lfDmask).toNat < lfBlksiz
      rw [toNat_and_dmask]
      exact Nat.mod_lt _ (by decide)
    · dsimp only
      rw [Function.update_self]

/-- A position becomes part of a file. -/
def covering (ext : Nat → Nat) (e position : Nat) : Nat → Nat :=
  Function.update ext e (max (ext e) (position + 1))

/-- `lfsetup` brings the block of the position into memory, or stops at the end of the file because it needs
a block and none is free. -/
theorem Holds.lfsetup {ext : Nat → Nat} (holds : Holds g s ib db l ext ext)
    (used : (s.lfltab minor).lfused = true) (isEntry : (s.lfltab minor).lfdirptr = e)
    (far : lfBlksiz ≤ (s.lfltab minor).lfbyte) (bound : (s.lfltab minor).lfpos.toNat ≤ ext e)
    (small : ext e < 2 ^ 32) :
    ((l.ifree = [] ∧ ext e % 8192 = 0 ∨ l.dfree = [] ∧ ext e % 512 = 0) ∧
      (s.lfltab minor).lfpos.toNat = ext e ∧ lfsetup s minor = .error .panic) ∨
    ∃ after index data later, lfsetup s minor = .ok after ∧
      Holds g (after.touch minor) index data later (covering ext e (s.lfltab minor).lfpos.toNat)
        (covering ext e (s.lfltab minor).lfpos.toNat) ∧
      ((s.lfltab minor).lfpos.toNat < ext e → Holds g after index data later
        (covering ext e (s.lfltab minor).lfpos.toNat) (covering ext e (s.lfltab minor).lfpos.toNat)) ∧
      Kept s after minor ∧ Grown db data l later e ∧ (after.lfltab minor).lfbyte < lfBlksiz ∧
      (DirSafe s → DirSafe after) := by
  subst isEntry
  obtain ⟨settled, keptSettled, _, isFlushed, safeSettled⟩ := holds.settled used rfl
  set flushed := if (s.lfltab minor).lfibdirty = true ∨ (s.lfltab minor).lfdbdirty = true then lfflush s minor
    else s with isSettled
  have unfolded : LocalFiles.lfsetup s minor = (do
      let t ← LocalFiles.firstIblock flushed minor
      let t ← LocalFiles.setupLoop minor ((s.lfltab minor).lfpos.toNat / 8192 + 1) t
      setDblock t minor) := rfl
  have isUsed : (flushed.lfltab minor).lfused = true := keptSettled.used.trans used
  have first := settled.firstIblock isUsed (by rw [isFlushed]; rfl) (by rw [isFlushed]; rfl)
    (by rw [isFlushed]; exact far) (by rw [isFlushed]; exact bound) (by rw [isFlushed]; exact small)
  rw [keptSettled.entry, keptSettled.position] at first
  rcases first with ⟨empty, whole, atEnd, fails⟩ | ⟨middle, index, later, ispan, q, moved, reached⟩
  · refine Or.inl ⟨Or.inl ⟨empty, whole⟩, atEnd, ?_⟩
    rw [unfolded, fails]
    rfl
  have kept := keptSettled.trans reached.kept
  have stretched := reached.stretched
  rw [keptSettled.entry, keptSettled.position] at stretched
  have loop := reached.holds.setupLoop ((s.lfltab minor).lfpos.toNat / 8192 + 1) reached.walk
    (by rw [kept.entry, kept.position]; exact bound.trans stretched.2.1) (by rw [kept.position]; lia)
  rw [kept.entry, kept.position] at loop
  rcases loop with ⟨empty, whole, atEnd, fails⟩ | ⟨walked, last, final, jspan, looped, arrived⟩
  · have same := reached.ifree
    rw [keptSettled.entry, keptSettled.position] at same
    rcases same with same | covered
    · have above := stretched.2.1
      refine Or.inl ⟨Or.inl ⟨same ▸ empty, by lia⟩, by lia, ?_⟩
      rw [unfolded, moved]
      show (LocalFiles.setupLoop _ _ middle >>= _) = _
      rw [fails]
      rfl
    · lia
  have whole := reached.trans arrived
  have keptWhole := keptSettled.trans whole.kept
  have span := whole.stretched
  have dir := whole.dir
  have walk := whole.walk
  rw [keptSettled.entry, keptSettled.position] at span dir
  rw [← keptWhole.position] at walk
  have computed : LocalFiles.lfsetup s minor = setDblock walked minor := by
    rw [unfolded, moved]
    show (LocalFiles.setupLoop _ _ middle >>= _) = _
    rw [looped]
    rfl
  have long := whole.holds.sound.long (s.lfltab minor).lfdirptr
  have wide := holds.sound.wide (s.lfltab minor).lfdirptr
  have reachedIndex : (s.lfltab minor).lfpos.toNat / 8192 < (final.chain (s.lfltab minor).lfdirptr).length := by
    have here := walk.here
    rw [keptWhole.entry, keptWhole.position] at here
    exact (List.getElem?_eq_some_iff.mp here).1
  obtain ⟨sameSpan, aboveSpan, belowSpan⟩ := span
  rw [computed]
  rcases Nat.lt_or_ge ((s.lfltab minor).lfpos.toNat / 512) (l.blocks (s.lfltab minor).lfdirptr).length with
    inside | outside
  · -- The file has the data block. The extents change their names only.
    have here : (final.blocks (walked.lfltab minor).lfdirptr)[(walked.lfltab minor).lfpos.toNat / 512]? =
        some (l.blocks (s.lfltab minor).lfdirptr)[(s.lfltab minor).lfpos.toNat / 512] := by
      rw [whole.blocks, keptWhole.entry, keptWhole.position]
      exact List.getElem?_eq_getElem inside
    obtain ⟨after, done, stays, keptAfter, near, safe⟩ := whole.holds.setDblock_inside walk here
    have named : Holds g after last db final (covering ext (s.lfltab minor).lfdirptr (s.lfltab minor).lfpos.toNat)
        (covering ext (s.lfltab minor).lfdirptr (s.lfltab minor).lfpos.toNat) := by
      refine stays.relabel (fun f => ?_) (fun f => ?_) (fun f => le_refl _) <;> unfold covering <;>
        rcases eq_or_ne f (s.lfltab minor).lfdirptr with rfl | apart
      · rw [Function.update_self]
        lia
      · rw [Function.update_of_ne apart, sameSpan f apart]
      · rw [Function.update_self]
        lia
      · rw [Function.update_of_ne apart]
    have keptAll := keptWhole.trans keptAfter
    have isUsed : (after.lfltab minor).lfused = true := keptAll.used.trans used
    have block := ((named.file minor isUsed).2.byte near).2
    have loaded := Geometry.data_ne_null (named.sound.blocks_data (List.mem_of_getElem? block))
    refine Or.inr ⟨after, last, db, final, done, named.touch isUsed loaded, fun _ => named, keptAll,
      ⟨fun f _ => by rw [whole.blocks], by rw [whole.blocks], fun _ _ _ => rfl⟩, near, fun isSafe => ?_⟩
    rcases dir (safeSettled isSafe) with still | missing
    · exact safe still
    · lia
  · -- The position is the end of a file whose data blocks are full.
    have atEnd : (s.lfltab minor).lfpos.toNat = ext (s.lfltab minor).lfdirptr := by lia
    have named : Holds g walked last db final
        (covering ext (s.lfltab minor).lfdirptr (s.lfltab minor).lfpos.toNat) ext := by
      refine whole.holds.relabel (fun f => ?_) (fun f => rfl) (fun f => ?_) <;> unfold covering <;>
        rcases eq_or_ne f (s.lfltab minor).lfdirptr with rfl | apart
      · rw [Function.update_self]
        lia
      · rw [Function.update_of_ne apart, sameSpan f apart]
      · rw [Function.update_self]
        exact le_max_left _ _
      · rw [Function.update_of_ne apart]
    have last' := named.setDblock_end walk (by rw [keptWhole.entry, keptWhole.position, whole.blocks]; lia)
      (by rw [keptWhole.entry, keptWhole.position, atEnd])
      (by rw [keptWhole.entry]; unfold covering; rw [Function.update_self]; omega)
    rw [keptWhole.entry] at last'
    rcases last' with ⟨empty, fails⟩ | ⟨after, index', data, later', done, stays, keptAfter, grown, near, safe⟩
    · exact Or.inl ⟨Or.inr ⟨whole.dfree ▸ empty, by lia⟩, atEnd, fails⟩
    · have sameExtent : Function.update ext (s.lfltab minor).lfdirptr (ext (s.lfltab minor).lfdirptr + 1) =
          covering ext (s.lfltab minor).lfdirptr (s.lfltab minor).lfpos.toNat := by
        unfold covering
        rw [atEnd, max_eq_right (Nat.le_succ _)]
      rw [sameExtent] at stays
      refine Or.inr ⟨after, index', data, later', done, stays, fun inFile => ?_, keptWhole.trans keptAfter,
        ⟨fun f apart => ?_, ?_, fun f d member => ?_⟩, near, fun _ => safe⟩
      · lia
      · rw [grown.elsewhere f apart, whole.blocks]
      · rw [← whole.blocks]
        exact grown.longer
      · exact grown.same f d (by rw [whole.blocks]; exact member)

end Data

end Xinu.LocalFiles
