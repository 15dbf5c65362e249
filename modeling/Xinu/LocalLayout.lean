import Xinu.LocalBlocks
import Xinu.Partitions

/-!
# The layout of the local file system

What the blocks of the file system mean, apart from where their current copies are kept: a function from
numbers to index blocks, another one to data blocks, and a directory. The layout tells which blocks are
free and which of them belong to which file, in order. Every index block and every data block stands in
exactly one place of the layout.

The index blocks of a file cover as many bytes as its extent, and so do its data blocks. The two extents
differ from the size only inside of a call that appends a byte.
-/

namespace Xinu.LocalFiles

open CIntegers WordMemory Partitions

/-- The sectors of index blocks and all sectors of a disk whose size in bytes is a 32-bit word. -/
structure Geometry where
  index : Nat
  sectors : Nat
  someIndex : 0 < index
  room : index + 1 < sectors
  small : sectors < 2 ^ 23

/-- Numbers of index blocks and of data blocks. -/
def Geometry.IsIndex (g : Geometry) (ib : UInt32) : Prop := ib.toNat < 7 * g.index

def Geometry.IsData (g : Geometry) (db : UInt32) : Prop := g.index < db.toNat ∧ db.toNat < g.sectors

/-- Pointers lead from a number through a list to another number. -/
def Path (next : UInt32 → UInt32) : UInt32 → List UInt32 → UInt32 → Prop
  | first, [], last => first = last
  | first, n :: rest, last => first = n ∧ Path next (next n) rest last

/-- The free blocks, and the index blocks and data blocks of the entries. -/
structure Layout where
  ifree : List UInt32
  dfree : List UInt32
  chain : Nat → List UInt32
  blocks : Nat → List UInt32

/-- The index blocks and the data blocks by place: free, or of an entry. -/
def Layout.iplaces (l : Layout) : Option Nat → List UInt32
  | none => l.ifree
  | some entry => l.chain entry

def Layout.dplaces (l : Layout) : Option Nat → List UInt32
  | none => l.dfree
  | some entry => l.blocks entry

/-- The index block at a place of a chain. -/
def node (chain blocks : List UInt32) (q : Nat) : Lfiblk :=
  ⟨chain[q + 1]?.getD lfInull, UInt32.ofNat (8192 * q), fun r => blocks[16 * q + r]?.getD lfDnull⟩

/-- The blocks and the directory have a layout. -/
structure Sound (g : Geometry) (ib : UInt32 → Lfiblk) (db : UInt32 → Memory) (dir : Memory) (l : Layout)
    (iext dext : Nat → Nat) : Prop where
  files : lfdNfiles dir ≤ lfNumDirEnt
  ipath : Path (fun n => (ib n).ibNext) (lfdIfree dir) l.ifree lfInull
  dpath : Path (fun d => load (db d) 0) (lfdDfree dir) l.dfree lfDnull
  first : ∀ e < lfdNfiles dir, ldIlist dir e = (l.chain e).head?.getD lfInull
  nodes : ∀ e q n, (l.chain e)[q]? = some n → ib n = node (l.chain e) (l.blocks e) q
  long : ∀ e, (l.chain e).length = (iext e + 8191) / 8192
  wide : ∀ e, (l.blocks e).length = (dext e + 511) / 512
  inside : ∀ e, dext e ≤ iext e
  beyond : ∀ e, lfdNfiles dir ≤ e → iext e = 0
  iparts : Divided g.IsIndex l.iplaces
  dparts : Divided g.IsData l.dplaces

section Words

variable {dir : Memory} {place e : Nat} {w : UInt32}

/-- A word of the directory is stored at another place. -/
theorem load_store_word {o : Nat} (apart : o ≠ place) (aligned : 4 ∣ o) (here : 4 ∣ place) :
    load (store dir place w) o = load dir o := load_store_apart (by lia)

theorem lfdDfree_store (apart : place ≠ 0) (aligned : 4 ∣ place) : lfdDfree (store dir place w) = lfdDfree dir :=
  load_store_word apart.symm (by decide) aligned

theorem lfdIfree_store (apart : place ≠ 4) (aligned : 4 ∣ place) : lfdIfree (store dir place w) = lfdIfree dir :=
  load_store_word apart.symm (by decide) aligned

theorem lfdNfiles_store (apart : place ≠ 8) (aligned : 4 ∣ place) :
    lfdNfiles (store dir place w) = lfdNfiles dir :=
  congrArg UInt32.toNat (load_store_word apart.symm (by decide) aligned)

theorem ldSize_store (apart : place ≠ lfdFiles e) (aligned : 4 ∣ place) :
    ldSize (store dir place w) e = ldSize dir e :=
  load_store_word apart.symm (by unfold lfdFiles; omega) aligned

theorem ldIlist_store (apart : place ≠ lfdFiles e + 4) (aligned : 4 ∣ place) :
    ldIlist (store dir place w) e = ldIlist dir e :=
  load_store_word apart.symm (by unfold lfdFiles; omega) aligned

end Words

section Paths

variable {next other : UInt32 → UInt32} {first last middle : UInt32} {front back path : List UInt32}

theorem Path.congr (linked : Path next first path last) (same : ∀ n ∈ path, other n = next n) :
    Path other first path last := by
  induction path generalizing first with
  | nil => exact linked
  | cons n rest inductionHypothesis =>
    obtain ⟨isFirst, linked⟩ := linked
    refine ⟨isFirst, ?_⟩
    rw [same n List.mem_cons_self]
    exact inductionHypothesis linked fun m member => same m (List.mem_cons_of_mem n member)

theorem Path.append (linked : Path next first front middle) (rest : Path next middle back last) :
    Path next first (front ++ back) last := by
  induction front generalizing first with
  | nil =>
    obtain rfl : first = middle := linked
    exact rest
  | cons n front inductionHypothesis => exact ⟨linked.1, inductionHypothesis linked.2⟩

/-- Where each pointer of a path leads. -/
theorem path_of_getElem (start : first = path.head?.getD last)
    (links : ∀ q n, path[q]? = some n → next n = path[q + 1]?.getD last) : Path next first path last := by
  induction path generalizing first with
  | nil => exact start
  | cons n rest inductionHypothesis =>
    refine ⟨start, inductionHypothesis ?_ fun q m isHere => ?_⟩
    · have here := links 0 n rfl
      rw [here]
      cases rest <;> rfl
    · exact links (q + 1) m isHere

end Paths

section Facts

variable {g : Geometry} {ib : UInt32 → Lfiblk} {db : UInt32 → Memory} {dir : Memory} {l : Layout}
  {iext dext : Nat → Nat} {e : Nat} {n : UInt32}

theorem Geometry.index_ne_null (isIndex : g.IsIndex n) : n ≠ lfInull := by
  rintro rfl
  have small := g.small
  have room := g.room
  have value : lfInull.toNat = 4294967295 := rfl
  unfold Geometry.IsIndex at isIndex
  lia

theorem Geometry.data_ne_null (isData : g.IsData n) : n ≠ lfDnull := by
  rintro rfl
  have small := g.small
  have value : lfDnull.toNat = 4294967295 := rfl
  unfold Geometry.IsData at isData
  lia

theorem Sound.chain_index (sound : Sound g ib db dir l iext dext) (member : n ∈ l.chain e) : g.IsIndex n :=
  (sound.iparts.covers n).mpr ⟨some e, member⟩

theorem Sound.ifree_index (sound : Sound g ib db dir l iext dext) (member : n ∈ l.ifree) : g.IsIndex n :=
  (sound.iparts.covers n).mpr ⟨none, member⟩

theorem Sound.blocks_data (sound : Sound g ib db dir l iext dext) (member : n ∈ l.blocks e) : g.IsData n :=
  (sound.dparts.covers n).mpr ⟨some e, member⟩

theorem Sound.dfree_data (sound : Sound g ib db dir l iext dext) (member : n ∈ l.dfree) : g.IsData n :=
  (sound.dparts.covers n).mpr ⟨none, member⟩

/-- A list of numbers below a bound without repetitions. -/
theorem length_le_of_toNat_lt {list : List UInt32} {bound : Nat} (distinct : list.Nodup)
    (below : ∀ n ∈ list, n.toNat < bound) : list.length ≤ bound := by
  have mapped : (list.map UInt32.toNat).Nodup := distinct.map fun _ _ same => UInt32.toNat_inj.mp same
  have subset : list.map UInt32.toNat ⊆ List.range bound := by
    intro value member
    obtain ⟨n, inside, rfl⟩ := List.mem_map.mp member
    exact List.mem_range.mpr (below n inside)
  have shorter := (List.Nodup.subperm mapped subset).length_le
  rwa [List.length_map, List.length_range] at shorter

/-- A file never outgrows the positions. -/
theorem Sound.blocks_lt (sound : Sound g ib db dir l iext dext) (e : Nat) :
    (l.blocks e).length + 1 < 2 ^ 23 := by
  have distinct := sound.dparts.distinct (some e)
  have small := g.small
  have below : ((0 : UInt32) :: l.blocks e).length ≤ g.sectors := by
    refine length_le_of_toNat_lt (List.nodup_cons.mpr ⟨fun member => ?_, distinct⟩) fun n member => ?_
    · have isData := sound.blocks_data member
      exact absurd isData.1 (Nat.not_lt_zero _)
    · rcases List.mem_cons.mp member with rfl | member
      · have room := g.room
        have zero : (0 : UInt32).toNat = 0 := rfl
        lia
      · exact (sound.blocks_data member).2
  rw [List.length_cons] at below
  lia

end Facts

section Changes

variable {g : Geometry} {ib later : UInt32 → Lfiblk} {db written : UInt32 → Memory} {dir after : Memory}
  {l : Layout} {iext dext : Nat → Nat} {e : Nat} {n d m : UInt32} {rest : List UInt32}

/-- The words of the directory that the layout depends on. -/
structure SameHeads (dir after : Memory) : Prop where
  nfiles : lfdNfiles after = lfdNfiles dir
  dfree : lfdDfree after = lfdDfree dir
  ifree : lfdIfree after = lfdIfree dir
  ilist : ∀ e, ldIlist after e = ldIlist dir e

/-- Contents of files and sizes may change. -/
theorem Sound.congr (sound : Sound g ib db dir l iext dext) (same : SameHeads dir after)
    (links : ∀ d ∈ l.dfree, written d = db d) : Sound g ib written after l iext dext := by
  refine ⟨?_, ?_, ?_, fun e inFiles => ?_, sound.nodes, sound.long, sound.wide, sound.inside, fun e outside => ?_,
    sound.iparts, sound.dparts⟩
  · exact same.nfiles ▸ sound.files
  · rw [same.ifree]
    exact sound.ipath
  · rw [same.dfree]
    exact sound.dpath.congr fun d member => by rw [links d member]
  · rw [same.nfiles] at inFiles
    rw [same.ilist]
    exact sound.first e inFiles
  · exact sound.beyond e (same.nfiles ▸ outside)

/-- The chain of an entry and the free index blocks share no number. -/
theorem Sound.free_not_chain (sound : Sound g ib db dir l iext dext) (isFree : n ∈ l.ifree) : n ∉ l.chain e := by
  intro member
  cases sound.iparts.apart none (some e) n isFree member

theorem Sound.free_not_block (sound : Sound g ib db dir l iext dext) (isFree : d ∈ l.dfree) : d ∉ l.blocks e := by
  intro member
  cases sound.dparts.apart none (some e) d isFree member

theorem Sound.chain_apart (sound : Sound g ib db dir l iext dext) {other : Nat} (member : n ∈ l.chain e)
    (elsewhere : n ∈ l.chain other) : e = other :=
  Option.some.inj (sound.iparts.apart (some e) (some other) n member elsewhere)

theorem Sound.blocks_apart (sound : Sound g ib db dir l iext dext) {other : Nat} (member : d ∈ l.blocks e)
    (elsewhere : d ∈ l.blocks other) : e = other :=
  Option.some.inj (sound.dparts.apart (some e) (some other) d member elsewhere)

/-- A chain gets a cleared index block at its end. -/
theorem node_append {chain blocks : List UInt32} {q : Nat} (here : chain[q]? = some m) :
    node (chain ++ [n]) blocks q =
      if q + 1 = chain.length then { node chain blocks q with ibNext := n } else node chain blocks q := by
  have below : q < chain.length := (List.getElem?_eq_some_iff.mp here).1
  unfold node
  split
  case isTrue isLast =>
    rw [isLast, List.getElem?_concat_length]
    rfl
  case isFalse notLast =>
    rw [List.getElem?_append_left (by lia)]

theorem node_last {chain blocks : List UInt32} (few : blocks.length ≤ 16 * chain.length) :
    node (chain ++ [n]) blocks chain.length = lfibclear (UInt32.ofNat (8192 * chain.length)) := by
  unfold node lfibclear
  have end_ : (chain ++ [n])[chain.length + 1]? = none := by
    rw [List.getElem?_eq_none_iff, List.length_append]
    rfl
  rw [end_]
  refine congrArg _ (funext fun r => ?_)
  rw [List.getElem?_eq_none (by lia)]
  rfl

/-- A free index block comes to the end of a chain that is full. -/
theorem Sound.attachIndex (sound : Sound g ib db dir l iext dext) (inFiles : e < lfdNfiles dir)
    (free : l.ifree = n :: rest) (full : iext e = 8192 * (l.chain e).length)
    (cleared : later n = lfibclear (UInt32.ofNat (8192 * (l.chain e).length)))
    (linked : ∀ m, (l.chain e).getLast? = some m → later m = { ib m with ibNext := n })
    (others : ∀ m, m ≠ n → (l.chain e).getLast? ≠ some m → later m = ib m)
    (nfiles : lfdNfiles after = lfdNfiles dir) (dfree : lfdDfree after = lfdDfree dir)
    (ifree : lfdIfree after = (ib n).ibNext)
    (ilist : ∀ f, ldIlist after f = if f = e ∧ l.chain e = [] then n else ldIlist dir f) :
    Sound g later db after
      { l with ifree := rest, chain := Function.update l.chain e (l.chain e ++ [n]) }
      (Function.update iext e (iext e + 1)) dext := by
  have isFree : n ∈ l.ifree := free ▸ List.mem_cons_self
  have distinct := sound.iparts.distinct none
  have notInRest : n ∉ rest := by
    have whole : l.ifree.Nodup := distinct
    rw [free] at whole
    exact (List.nodup_cons.mp whole).1
  have restFree : ∀ m ∈ rest, m ∈ l.ifree := fun m member => free ▸ List.mem_cons_of_mem n member
  have notLast : ∀ m, m ∉ l.chain e → (l.chain e).getLast? ≠ some m := fun m outside isLast =>
    outside (List.mem_of_getLast? isLast)
  have few : (l.blocks e).length ≤ 16 * (l.chain e).length := by
    have wide := sound.wide e
    have inside := sound.inside e
    lia
  refine ⟨nfiles ▸ sound.files, ?_, ?_, fun f below => ?_, fun f q m here => ?_, fun f => ?_, sound.wide,
    fun f => ?_, fun f outside => ?_, ?_, sound.dparts⟩
  · rw [ifree]
    have path := sound.ipath
    rw [free] at path
    refine path.2.congr fun m member => ?_
    have apart : m ≠ n := fun same => notInRest (same ▸ member)
    rw [others m apart (notLast m (sound.free_not_chain (restFree m member)))]
  · rw [dfree]
    exact sound.dpath
  · rw [nfiles] at below
    rw [ilist]
    dsimp only
    rcases eq_or_ne f e with rfl | apart
    · rw [Function.update_self]
      cases chain : l.chain f with
      | nil => rw [if_pos ⟨rfl, rfl⟩]; rfl
      | cons start chain_ =>
        rw [if_neg (by simp), sound.first f below, chain]
        rfl
    · rw [Function.update_of_ne apart, if_neg fun both => apart both.1]
      exact sound.first f below
  · dsimp only at here ⊢
    rcases eq_or_ne f e with rfl | apart
    · rw [Function.update_self] at here ⊢
      rcases Nat.lt_or_ge q (l.chain f).length with below | above
      · rw [List.getElem?_append_left below] at here
        have member : m ∈ l.chain f := List.mem_of_getElem? here
        have notNew : m ≠ n := fun same => sound.free_not_chain isFree (same ▸ member)
        rw [node_append here, ← sound.nodes f q m here]
        have isLastIff : (l.chain f).getLast? = some m ↔ q + 1 = (l.chain f).length := by
          rw [List.getLast?_eq_getElem?]
          constructor
          · intro isLast
            have same := (List.getElem?_inj below (sound.iparts.distinct (some f))).mp
              (here.trans isLast.symm)
            lia
          · intro isLast
            have index : (l.chain f).length - 1 = q := by lia
            rw [index]
            exact here
        split
        case isTrue isLast => exact linked m (isLastIff.mpr isLast)
        case isFalse notEnd => exact others m notNew fun isLast => notEnd (isLastIff.mp isLast)
      · have isEnd : q = (l.chain f).length := by
          have below := (List.getElem?_eq_some_iff.mp here).1
          rw [List.length_append, List.length_singleton] at below
          lia
        rw [isEnd, List.getElem?_concat_length] at here
        cases here
        rw [isEnd, node_last few, cleared]
    · rw [Function.update_of_ne apart] at here ⊢
      have member : m ∈ l.chain f := List.mem_of_getElem? here
      have notNew : m ≠ n := fun same => sound.free_not_chain isFree (same ▸ member)
      rw [others m notNew (notLast m fun inside => apart (sound.chain_apart member inside))]
      exact sound.nodes f q m here
  · have long := sound.long f
    rcases eq_or_ne f e with rfl | apart
    · dsimp only
      rw [Function.update_self, Function.update_self, List.length_append, List.length_singleton]
      lia
    · dsimp only
      rw [Function.update_of_ne apart, Function.update_of_ne apart]
      exact long
  · have inside := sound.inside f
    rcases eq_or_ne f e with rfl | apart
    · rw [Function.update_self]
      lia
    · rw [Function.update_of_ne apart]
      exact inside
  · rw [nfiles] at outside
    rw [Function.update_of_ne (by lia)]
    exact sound.beyond f outside
  · refine sound.iparts.exchange (Option.some_ne_none e).symm ?_ fun k notFree notEntry => ?_
    · show (rest ++ Function.update l.chain e (l.chain e ++ [n]) e).Perm (l.ifree ++ l.chain e)
      rw [Function.update_self, free, ← List.append_assoc]
      exact (List.perm_append_singleton n (rest ++ l.chain e))
    · cases k with
      | none => exact absurd rfl notFree
      | some f => exact Function.update_of_ne (fun same => notEntry (congrArg some same)) _ _

/-- Pointers to data blocks after one more block. -/
theorem getElem?_concat_ne {blocks : List UInt32} {k : Nat} (apart : k ≠ blocks.length) :
    (blocks ++ [d])[k]? = blocks[k]? := by
  rcases Nat.lt_or_ge k blocks.length with below | above
  · exact List.getElem?_append_left below
  · rw [List.getElem?_eq_none_iff.mpr above, List.getElem?_eq_none_iff.mpr]
    rw [List.length_append, List.length_singleton]
    lia

/-- A free data block comes to the end of a file whose index blocks have room. -/
theorem Sound.attachData (sound : Sound g ib db dir l iext dext) (inFiles : e < lfdNfiles dir)
    (free : l.dfree = d :: rest) (full : dext e = 512 * (l.blocks e).length) (room : dext e < iext e)
    {r : Fin 16} (slot : r.val = (l.blocks e).length % 16)
    (here : (l.chain e)[(l.blocks e).length / 16]? = some m)
    (pointed : later = Function.update ib m { ib m with ibDba := Function.update (ib m).ibDba r d })
    (others : ∀ f, f ≠ d → written f = db f)
    (nfiles : lfdNfiles after = lfdNfiles dir) (ifree : lfdIfree after = lfdIfree dir)
    (dfree : lfdDfree after = load (db d) 0) (ilist : ∀ f, ldIlist after f = ldIlist dir f) :
    Sound g later written after
      { l with dfree := rest, blocks := Function.update l.blocks e (l.blocks e ++ [d]) }
      iext (Function.update dext e (dext e + 1)) := by
  have isFree : d ∈ l.dfree := free ▸ List.mem_cons_self
  have notInRest : d ∉ rest := by
    have whole : l.dfree.Nodup := sound.dparts.distinct none
    rw [free] at whole
    exact (List.nodup_cons.mp whole).1
  have inChain : m ∈ l.chain e := List.mem_of_getElem? here
  refine ⟨nfiles ▸ sound.files, ?_, ?_, fun f below => ?_, fun f q k isHere => ?_, sound.long, fun f => ?_,
    fun f => ?_, fun f outside => sound.beyond f (nfiles ▸ outside), sound.iparts, ?_⟩
  · rw [ifree]
    refine sound.ipath.congr fun k member => ?_
    have apart : k ≠ m := fun same => sound.free_not_chain member (same ▸ inChain)
    rw [pointed, Function.update_of_ne apart]
  · rw [dfree]
    have path := sound.dpath
    rw [free] at path
    refine path.2.congr fun f member => ?_
    rw [others f fun same => notInRest (same ▸ member)]
  · rw [nfiles] at below
    rw [ilist]
    exact sound.first f below
  · dsimp only at isHere ⊢
    have before := sound.nodes f q k isHere
    rcases eq_or_ne f e with rfl | apart
    · rw [Function.update_self, pointed]
      rcases eq_or_ne k m with rfl | away
      · have isPlace : q = (l.blocks f).length / 16 :=
          (List.getElem?_inj (List.getElem?_eq_some_iff.mp isHere).1 (sound.iparts.distinct (some f))).mp
            (isHere.trans here.symm)
        rw [Function.update_self, before]
        unfold node
        refine congrArg _ (funext fun i => ?_)
        rcases eq_or_ne i r with rfl | another
        · have index : 16 * q + i.val = (l.blocks f).length := by lia
          rw [Function.update_self, index, List.getElem?_concat_length]
          rfl
        · have values : i.val ≠ r.val := fun same => another (Fin.ext same)
          rw [Function.update_of_ne another, getElem?_concat_ne (by lia)]
      · have notPlace : q ≠ (l.blocks f).length / 16 := by
          rintro rfl
          exact away (Option.some.inj (isHere.symm.trans here))
        rw [Function.update_of_ne away, before]
        unfold node
        refine congrArg _ (funext fun i => ?_)
        rw [getElem?_concat_ne (by lia)]
    · have member : k ∈ l.chain f := List.mem_of_getElem? isHere
      have away : k ≠ m := fun same => apart (sound.chain_apart member (same ▸ inChain))
      rw [Function.update_of_ne apart, pointed, Function.update_of_ne away]
      exact before
  · have wide := sound.wide f
    dsimp only
    rcases eq_or_ne f e with rfl | apart
    · rw [Function.update_self, Function.update_self, List.length_append, List.length_singleton]
      lia
    · rw [Function.update_of_ne apart, Function.update_of_ne apart]
      exact wide
  · have inside := sound.inside f
    rcases eq_or_ne f e with rfl | apart
    · rw [Function.update_self]
      lia
    · rw [Function.update_of_ne apart]
      exact inside
  · refine sound.dparts.exchange (Option.some_ne_none e).symm ?_ fun k notFree notEntry => ?_
    · show (rest ++ Function.update l.blocks e (l.blocks e ++ [d]) e).Perm (l.dfree ++ l.blocks e)
      rw [Function.update_self, free, ← List.append_assoc]
      exact List.perm_append_singleton d (rest ++ l.blocks e)
    · cases k with
      | none => exact absurd rfl notFree
      | some f => exact Function.update_of_ne (fun same => notEntry (congrArg some same)) _ _

/-- All blocks of a file become free. -/
theorem Sound.truncated (sound : Sound g ib db dir l iext dext) (inFiles : e < lfdNfiles dir)
    (spliced : Path (fun n => (later n).ibNext) (ldIlist dir e) (l.chain e) (lfdIfree dir))
    (ikept : ∀ n, n ∉ l.chain e → later n = ib n)
    (dlinked : Path (fun d => load (written d) 0) (lfdDfree after) ((l.blocks e).reverse ++ l.dfree) lfDnull)
    (nfiles : lfdNfiles after = lfdNfiles dir) (ifree : lfdIfree after = ldIlist dir e)
    (ilist : ∀ f, ldIlist after f = if f = e then lfInull else ldIlist dir f) :
    Sound g later written after
      { ifree := l.chain e ++ l.ifree
        dfree := (l.blocks e).reverse ++ l.dfree
        chain := Function.update l.chain e []
        blocks := Function.update l.blocks e [] }
      (Function.update iext e 0) (Function.update dext e 0) := by
  refine ⟨nfiles ▸ sound.files, ?_, dlinked, fun f below => ?_, fun f q n here => ?_, fun f => ?_, fun f => ?_,
    fun f => ?_, fun f outside => ?_, ?_, ?_⟩
  · rw [ifree]
    exact spliced.append (sound.ipath.congr fun n member => by
      rw [ikept n (sound.free_not_chain member)])
  · rw [nfiles] at below
    rw [ilist]
    dsimp only
    rcases eq_or_ne f e with rfl | apart
    · rw [if_pos rfl, Function.update_self]
      rfl
    · rw [if_neg apart, Function.update_of_ne apart]
      exact sound.first f below
  · dsimp only at here ⊢
    rcases eq_or_ne f e with rfl | apart
    · rw [Function.update_self] at here
      cases here
    · rw [Function.update_of_ne apart] at here ⊢
      rw [Function.update_of_ne apart, ikept n fun inside =>
        apart (sound.chain_apart (List.mem_of_getElem? here) inside)]
      exact sound.nodes f q n here
  · dsimp only
    rcases eq_or_ne f e with rfl | apart
    · rw [Function.update_self, Function.update_self]
      rfl
    · rw [Function.update_of_ne apart, Function.update_of_ne apart]
      exact sound.long f
  · dsimp only
    rcases eq_or_ne f e with rfl | apart
    · rw [Function.update_self, Function.update_self]
      rfl
    · rw [Function.update_of_ne apart, Function.update_of_ne apart]
      exact sound.wide f
  · rcases eq_or_ne f e with rfl | apart
    · rw [Function.update_self, Function.update_self]
    · rw [Function.update_of_ne apart, Function.update_of_ne apart]
      exact sound.inside f
  · rw [nfiles] at outside
    rw [Function.update_of_ne (by lia)]
    exact sound.beyond f outside
  · refine sound.iparts.exchange (Option.some_ne_none e).symm ?_ fun k notFree notEntry => ?_
    · show (l.chain e ++ l.ifree ++ Function.update l.chain e [] e).Perm (l.ifree ++ l.chain e)
      rw [Function.update_self, List.append_nil]
      exact List.perm_append_comm
    · cases k with
      | none => exact absurd rfl notFree
      | some f => exact Function.update_of_ne (fun same => notEntry (congrArg some same)) _ _
  · refine sound.dparts.exchange (Option.some_ne_none e).symm ?_ fun k notFree notEntry => ?_
    · show ((l.blocks e).reverse ++ l.dfree ++ Function.update l.blocks e [] e).Perm (l.dfree ++ l.blocks e)
      rw [Function.update_self, List.append_nil]
      exact ((List.reverse_perm _).append_right _).trans List.perm_append_comm
    · cases k with
      | none => exact absurd rfl notFree
      | some f => exact Function.update_of_ne (fun same => notEntry (congrArg some same)) _ _

/-- An empty file is added to the directory. -/
theorem Sound.added (sound : Sound g ib db dir l iext dext) (room : lfdNfiles dir < lfNumDirEnt)
    (nfiles : lfdNfiles after = lfdNfiles dir + 1) (dfree : lfdDfree after = lfdDfree dir)
    (ifree : lfdIfree after = lfdIfree dir)
    (ilist : ∀ f, ldIlist after f = if f = lfdNfiles dir then lfInull else ldIlist dir f) :
    Sound g ib db after l iext dext := by
  refine ⟨by lia, ?_, ?_, fun f below => ?_, sound.nodes, sound.long, sound.wide, sound.inside,
    fun f outside => sound.beyond f (by lia), sound.iparts, sound.dparts⟩
  · rw [ifree]
    exact sound.ipath
  · rw [dfree]
    exact sound.dpath
  · rw [ilist]
    split
    case isTrue isNew =>
      have long := sound.long f
      rw [sound.beyond f (by lia)] at long
      rw [List.length_eq_zero_iff.mp long]
      rfl
    case isFalse notNew => exact sound.first f (by lia)

end Changes

end Xinu.LocalFiles
