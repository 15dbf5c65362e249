import Xinu.HeapRequests
import Xinu.PoolCreation
import Xinu.PortDelivery

/-!
# Creations that fail

`create` takes a stack and then an entry of the process table, `mkbufpool` takes memory and then a
semaphore, and `ptcreate` takes an entry of the port table and then two semaphores. Where the first
resource is missing they leave everything as it was. Where a later one is missing, `create` and
`mkbufpool` fail and keep the memory, and `ptcreate` does not look at what `semcreate` answers.

The calls share the heap and the semaphores, here those of the pools. Between two creations others
may take and give back memory, and may change the tables and the semaphores in any way.
-/

namespace Xinu.Creations

open HeapMemory Runs RingScan Intervals

/-- The tables, the heap and the semaphores. -/
structure System where
  pools : BufferPools.System
  processes : Processes.Kernel
  ports : Ports.System

inductive Call where
  | create (ssize : UInt32) (priority : Int16)
  | mkbufpool (bufsiz numbufs : Int32)
  | ptcreate (count : Int32)
deriving DecidableEq

/-- `SYSERR`, as what the calls return. -/
def syserr : Int := -1

/-- What the last call returned. -/
def answered (k : Processes.Kernel) : Int :=
  match k.log with
  | .returned _ value :: _ => value
  | _ => syserr

/-- `getstk`. A stack of no length is not in use. -/
def takeStack (k : HeapMemory.Kernel) (nbytes : Nat) : Option (Nat × HeapMemory.Kernel) := do
  let (pointer, heap) ← getstk k.heap nbytes
  some (pointer, if roundmb nbytes = 0 then { k with heap := heap } else k.granted .stack nbytes pointer heap)

/-- The ports with the semaphores of the system. -/
def System.sharedPorts (s : System) : Ports.System :=
  { s.ports with kernel := { s.ports.kernel with
    semtab := s.pools.kernel.semtab, nextsem := s.pools.kernel.nextsem } }

/-- The three calls. -/
def exec (s : System) : Call → Option (Int × System)
  | .create ssize priority => do
    let (pointer, heap) ← takeStack s.pools.heap (Processes.stackSize ssize).toNat
    let stack := if pointer = HeapMemory.syserr then none else some (UInt32.ofNat pointer)
    let processes := Processes.create s.processes ssize priority stack
    some (answered processes, { s with pools := { s.pools with heap := heap }, processes := processes })
  | .mkbufpool bufsiz numbufs => do
    let (poolid, pools) ← BufferPools.mkbufpool s.pools bufsiz numbufs
    some (poolid, { s with pools := pools })
  | .ptcreate count =>
    let (ptnum, ports) := Ports.ptcreate s.sharedPorts count
    some (ptnum, { s with ports := ports, pools := { s.pools with kernel := { s.pools.kernel with
      semtab := ports.kernel.semtab, nextsem := ports.kernel.nextsem } } })

/-- A creation, a call of the heap, and what else changes the tables and the semaphores. -/
inductive Move where
  | call (call : Call)
  | heap (call : HeapMemory.Call)
  | others (after : System)

def step (s : System) : Move → Option (Int × System)
  | .call call => exec s call
  | .heap call => (HeapMemory.step s.pools.heap call).map fun (reply, heap) =>
    ((reply : Int), { s with pools := { s.pools with heap := heap } })
  | .others after => some (0, after)

/-- The heap is used as it should be; the places at which the next semaphore and the next port are looked
for stay in their tables. -/
def Proper (s : System) : Move → Prop
  | .call _ => True
  | .heap call => Allowed s.pools.heap call
  | .others after => after.pools.heap = s.pools.heap ∧ (after.pools.kernel.nextsem : Int) < Processes.nsem ∧
    Ports.isbadport after.ports.ptnextid = false

/-- The system at boot. -/
structure Boots (s : System) (h : Heap) (first last : Nat) : Prop where
  heap : s.pools.heap = ⟨meminit h first last, []⟩
  nextsem : s.pools.kernel.nextsem = 0
  ptnextid : s.ports.ptnextid = 0

/-- A machine in which nothing was made yet. -/
def fresh (first last : Nat) : System where
  pools := BufferPools.boot ⟨meminit ⟨0, 0, 0, ⟨0, 0⟩, fun _ => ⟨0, 0⟩⟩ first last, []⟩ (fun _ => 0) fun _ => .free
  processes := Processes.boot
  ports := Ports.blank

theorem fresh_boots (first last : Nat) : Boots (fresh first last) ⟨0, 0, 0, ⟨0, 0⟩, fun _ => ⟨0, 0⟩⟩ first last :=
  ⟨rfl, rfl, rfl⟩

/-- The bytes of a pool. -/
def poolBytes (bufsiz numbufs : Int32) : Nat :=
  numbufs.toInt.toNat * (BufferPools.roundBuf bufsiz.toInt.toNat + 4)

/-- The arguments and the number of pools with which `mkbufpool` begins. -/
def Accepted (s : System) (bufsiz numbufs : Int32) : Prop :=
  ¬ (bufsiz.toInt < BufferPools.bpMinb ∨ BufferPools.bpMaxb < bufsiz.toInt ∨ numbufs.toInt < 1 ∨
    BufferPools.bpMaxn < numbufs.toInt ∨ BufferPools.maxPools ≤ s.pools.nbpools)

/-- A call cannot get one of its resources. -/
def Lacks (s : System) : Call → Prop
  | .create ssize priority =>
    (∃ heap, getstk s.pools.heap.heap (Processes.stackSize ssize).toNat = some (HeapMemory.syserr, heap)) ∨
      (Processes.newpid s.processes).1 = Processes.syserr ∨ priority.toInt < 1
  | .mkbufpool bufsiz numbufs => ¬ Accepted s bufsiz numbufs ∨
    (∃ heap, getmem s.pools.heap.heap (poolBytes bufsiz numbufs) = some (HeapMemory.syserr, heap)) ∨
      (Semaphores.semcreate s.pools.kernel numbufs.toInt.toNat).1 = Semaphores.syserr
  | .ptcreate count => count.toInt < 0 ∨
    (∀ portid, Ports.isbadport portid = false → (s.ports.porttab portid).ptstate ≠ .free) ∨
    (Semaphores.semcreate s.pools.kernel count.toInt).1 = Semaphores.syserr ∨
    (Semaphores.semcreate (Semaphores.semcreate s.pools.kernel count.toInt).2 0).1 = Semaphores.syserr

/-- Two heaps with the same free blocks. -/
structure SameBlocks (h after : Heap) : Prop where
  first : after.memlist.mnext = h.memlist.mnext
  total : word after.memlist.mlength = word h.memlist.mlength
  blocks : after.cells = h.cells

/-- The free blocks, the tables and the free semaphores are the same. The saved place of the process that
runs is not compared. -/
structure Unchanged (s t : System) : Prop where
  heap : SameBlocks s.pools.heap.heap t.pools.heap.heap
  proctab : ∀ pid, ∃ place, t.processes.proctab pid = { s.processes.proctab pid with prstkptr := place }
  prcount : t.processes.prcount = s.processes.prcount
  buftab : t.pools.buftab = s.pools.buftab ∧ t.pools.nbpools = s.pools.nbpools
  porttab : t.ports.porttab = s.ports.porttab
  semaphores : ∀ sem, (t.pools.kernel.semtab sem).sstate = (s.pools.kernel.semtab sem).sstate

/-- A call fails and leaves everything as it was. -/
def TakesNothing (s : System) (call : Call) : Prop := ∃ t, exec s call = some (syserr, t) ∧ Unchanged s t

/-- A free block is long enough. -/
def HasRoom (s : System) (nbytes : Nat) : Prop :=
  0 < nbytes ∧ nbytes ≤ 0xFFFFFFF8 ∧ ∃ block, s.pools.heap.Frees block ∧ nbytes ≤ block.length

def FreeSemaphore (s : System) (sem : Int) : Prop :=
  Processes.isbadsem sem = false ∧ (s.pools.kernel.semtab sem).sstate = .free

/-- A call gets its first resource and lacks a later one. -/
def Wasteful (s : System) : Call → Prop
  | .create ssize priority => HasRoom s (Processes.stackSize ssize).toNat ∧
    ((∀ pid < Processes.nproc.toNat, (s.processes.proctab pid).prstate ≠ .free) ∨ priority.toInt < 1)
  | .mkbufpool bufsiz numbufs => Accepted s bufsiz numbufs ∧ HasRoom s (poolBytes bufsiz numbufs) ∧
    ∀ sem, ¬ FreeSemaphore s sem
  | .ptcreate count => 0 ≤ count.toInt ∧
    (∃ portid, Ports.isbadport portid = false ∧ (s.ports.porttab portid).ptstate = .free) ∧
    ∀ first second, FreeSemaphore s first → FreeSemaphore s second → first = second

section Getters

variable {low high nbytes : Nat} {k : HeapMemory.Kernel}

/-- The loop of `newpid` scans the process table. -/
theorem newpidLoop_scan (turns : Nat) (k : Processes.Kernel) :
    (∃ nextpid, (Processes.newpidLoop turns k).2 = { k with nextpid := nextpid }) ∧
    ((Processes.newpidLoop turns k).1 = Processes.syserr ↔
      scan (fun pid => decide ((k.proctab pid).prstate = .free)) Processes.nproc.toNat turns k.nextpid = none) := by
  induction turns generalizing k with
  | zero => exact ⟨⟨k.nextpid, rfl⟩, iff_of_true rfl rfl⟩
  | succ turns inductionHypothesis =>
    unfold Processes.newpidLoop scan
    dsimp only
    by_cases isFree : (k.proctab (k.nextpid % Processes.nproc.toNat : Nat)).prstate = .free
    · rw [if_pos isFree, if_pos (decide_eq_true isFree)]
      refine ⟨⟨_, rfl⟩, iff_of_false (fun isError => ?_) (by simp)⟩
      have notError : ((k.nextpid % Processes.nproc.toNat : Nat) : Int) ≠ Processes.syserr := by
        unfold Processes.syserr
        lia
      exact notError isError
    · rw [if_neg isFree, if_neg fun here => isFree (of_decide_eq_true here)]
      obtain ⟨⟨nextpid, same⟩, failed⟩ :=
        inductionHypothesis { k with nextpid := k.nextpid % Processes.nproc.toNat + 1 }
      refine ⟨⟨nextpid, same⟩, failed.trans ?_⟩
      dsimp only
      rw [← scan_mod, Nat.mod_add_mod, scan_mod]

/-- `newpid` fails just when no entry is free. -/
theorem newpid_fails_iff (k : Processes.Kernel) : (Processes.newpid k).1 = Processes.syserr ↔
    ∀ pid < Processes.nproc.toNat, (k.proctab pid).prstate ≠ .free := by
  refine (newpidLoop_scan Processes.nproc.toNat k).2.trans ((scan_ring_none_iff (by decide)).trans ?_)
  simp only [decide_eq_false_iff_not, ne_eq]

/-- The loop of `newsem` scans the semaphores. -/
theorem newsemLoop_scan {π : Type} (turns : Nat) {k : Semaphores.Kernel π}
    (next : (k.nextsem : Int) < Processes.nsem) :
    (Semaphores.newsemLoop turns k).1 = Semaphores.syserr ↔
      scan (fun sem => decide ((k.semtab sem).sstate = .free)) Processes.nsem.toNat turns k.nextsem = none := by
  induction turns generalizing k with
  | zero => exact iff_of_true rfl rfl
  | succ turns inductionHypothesis =>
    have place : k.nextsem % Processes.nsem.toNat = k.nextsem := Nat.mod_eq_of_lt (by omega)
    have onward : (if Processes.nsem ≤ (k.nextsem + 1 : Nat) then 0 else k.nextsem + 1) =
        (k.nextsem + 1) % Processes.nsem.toNat := by
      rw [show Processes.nsem.toNat = 100 from rfl]
      rw [show Processes.nsem = 100 from rfl] at next ⊢
      split <;> lia
    unfold Semaphores.newsemLoop scan
    dsimp only
    rw [place]
    by_cases isFree : (k.semtab k.nextsem).sstate = .free
    · rw [if_pos isFree, if_pos (decide_eq_true isFree)]
      refine iff_of_false (fun isError => ?_) (by simp)
      have notError : (k.nextsem : Int) ≠ Semaphores.syserr := by
        unfold Semaphores.syserr
        lia
      exact notError isError
    · rw [if_neg isFree, if_neg fun here => isFree (of_decide_eq_true here), onward, ← scan_mod _ _ _ (k.nextsem + 1)]
      refine @inductionHypothesis { k with nextsem := (k.nextsem + 1) % Processes.nsem.toNat } ?_
      have := Nat.mod_lt (k.nextsem + 1) (show 0 < Processes.nsem.toNat by decide)
      dsimp only
      omega

/-- `semcreate` takes a free semaphore, or there is none. -/
theorem semcreate_takes {π : Type} {k : Semaphores.Kernel π} (next : (k.nextsem : Int) < Processes.nsem) {count : Int}
    (enough : 0 ≤ count) :
    ((Semaphores.semcreate k count).2.nextsem : Int) < Processes.nsem ∧
    ((Semaphores.semcreate k count).1 = Semaphores.syserr ∧
        (∀ sem, Processes.isbadsem sem = false → (k.semtab sem).sstate ≠ .free) ∧
        (Semaphores.semcreate k count).2.semtab = k.semtab ∨
      ∃ sem, (Semaphores.semcreate k count).1 = sem ∧ sem ≠ Semaphores.syserr ∧ Processes.isbadsem sem = false ∧
        (k.semtab sem).sstate = .free ∧ ∀ other,
          ((Semaphores.semcreate k count).2.semtab other).sstate = if other = sem then .used else (k.semtab other).sstate) := by
  obtain ⟨onward, _, ⟨failed, semtab⟩ | ⟨sem, found, inRange, isFree, semtab⟩⟩ :=
    Semaphores.newsemLoop_cases Processes.nsem.toNat next
  · have result : Semaphores.semcreate k count = (Semaphores.syserr, (Semaphores.newsem k).2) := by
      unfold Semaphores.semcreate
      rw [if_neg (by omega)]
      exact if_pos failed
    rw [result]
    refine ⟨onward, Or.inl ⟨rfl, fun sem good isFree => ?_, semtab⟩⟩
    have nowhere := (scan_ring_none_iff (by decide)).mp ((newsemLoop_scan Processes.nsem.toNat next).mp failed)
    have range : 0 ≤ sem ∧ sem < Processes.nsem := by
      unfold Processes.isbadsem at good
      have := of_decide_eq_false good
      lia
    have here := of_decide_eq_false (nowhere sem.toNat (by lia))
    rw [Int.toNat_of_nonneg range.1] at here
    exact here isFree
  · have notError : sem ≠ Semaphores.syserr := by
      rintro rfl
      cases inRange
    have result : Semaphores.semcreate k count = (sem, (Semaphores.newsem k).2.setSem sem
        { (Semaphores.newsem k).2.semtab sem with scount := count }) := by
      unfold Semaphores.semcreate
      rw [if_neg (by omega), ← found]
      exact if_neg (found ▸ notError)
    rw [result]
    refine ⟨onward, Or.inr ⟨sem, rfl, notError, inRange, isFree, fun other => ?_⟩⟩
    unfold Semaphores.Kernel.setSem Semaphores.newsem
    dsimp only
    rw [semtab]
    by_cases same : other = sem
    · rw [same, Function.update_self, Function.update_self, if_pos rfl]
    · rw [Function.update_of_ne same, Function.update_of_ne same, if_neg same]

/-- The free blocks do not depend on the number that counts their bytes. -/
theorem sameBlocks_setLength (h : Heap) {total : Nat} (same : word total = word h.memlist.mlength) :
    SameBlocks h (h.setLength .memlist total) ∧ (h.setLength .memlist total).minheap = h.minheap ∧
      (h.setLength .memlist total).maxheap = h.maxheap :=
  ⟨⟨rfl, same, rfl⟩, rfl, rfl⟩

theorem word_minus_zero (value : Nat) : word (minus value 0) = word value := by
  unfold word minus
  rw [Nat.sub_zero, Nat.add_mod_right, Nat.mod_mod]

/-- A stack whose size is rounded to zero is the end of a free block, from which nothing is taken. -/
theorem getstk_of_large (sound : k.Sound low high) (someHeap : low < high) (large : 0xFFFFFFF8 < nbytes)
    (word_ : nbytes < 2 ^ 32) (some_ : k.heap.memlist.mnext ≠ null) :
    ∃ pointer h, getstk k.heap nbytes = some (pointer, h) ∧ SameBlocks k.heap h ∧
      h.minheap = k.heap.minheap ∧ h.maxheap = k.heap.maxheap := by
  obtain ⟨blocks, heap⟩ := sound.heap
  have inList : ∃ block ∈ blocks, 0 ≤ block.length := by
    cases blocks with
    | nil => exact absurd heap.list some_
    | cons block rest => exact ⟨block, List.mem_cons_self, Nat.zero_le _⟩
  have reaches : k.heap.Reaches [] k.heap.memlist.mnext := rfl
  obtain ⟨front, block, back, rfl, _, found⟩ :=
    scan_finds 0 turns null (.block null) reaches heap.list heap.length_lt inList
  rw [lastPointer_nil] at found
  have regular := ((forall_mem_middle front back block).mp heap.regular).1
  have below := regular.below
  have positive := regular.positive someHeap
  have someAddress := heap.someAddress
  have inWord := heap.inWord
  have above := regular.above
  have length : (k.heap.cells block.start).mlength = block.length := heap.list.header.2
  have notNull : block.start ≠ null := by
    unfold null
    lia
  have same : k.heap.setLength (.block block.start) (minus (k.heap.cells block.start).mlength 0) = k.heap := by
    have kept : minus (k.heap.cells block.start).mlength 0 = (k.heap.cells block.start).mlength := by
      rw [length]
      unfold minus
      lia
    unfold Heap.setLength Heap.write Heap.read
    dsimp only
    rw [kept, Function.update_eq_self]
  unfold getstk
  rw [if_neg (by lia), roundmb_of_large large word_]
  simp only [found, Option.bind_eq_bind, Option.bind_some, if_neg notNull]
  unfold Heap.takeTop
  rw [if_neg (by lia)]
  dsimp only
  rw [same]
  unfold Heap.lessen
  exact ⟨_, _, rfl, sameBlocks_setLength k.heap (word_minus_zero _)⟩

/-- The same free blocks are as sound. -/
theorem sound_of_same (sound : k.Sound low high) {h : Heap} (same : SameBlocks k.heap h)
    (bounds : h.minheap = k.heap.minheap ∧ h.maxheap = k.heap.maxheap) :
    Kernel.Sound low high { k with heap := h } := by
  obtain ⟨blocks, heap⟩ := sound.heap
  refine ⟨⟨blocks, heap.someAddress, heap.inWord, bounds.1.trans heap.minheap, bounds.2.trans heap.maxheap, ?_,
    heap.separated, heap.regular, heap.tiles⟩, sound.grants⟩
  have list : Chain k.heap.cells k.heap.memlist.mnext blocks null := heap.list
  show Chain h.cells h.memlist.mnext blocks null
  rw [same.first, same.blocks]
  exact list

/-- A block that was handed out is missing among the free ones. -/
theorem not_same_of_handed {after : Kernel} {kind : Kind} {pointer : Nat} {block : Interval} (someBytes : 0 < nbytes)
    (handed : Handed k after kind nbytes pointer block) : ¬ SameBlocks k.heap after.heap := by
  intro same
  have lists : ∀ blocks, FreeList after.heap blocks ↔ FreeList k.heap blocks := by
    intro blocks
    show Chain after.heap.cells after.heap.memlist.mnext blocks null ↔ Chain k.heap.cells k.heap.memlist.mnext blocks null
    rw [same.first, same.blocks]
  have bytes : k.freeBytes = after.freeBytes := by
    unfold Kernel.freeBytes
    simp only [lists]
  have enough := handed.enough
  have inside : block.start ∈ block.points := ⟨le_refl _, Nat.lt_add_of_pos_right (by omega)⟩
  have free_ : block.start ∈ after.freeBytes := by
    rw [← bytes, handed.taken]
    exact Or.inr inside
  exact Set.disjoint_left.mp handed.removed free_ inside

/-- `getstk` takes a stack just when a free block is long enough. -/
theorem takeStack_cases (sound : k.Sound low high) (someHeap : low < high) (word_ : nbytes < 2 ^ 32) :
    ∃ pointer after h, takeStack k nbytes = some (pointer, after) ∧ getstk k.heap nbytes = some (pointer, h) ∧
      after.Sound low high ∧
      ((0 < nbytes ∧ nbytes ≤ 0xFFFFFFF8 ∧ ∃ block, k.Frees block ∧ nbytes ≤ block.length) ∧
          pointer ≠ HeapMemory.syserr ∧ ¬ SameBlocks k.heap after.heap ∨
        ¬ (0 < nbytes ∧ nbytes ≤ 0xFFFFFFF8 ∧ ∃ block, k.Frees block ∧ nbytes ≤ block.length) ∧
          SameBlocks k.heap after.heap) := by
  by_cases zero : nbytes = 0
  · have failed : getstk k.heap nbytes = some (HeapMemory.syserr, k.heap) := by
      unfold getstk
      exact if_pos zero
    refine ⟨_, k, _, ?_, failed, sound, Or.inr ⟨fun room => ?_, rfl, rfl, rfl⟩⟩
    · unfold takeStack
      rw [failed]
      simp only [Option.bind_eq_bind, Option.bind_some]
      rw [if_pos (by rw [zero]; decide)]
    · exact absurd room.1 (by omega)
  by_cases large : 0xFFFFFFF8 < nbytes
  · have noRoom : ¬ (0 < nbytes ∧ nbytes ≤ 0xFFFFFFF8 ∧ ∃ block, k.Frees block ∧ nbytes ≤ block.length) :=
      fun room => absurd room.2.1 (by lia)
    by_cases empty : k.heap.memlist.mnext = null
    · have taken := getstk_of_empty sound empty nbytes
      refine ⟨_, k, _, ?_, taken, sound, Or.inr ⟨noRoom, rfl, rfl, rfl⟩⟩
      unfold takeStack
      rw [taken]
      simp only [Option.bind_eq_bind, Option.bind_some]
      rw [if_pos (roundmb_of_large large word_)]
    · obtain ⟨pointer, h, taken, same, bounds⟩ := getstk_of_large sound someHeap large word_ empty
      refine ⟨pointer, { k with heap := h }, h, ?_, taken, sound_of_same sound same bounds, Or.inr ⟨noRoom, same⟩⟩
      unfold takeStack
      rw [taken]
      simp only [Option.bind_eq_bind, Option.bind_some]
      rw [if_pos (roundmb_of_large large word_)]
  · obtain ⟨pointer, after, completed, afterSound, honoured⟩ := getstk_honoured sound (Nat.le_of_not_lt large)
    replace completed : (getstk k.heap nbytes).map (fun (pointer, h) => (pointer, k.granted .stack nbytes pointer h)) =
        some (pointer, after) := completed
    obtain ⟨⟨other, h⟩, taken, result⟩ := Option.map_eq_some_iff.mp completed
    obtain rfl : other = pointer := congrArg Prod.fst result
    have isAfter : k.granted .stack nbytes other h = after := congrArg Prod.snd result
    have rounded := (roundmb_bounds (Nat.le_of_not_lt large)).1
    refine ⟨other, after, h, ?_, taken, afterSound, ?_⟩
    · unfold takeStack
      rw [taken]
      simp only [Option.bind_eq_bind, Option.bind_some, isAfter]
      rw [if_neg (by lia)]
    · by_cases granted : other = HeapMemory.syserr
      · refine Or.inr ⟨fun room => ?_, ?_⟩
        · exact absurd granted (honoured.granted.mpr ⟨room.1, room.2.2⟩)
        · rw [honoured.refused granted]
          exact ⟨rfl, rfl, rfl⟩
      · obtain ⟨someBytes, room⟩ := honoured.granted.mp granted
        obtain ⟨block, handed⟩ := honoured.handed granted
        exact Or.inl ⟨⟨someBytes, Nat.le_of_not_lt large, room⟩, granted, not_same_of_handed someBytes handed⟩

end Getters

/-- What holds between any two steps. -/
structure Sound (low high : Nat) (s : System) : Prop where
  heap : s.pools.heap.Sound low high
  nextsem : (s.pools.kernel.nextsem : Int) < Processes.nsem
  ptnextid : Ports.isbadport s.ports.ptnextid = false

/-- A call returns, keeps the invariant, and takes nothing in a failure unless it is wasteful. -/
def Settles (low high : Nat) (s : System) (call : Call) : Prop :=
  ∃ reply t, exec s call = some (reply, t) ∧ Sound low high t ∧
    ((Lacks s call → reply = syserr ∧ Unchanged s t) ↔ ¬ Wasteful s call)

section Calls

variable {low high : Nat} {s t : System}

/-- `create` answers `SYSERR` where it lacks something, and then changes no entry. -/
theorem create_fails (k : Processes.Kernel) (ssize : UInt32) (priority : Int16) (stack : Option UInt32)
    (fails : stack = none ∨ (Processes.newpid k).1 = Processes.syserr ∨ priority.toInt < 1) :
    answered (Processes.create k ssize priority stack) = syserr ∧
    (∀ pid, ∃ place, (Processes.create k ssize priority stack).proctab pid =
      { k.proctab pid with prstkptr := place }) ∧
    (Processes.create k ssize priority stack).prcount = k.prcount := by
  have goesOn : ∀ (other : Processes.Kernel) (pid : Int), ∃ place, (other.answer Processes.syserr).proctab pid =
      { other.proctab pid with prstkptr := place } := by
    intro other pid
    unfold Processes.Kernel.answer Processes.Kernel.goOnAt Processes.Kernel.setProc Processes.Kernel.note
    dsimp only
    by_cases same : pid = other.currpid
    · rw [same, Function.update_self]
      exact ⟨_, rfl⟩
    · rw [Function.update_of_ne same]
      exact ⟨_, rfl⟩
  obtain ⟨nextpid, newpid⟩ := (newpidLoop_scan Processes.nproc.toNat k).1
  cases stack with
  | none => exact ⟨rfl, goesOn k, rfl⟩
  | some saddr =>
    have missing : (Processes.newpid k).1 = Processes.syserr ∨ priority.toInt < 1 := fails.resolve_left (by simp)
    unfold Processes.create
    dsimp only
    rw [if_pos missing, show (Processes.newpid k).2 = { k with nextpid := nextpid } from newpid]
    exact ⟨rfl, goesOn _, rfl⟩

/-- `create`. -/
theorem Sound.create (sound : Sound low high s) (someHeap : low < high) (ssize : UInt32) (priority : Int16) :
    Settles low high s (.create ssize priority) := by
  obtain ⟨pointer, after, h, taken, getstk_, afterSound, cases_⟩ :=
    takeStack_cases sound.heap someHeap (Processes.stackSize ssize).toNat_lt
  have completed : exec s (.create ssize priority) = some (answered (Processes.create s.processes ssize priority
      (if pointer = HeapMemory.syserr then none else some (UInt32.ofNat pointer))), { s with
        pools := { s.pools with heap := after }
        processes := Processes.create s.processes ssize priority
          (if pointer = HeapMemory.syserr then none else some (UInt32.ofNat pointer)) }) := by
    unfold exec
    dsimp only
    rw [taken]
    rfl
  refine ⟨_, _, completed, ⟨afterSound, sound.nextsem, sound.ptnextid⟩, ?_⟩
  rcases cases_ with ⟨room, granted, changed⟩ | ⟨noRoom, same⟩
  · have lacks : Lacks s (.create ssize priority) ↔ Wasteful s (.create ssize priority) := by
      unfold Lacks Wasteful
      dsimp only
      rw [newpid_fails_iff]
      constructor
      · rintro (⟨heap, failed⟩ | missing)
        · cases getstk_.symm.trans failed
          exact absurd rfl granted
        · exact ⟨room, missing⟩
      · exact fun wasteful => Or.inr wasteful.2
    rw [lacks]
    exact ⟨fun takes wasteful => changed (takes wasteful).2.heap, fun notWasteful wasteful => absurd wasteful notWasteful⟩
  · refine iff_of_true (fun lacks => ?_) fun wasteful => noRoom wasteful.1
    have fails : (if pointer = HeapMemory.syserr then none else some (UInt32.ofNat pointer)) = none ∨
        (Processes.newpid s.processes).1 = Processes.syserr ∨ priority.toInt < 1 := by
      rcases lacks with ⟨heap, failed⟩ | missing
      · cases getstk_.symm.trans failed
        exact Or.inl (if_pos rfl)
      · exact Or.inr missing
    obtain ⟨isError, entries, count⟩ := create_fails s.processes ssize priority _ fails
    exact ⟨isError, same, entries, count, ⟨rfl, rfl⟩, rfl, fun _ => rfl⟩

/-- `mkbufpool` behind its `getmem`. -/
theorem exec_mkbufpool {bufsiz numbufs : Int32} (accepted : Accepted s bufsiz numbufs) {buf : Nat}
    {heap : HeapMemory.Kernel}
    (completed : HeapMemory.step s.pools.heap (.getmem (poolBytes bufsiz numbufs)) = some (buf, heap))
    {sem : Int} {kernel : Semaphores.Kernel BufferPools.Point}
    (created : Semaphores.semcreate s.pools.kernel numbufs.toInt.toNat = (sem, kernel)) :
    (buf = HeapMemory.syserr → exec s (.mkbufpool bufsiz numbufs) =
      some (syserr, { s with pools := { s.pools with heap := heap } })) ∧
    (buf ≠ HeapMemory.syserr → ∃ pools, exec s (.mkbufpool bufsiz numbufs) =
        some (if sem = Semaphores.syserr then syserr else s.pools.nbpools, { s with pools := pools }) ∧
      pools.heap = heap ∧ pools.kernel = kernel) := by
  unfold poolBytes at completed
  unfold exec BufferPools.mkbufpool
  dsimp only
  rw [if_neg accepted]
  simp only [completed, Option.bind_eq_bind, Option.bind_some, created]
  constructor
  · intro refused
    rw [if_pos refused]
    rfl
  · intro granted
    rw [if_neg granted]
    by_cases failed : sem = Semaphores.syserr
    · rw [if_pos failed, if_pos failed]
      exact ⟨_, rfl, rfl, rfl⟩
    · rw [if_neg failed, if_neg failed]
      exact ⟨_, rfl, rfl, rfl⟩

/-- The bytes of a pool are a word. -/
theorem poolBytes_bounds {bufsiz numbufs : Int32} (accepted : Accepted s bufsiz numbufs) :
    0 < poolBytes bufsiz numbufs ∧ poolBytes bufsiz numbufs ≤ 0xFFFFFFF8 := by
  have number : 1 ≤ numbufs.toInt ∧ numbufs.toInt ≤ 2048 := by
    unfold Accepted BufferPools.bpMaxn at accepted
    omega
  have small : bufsiz.toInt ≤ 8192 := by
    unfold Accepted BufferPools.bpMaxb at accepted
    omega
  have size : BufferPools.roundBuf bufsiz.toInt.toNat < bufsiz.toInt.toNat + 4 :=
    (BufferPools.roundBuf_bounds (by lia)).2.1
  unfold poolBytes
  refine ⟨Nat.mul_pos (by omega) (by lia), ?_⟩
  calc numbufs.toInt.toNat * (BufferPools.roundBuf bufsiz.toInt.toNat + 4)
      ≤ 2048 * 8200 := Nat.mul_le_mul (by lia) (by lia)
    _ ≤ 0xFFFFFFF8 := by decide

/-- `mkbufpool`. -/
theorem Sound.mkbufpool (sound : Sound low high s) (bufsiz numbufs : Int32) :
    Settles low high s (.mkbufpool bufsiz numbufs) := by
  by_cases accepted : Accepted s bufsiz numbufs
  · have bytes := poolBytes_bounds accepted
    obtain ⟨buf, heap, completed, heapSound, honoured⟩ := getmem_honoured sound.heap bytes.2
    have unhappy : (∃ h, getmem s.pools.heap.heap (poolBytes bufsiz numbufs) = some (HeapMemory.syserr, h)) →
        buf = HeapMemory.syserr := by
      rintro ⟨h, failed⟩
      obtain ⟨⟨pointer, _⟩, taken, same⟩ := Option.map_eq_some_iff.mp completed
      cases taken.symm.trans failed
      exact (Prod.mk.inj same).1.symm
    obtain ⟨sem, kernel, created⟩ : ∃ sem kernel,
        Semaphores.semcreate s.pools.kernel numbufs.toInt.toNat = (sem, kernel) := ⟨_, _, rfl⟩
    obtain ⟨whenRefused, whenGranted⟩ := exec_mkbufpool accepted completed created
    by_cases refused : buf = HeapMemory.syserr
    · have noRoom : ¬ HasRoom s (poolBytes bufsiz numbufs) :=
        fun room => absurd refused (honoured.granted.mpr ⟨room.1, room.2.2⟩)
      refine ⟨_, _, whenRefused refused, ⟨heapSound, sound.nextsem, sound.ptnextid⟩, ?_⟩
      refine iff_of_true (fun _ => ⟨rfl, ?_⟩) fun wasteful => noRoom wasteful.2.1
      rw [honoured.refused refused]
      exact ⟨⟨rfl, rfl, rfl⟩, fun pid => ⟨_, rfl⟩, rfl, ⟨rfl, rfl⟩, rfl, fun _ => rfl⟩
    · obtain ⟨block, handed⟩ := honoured.handed refused
      have room : HasRoom s (poolBytes bufsiz numbufs) := ⟨bytes.1, bytes.2, (honoured.granted.mp refused).2⟩
      have changed := not_same_of_handed bytes.1 handed
      obtain ⟨onward, takes⟩ := semcreate_takes sound.nextsem (Int.natCast_nonneg numbufs.toInt.toNat)
      obtain ⟨pools, result, rfl, rfl⟩ := whenGranted refused
      rw [created] at onward takes
      refine ⟨_, _, result, ⟨heapSound, onward, sound.ptnextid⟩, ?_⟩
      rcases takes with ⟨failed, nowhere, _⟩ | ⟨other, found, notError, good, isFree, _⟩
      · have wasteful : Wasteful s (.mkbufpool bufsiz numbufs) :=
          ⟨accepted, room, fun sem free => nowhere sem free.1 free.2⟩
        have lacks : Lacks s (.mkbufpool bufsiz numbufs) := Or.inr (Or.inr (created ▸ failed))
        exact ⟨fun takes => absurd (takes lacks).2.heap changed, fun notWasteful => absurd wasteful notWasteful⟩
      · refine iff_of_true (fun lacks => ?_) fun wasteful => wasteful.2.2 other ⟨good, isFree⟩
        rcases lacks with notAccepted | failed | failed
        · exact absurd accepted notAccepted
        · exact absurd (unhappy failed) refused
        · rw [created] at failed
          exact absurd (found.symm.trans failed) notError
  · have result : exec s (.mkbufpool bufsiz numbufs) = some (syserr, s) := by
      unfold exec BufferPools.mkbufpool
      dsimp only
      rw [if_pos (not_not.mp accepted)]
      rfl
    refine ⟨_, _, result, sound, iff_of_true (fun _ => ⟨rfl, ?_⟩) fun wasteful => accepted wasteful.1⟩
    exact ⟨⟨rfl, rfl, rfl⟩, fun pid => ⟨_, rfl⟩, rfl, ⟨rfl, rfl⟩, rfl, fun _ => rfl⟩

/-- Two semaphores are made just when two are free. -/
theorem two_semcreates {π : Type} {k : Semaphores.Kernel π} (next : (k.nextsem : Int) < Processes.nsem) {count : Int}
    (enough : 0 ≤ count) :
    ((Semaphores.semcreate (Semaphores.semcreate k count).2 0).2.nextsem : Int) < Processes.nsem ∧
    ((Semaphores.semcreate k count).1 = Semaphores.syserr ∨
        (Semaphores.semcreate (Semaphores.semcreate k count).2 0).1 = Semaphores.syserr ↔
      ∀ first second, (Processes.isbadsem first = false ∧ (k.semtab first).sstate = .free) →
        (Processes.isbadsem second = false ∧ (k.semtab second).sstate = .free) → first = second) := by
  obtain ⟨onward, takes⟩ := semcreate_takes next enough
  obtain ⟨last, takesNext⟩ := semcreate_takes onward (le_refl 0)
  refine ⟨last, ?_⟩
  rcases takes with ⟨failed, nowhere, _⟩ | ⟨sem, found, notError, good, isFree, states⟩
  · exact iff_of_true (Or.inl failed) fun first second isFirst => absurd isFirst.2 (nowhere first isFirst.1)
  · rcases takesNext with ⟨failed, nowhere, _⟩ | ⟨other, foundNext, notErrorNext, goodNext, isFreeNext, _⟩
    · have isSem : ∀ first, Processes.isbadsem first = false ∧ (k.semtab first).sstate = .free → first = sem := by
        intro first isFirst
        by_contra apart
        refine nowhere first isFirst.1 ?_
        rw [states first, if_neg apart]
        exact isFirst.2
      exact iff_of_true (Or.inr failed) fun first second isFirst isSecond =>
        (isSem first isFirst).trans (isSem second isSecond).symm
    · have apart : other ≠ sem := by
        rintro rfl
        rw [states other, if_pos rfl] at isFreeNext
        cases isFreeNext
      rw [states other, if_neg apart] at isFreeNext
      refine iff_of_false ?_ fun same => apart (same other sem ⟨goodNext, isFreeNext⟩ ⟨good, isFree⟩)
      rintro (failed | failed)
      · exact notError (found.symm.trans failed)
      · exact notErrorNext (foundNext.symm.trans failed)

/-- `ptcreate` with the semaphores of the system. -/
theorem exec_ptcreate {count : Int32} {ptnum : Int} {ports : Ports.System}
    (made : Ports.ptcreate s.sharedPorts count = (ptnum, ports)) :
    exec s (.ptcreate count) = some (ptnum, { s with
      ports := ports
      pools := { s.pools with kernel := { s.pools.kernel with
        semtab := ports.kernel.semtab, nextsem := ports.kernel.nextsem } } }) := by
  unfold exec
  dsimp only
  rw [made]

/-- `ptcreate`. -/
theorem Sound.ptcreate (sound : Sound low high s) (count : Int32) : Settles low high s (.ptcreate count) := by
  by_cases negative : count.toInt < 0
  · have result : Ports.ptcreate s.sharedPorts count = (Ports.syserr, s.sharedPorts) := if_pos negative
    refine ⟨_, _, exec_ptcreate result, ⟨sound.heap, sound.nextsem, sound.ptnextid⟩, ?_⟩
    refine iff_of_true (fun _ => ⟨rfl, ?_⟩) fun wasteful => absurd wasteful.1 (by omega)
    exact ⟨⟨rfl, rfl, rfl⟩, fun pid => ⟨_, rfl⟩, rfl, ⟨rfl, rfl⟩, rfl, fun _ => rfl⟩
  have enough : 0 ≤ count.toInt := by omega
  have unfolded : Ports.ptcreate s.sharedPorts count = Ports.ptcreateLoop count Ports.nports.toNat s.sharedPorts :=
    if_neg negative
  have next : Ports.isbadport s.sharedPorts.ptnextid = false := sound.ptnextid
  rcases Ports.ptcreateLoop_cases next count Ports.nports.toNat with
    ⟨nowhere, nextid, nextGood, result⟩ | ⟨ptnum, nextid, good, nextGood, isFree, result⟩
  · refine ⟨_, _, exec_ptcreate (unfolded.trans result), ⟨sound.heap, sound.nextsem, nextGood⟩, ?_⟩
    refine iff_of_true (fun _ => ⟨rfl, ?_⟩) ?_
    · exact ⟨⟨rfl, rfl, rfl⟩, fun pid => ⟨_, rfl⟩, rfl, ⟨rfl, rfl⟩, rfl, fun _ => rfl⟩
    · rintro ⟨_, ⟨portid, portGood, portFree⟩, _⟩
      have range : 0 ≤ portid ∧ portid < Ports.nports := by
        unfold Ports.isbadport at portGood
        have := of_decide_eq_false portGood
        omega
      have here := of_decide_eq_false ((scan_ring_none_iff (by decide)).mp nowhere portid.toNat (by lia))
      rw [Int.toNat_of_nonneg range.1] at here
      exact here portFree
  · have notError : ptnum ≠ syserr := by
      rintro rfl
      cases good
    obtain ⟨onward, _⟩ := @two_semcreates _ s.sharedPorts.kernel sound.nextsem _ enough
    obtain ⟨_, lacks⟩ := @two_semcreates _ s.pools.kernel sound.nextsem _ enough
    refine ⟨_, _, exec_ptcreate (unfolded.trans result), ⟨sound.heap, onward, nextGood⟩, ?_⟩
    · have same : Lacks s (.ptcreate count) ↔ Wasteful s (.ptcreate count) := by
        unfold Lacks Wasteful FreeSemaphore
        dsimp only
        rw [← lacks]
        constructor
        · rintro (isNegative | nowhere | failed)
          · exact absurd isNegative negative
          · exact absurd isFree (nowhere ptnum good)
          · exact ⟨enough, ⟨ptnum, good, isFree⟩, failed⟩
        · exact fun wasteful => Or.inr (Or.inr wasteful.2.2)
      rw [same]
      exact ⟨fun takes wasteful => notError (takes wasteful).1, fun notWasteful wasteful => absurd wasteful notWasteful⟩

theorem Sound.call (sound : Sound low high s) (someHeap : low < high) (call : Call) : Settles low high s call := by
  cases call with
  | create ssize priority => exact sound.create someHeap ssize priority
  | mkbufpool bufsiz numbufs => exact sound.mkbufpool bufsiz numbufs
  | ptcreate count => exact sound.ptcreate count

/-- The invariant is kept by every step. -/
theorem Sound.step (sound : Sound low high s) (someHeap : low < high) {move : Move} (proper : Proper s move)
    {reply : Int} (taken : step s move = some (reply, t)) : Sound low high t := by
  cases move with
  | call call =>
    obtain ⟨other, after, completed, kept, _⟩ := sound.call someHeap call
    cases completed.symm.trans taken
    exact kept
  | heap call =>
    obtain ⟨other, after, completed, kept⟩ := sound.heap.step call proper
    replace taken : (HeapMemory.step s.pools.heap call).map (fun (reply, heap) =>
        ((reply : Int), { s with pools := { s.pools with heap := heap } })) = some (reply, t) := taken
    rw [completed] at taken
    cases taken
    exact ⟨kept, sound.nextsem, sound.ptnextid⟩
  | others after =>
    cases taken
    exact ⟨proper.1 ▸ sound.heap, proper.2.1, proper.2.2⟩

end Calls

section Results

variable {boot s : System} {h : Heap} {first last : Nat} {events : List (Event System Move Int)}

/-- The invariant holds in every run. -/
theorem sound_of_run (someAddress : 0 < first) (ordered : first < last) (inWord : last < 2 ^ 32)
    (firstAligned : 8 ∣ first) (lastAligned : 8 ∣ last) (boots : Boots boot h first last)
    (run : Run step boot events s) (proper : Meets Proper events) : Sound first last s := by
  have initial : Sound first last boot := by
    refine ⟨?_, ?_, ?_⟩
    · rw [boots.heap]
      exact sound_of_meminit h first last someAddress (Nat.le_of_lt ordered) inWord firstAligned lastAligned
    · rw [boots.nextsem]
      decide
    · rw [boots.ptnextid]
      decide
  exact invariant_last (Sound first last) Proper
    (fun before move reply after sound isProper taken => sound.step ordered isProper taken) _ _ _ run initial proper

/-- A call that lacks a resource takes nothing just when it is not wasteful: when the missing resource is the
first that it asks for. -/
theorem failed_creations_take_nothing_iff (someAddress : 0 < first) (ordered : first < last) (inWord : last < 2 ^ 32)
    (firstAligned : 8 ∣ first) (lastAligned : 8 ∣ last) (boots : Boots boot h first last)
    (run : Run step boot events s) (proper : Meets Proper events) (call : Call) :
    (Lacks s call → TakesNothing s call) ↔ ¬ Wasteful s call := by
  have sound : Sound first last s := sound_of_run someAddress ordered inWord firstAligned lastAligned boots run proper
  obtain ⟨reply, t, completed, _, settles⟩ := sound.call ordered call
  refine Iff.trans ⟨fun takes lacks => ?_, fun takes lacks => ?_⟩ settles
  · obtain ⟨after, failed, same⟩ := takes lacks
    cases completed.symm.trans failed
    exact ⟨rfl, same⟩
  · obtain ⟨rfl, same⟩ := takes lacks
    exact ⟨t, completed, same⟩

/-- A heap that is too small for any stack refuses it, and nothing is taken. -/
theorem small_heap_takes_nothing : ∃ events s, Run step (fresh 8 64) events s ∧
    events.map Event.reply = [8] ∧ Lacks s (.create 400 0) ∧ TakesNothing s (.create 400 0) := by
  obtain ⟨events, s, run, checked⟩ := trace_exists step (fresh 8 64) [.heap (.getmem 10)]
    (fun events s => decide (events.map Event.reply = [8] ∧
      (getstk s.pools.heap.heap (Processes.stackSize 400).toNat).map Prod.fst = some HeapMemory.syserr) &&
      events.all fun event => match event.call with
        | .heap (.getmem nbytes) => decide (0 < nbytes ∧ nbytes ≤ 0xFFFFFFF8)
        | _ => false) (by decide +kernel)
  obtain ⟨known, all⟩ := (Bool.and_eq_true _ _).mp checked
  obtain ⟨replies, refused⟩ := of_decide_eq_true known
  obtain ⟨⟨pointer, heap⟩, getstk_, rfl⟩ := Option.map_eq_some_iff.mp refused
  have lacks : Lacks s (.create 400 0) := Or.inl ⟨heap, getstk_⟩
  have proper : Meets Proper events := by
    intro event member
    have here := List.all_eq_true.mp all event member
    unfold Proper
    split at here
    · rename_i isCall
      rw [isCall]
      exact of_decide_eq_true here
    · cases here
  have settled := failed_creations_take_nothing_iff (by decide) (by decide) (by decide) (by decide) (by decide)
    (fresh_boots 8 64) run proper (.create 400 0)
  have sound : Sound 8 64 s := sound_of_run (by decide) (by decide) (by decide) (by decide) (by decide)
    (fresh_boots 8 64) run proper
  obtain ⟨_, _, _, _, taken, _, ⟨_, granted, _⟩ | ⟨noRoom, _⟩⟩ :=
    takeStack_cases sound.heap (by decide) (Processes.stackSize 400).toNat_lt
  · cases getstk_.symm.trans taken
    exact absurd rfl granted
  · exact ⟨events, s, run, replies, lacks, settled.mpr (fun wasteful => noRoom wasteful.1) lacks⟩

/-- A process of no priority is refused, and its stack stays taken. -/
theorem refused_process_keeps_stack : Run step (fresh 8 4096) [] (fresh 8 4096) ∧ Lacks (fresh 8 4096) (.create 400 0) ∧
    ¬ TakesNothing (fresh 8 4096) (.create 400 0) := by
  refine ⟨.done _, Or.inr (Or.inr (by decide)), ?_⟩
  rintro ⟨t, completed, same⟩
  have known : (exec (fresh 8 4096) (.create 400 0)).map (fun result =>
      (result.2.pools.heap.heap.cells 8).mlength) = some 3688 := by decide +kernel
  rw [completed] at known
  have length : (t.pools.heap.heap.cells 8).mlength = 3688 := Option.some.inj known
  rw [same.heap.blocks] at length
  exact absurd length (by decide +kernel)

end Results

end Xinu.Creations
