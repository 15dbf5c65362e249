import Xinu.PoolCalls

/-!
# Buffer pools under concurrency

Any number of processes make pools, take buffers and give back buffers that are in use, in any
interleaving. Every process that comes from its `wait` finds a buffer. Every buffer of a pool is
on its free list once or in use once, and the free buffers are those that the semaphore counts
and those of the released processes.
-/

namespace Xinu.BufferPools

open CIntegers WordMemory Semaphores Runs

/-- The heap after any calls of other clients. -/
def HeapStarted (heap : HeapMemory.Kernel) : Prop :=
  ∃ h first last events, 0 < first ∧ first ≤ last ∧ last < 2 ^ 32 ∧ 8 ∣ first ∧ 8 ∣ last ∧
    Run HeapMemory.step ⟨HeapMemory.meminit h first last, []⟩ events heap ∧
    Meets HeapMemory.Allowed events

section Boot

variable {heap : HeapMemory.Kernel} {memory : Memory} {used : Int → Processes.Sstate}

/-- The law holds at the start. -/
theorem boot_calm (started : HeapStarted heap) : Calm (boot heap memory used) := by
  obtain ⟨h, first, last, events, someAddress, ordered, inWord, firstAligned, lastAligned, run,
    allowed⟩ := started
  have initial := HeapMemory.sound_of_meminit h first last someAddress ordered inWord firstAligned
    lastAligned
  have nothing : ∀ poolid, ¬ (boot heap memory used).Current poolid := by
    rintro poolid ⟨from_, to_⟩
    have below : poolid < 0 := to_
    lia
  have outside : ∀ pid point, ¬ At ((boot heap memory used).kernel.process pid) point := by
    simp [At, boot]
  refine ⟨⟨⟨⟨first, last, initial.run run allowed⟩, ?_, ⟨le_refl _, Int.le_of_lt (by decide : 0 < maxPools)⟩,
    ?_, ?_⟩, ?_, ?_, ?_, ?_, ?_, ?_⟩, ?_, rfl⟩
  · exact ⟨fun sem => List.nodup_nil, fun sem pid => by simp [boot], fun sem _ => by simp [boot],
      fun sem _ => rfl, (by decide : (0 : Int) < Processes.nsem)⟩
  · exact fun poolid current => absurd current (nothing poolid)
  · exact fun pid point here => absurd here (outside pid point)
  · exact fun poolid current => absurd current (nothing poolid)
  · exact fun poolid current => absurd current (nothing poolid)
  · exact fun poolid _ current => absurd current (nothing poolid)
  · exact fun poolid _ current => absurd current (nothing poolid)
  · intro hold member
    cases member
  · exact fun _ poolid _ current => absurd current (nothing poolid)
  · exact fun pid _ _ _ here => absurd here (outside pid _)

theorem calm_preserved (before : System) (move : Move) (reply : Option Int) (after : System)
    (calm : Calm before) (orderly : Orderly before move)
    (completed : step before move = some (reply, after)) : Calm after := by
  obtain ⟨_, _, same, calmAfter⟩ := calm.step (enabled_of_step completed) orderly
  rw [completed] at same
  cases same
  exact calmAfter

/-- Orderly runs stay calm. -/
theorem orderly_run (started : HeapStarted heap) {events : List (Event System Move (Option Int))}
    {last : System} (run : Run step (boot heap memory used) events last) (met : Meets Orderly events) :
    Calm last ∧ ∀ event ∈ events, Calm event.before ∧
      step event.before event.call = some (event.reply, event.after) := by
  refine ⟨invariant_last Calm Orderly calm_preserved _ _ _ run (boot_calm started) met, ?_⟩
  intro event member
  obtain ⟨calm, _, completed⟩ := invariant_events Calm Orderly calm_preserved _ _ _ run
    (boot_calm started) met event member
  exact ⟨calm, completed⟩

end Boot

/-- What processes may do: all calls but `xmalloc_init`, with buffers in use given back, and
writes into buffers in use. -/
def PoolUse (s : System) : Move → Prop
  | .call _ (.freebuf bufaddr) | .call _ (.xfree bufaddr) => ∃ hold ∈ s.held, hold.pointer = bufaddr
  | .call _ .xmallocInit => False
  | .write address _ => ∃ hold ∈ s.held,
    hold.pointer ≤ address ∧ address < hold.pointer + hold.home.size
  | _ => True

theorem PoolUse.orderly {s : System} {move : Move} (uses : PoolUse s move) : Orderly s move := by
  unfold PoolUse at uses
  split at uses
  case h_1 => exact uses.imp fun hold inUse => ⟨List.mem_append_left _ inUse.1, inUse.2⟩
  case h_2 => exact uses.imp fun hold inUse => ⟨List.mem_append_left _ inUse.1, inUse.2⟩
  case h_3 => exact absurd uses id
  case h_4 => exact uses.imp fun hold inUse => ⟨List.mem_append_left _ inUse.1, inUse.2⟩
  case h_5 notFree notXfree notInit notWrite =>
    unfold Orderly
    split
    case h_1 => exact absurd rfl (notFree _ _)
    case h_2 => exact absurd rfl (notXfree _ _)
    case h_3 => exact absurd rfl (notInit _)
    case h_4 => exact absurd rfl (notWrite _ _)
    case h_5 => trivial

/-- The list of free buffers and the semaphore after `freebuf`, and after `xfree` up to its end or
its switch. -/
theorem freebufSignal_list (s : System) (pid : Nat) (poolid : Int) (bufaddr : Nat) (point : Point) :
    (freebufSignal s pid poolid bufaddr point).2.buftab = (s.putBack poolid bufaddr).buftab ∧
      (freebufSignal s pid poolid bufaddr point).2.memory = (s.putBack poolid bufaddr).memory ∧
      (freebufSignal s pid poolid bufaddr point).2.kernel.semtab = (signal s.kernel
        ((s.putBack poolid bufaddr).buftab poolid).bpsem).2.semtab := by
  unfold freebufSignal
  dsimp only
  split
  case h_1 kernel switched =>
    have isKernel : kernel = (signal s.kernel ((s.putBack poolid bufaddr).buftab poolid).bpsem).2 :=
      congrArg Prod.snd switched.symm
    exact ⟨rfl, rfl, by rw [← isKernel]; rfl⟩
  case h_2 kernel quiet =>
    have isKernel : kernel = (signal s.kernel ((s.putBack poolid bufaddr).buftab poolid).bpsem).2 :=
      congrArg Prod.snd quiet.symm
    rw [← isKernel]
    cases point <;> exact ⟨rfl, rfl, rfl⟩

/-- `freebuf` of a buffer in use. -/
theorem freebuf_result {s : System} {hold : Hold} (law : Law s none) (member : hold ∈ s.held)
    (pid : Nat) : freebuf s pid hold.pointer =
      freebufSignal s pid hold.poolid hold.pointer .freebufEnd := by
  obtain ⟨from_, to_⟩ := law.homes hold member
  unfold freebuf
  dsimp only
  rw [law.header_eq member, if_neg (by omega)]

/-- For every pool, in every run of any processes: each move that can be made is completed, so that
no `getbuf` reads through an empty list. Each buffer is on the free list once or in use once. The
free buffers are as many as the semaphore counts and the released processes that have not yet taken
theirs. A buffer that is given back is the first one on the list of its pool. -/
theorem buffers_stay_exact (heap : HeapMemory.Kernel) (memory : Memory) (used : Int → Processes.Sstate)
    (started : HeapStarted heap) (events : List (Event System Move (Option Int))) (last : System)
    (run : Run step (boot heap memory used) events last) (met : Meets PoolUse events) :
    (∀ move, Enabled last move → PoolUse last move → ∃ reply after, step last move = some (reply, after)) ∧
    (∀ poolid, last.Current poolid → ∃ free released : List Nat,
      Chain last.memory (last.buftab poolid).bpnext free ∧
      (free ++ (last.heldOf poolid).map Hold.block).Nodup ∧
      (free ++ (last.heldOf poolid).map Hold.block).Perm (last.home poolid).blocks ∧
      released.Nodup ∧ (∀ pid, pid ∈ released ↔
        Takes (last.kernel.process pid) poolid (last.home poolid)) ∧
      (free.length : Int) =
        max 0 (last.kernel.semtab (last.buftab poolid).bpsem).scount + released.length) ∧
    ∀ event ∈ events, ∀ pid hold, event.call = .call pid (.freebuf hold.pointer) →
      hold ∈ event.before.held → (event.after.buftab hold.poolid).bpnext = hold.block ∧
        load event.after.memory hold.block =
          UInt32.ofNat (event.before.buftab hold.poolid).bpnext := by
  obtain ⟨calm, steps⟩ := orderly_run started run fun event member =>
    (met event member).orderly
  refine ⟨fun move enabled uses => ?_, fun poolid current => ?_, ?_⟩
  · obtain ⟨reply, after, completed, _⟩ := calm.step enabled uses.orderly
    exact ⟨reply, after, completed⟩
  · have pool := calm.law.pools poolid current
    obtain ⟨free, released, chain, perm, distinct, takes, count⟩ := pool.lists
    rw [excess_none] at count
    refine ⟨free, released, chain, perm.nodup_iff.mpr pool.nodup, perm, distinct, takes, ?_⟩
    rw [pool.sem]
    lia
  · intro event member pid hold isFree inUse
    obtain ⟨before, completed⟩ := steps event member
    rw [isFree] at completed
    have idle : event.before.kernel.process pid = .idle := enabled_of_step completed
    have result : step event.before (.call pid (.freebuf hold.pointer)) =
        some (freebufSignal event.before pid hold.poolid hold.pointer .freebufEnd) := by
      rw [← freebuf_result before.law inUse pid]
      exact if_pos idle
    have after := congrArg Prod.snd (Option.some.inj (result.symm.trans completed))
    obtain ⟨buftab, memory, _⟩ :=
      freebufSignal_list event.before pid hold.poolid hold.pointer .freebufEnd
    rw [after] at buftab memory
    rw [buftab, memory]
    exact ⟨by simp [System.putBack, System.setNext, Hold.block], load_store_same⟩

/-- A heap of which nothing is in use. -/
def freshHeap (first last : Nat) : HeapMemory.Kernel :=
  ⟨HeapMemory.meminit ⟨0, 0, 0, ⟨0, 0⟩, fun _ => ⟨0, 0⟩⟩ first last, []⟩

theorem freshHeap_started {first last : Nat} (someAddress : 0 < first) (ordered : first ≤ last)
    (inWord : last < 2 ^ 32) (firstAligned : 8 ∣ first) (lastAligned : 8 ∣ last) :
    HeapStarted (freshHeap first last) :=
  ⟨_, first, last, [], someAddress, ordered, inWord, firstAligned, lastAligned, .done _, by simp [Meets]⟩

/-- An executable form of the condition. -/
def System.uses (s : System) : Move → Bool
  | .call _ (.freebuf bufaddr) => s.held.any fun hold => hold.pointer = bufaddr
  | .call _ (.mkbufpool _ _) | .call _ (.getbuf _) | .goOn _ => true
  | _ => false

theorem poolUse_of_uses {s : System} {move : Move} (uses : s.uses move = true) : PoolUse s move := by
  unfold PoolUse
  split
  case h_1 => simpa [System.uses] using uses
  case h_5 => trivial
  all_goals cases uses

/-- Two processes wait for the only buffer of a pool, and one of them is released. -/
theorem released_process_has_its_buffer : ∃ events last, Run step
    (boot (freshHeap 8 1024) (fun _ => 0) (fun _ => .free)) events last ∧
    last.kernel.process 2 = .ready (.taking 0 (last.home 0) none) ∧
    (last.kernel.semtab (last.buftab 0).bpsem).scount = -1 ∧
    ∃ free, Chain last.memory (last.buftab 0).bpnext free ∧ free.length = 1 := by
  obtain ⟨events, last, run, checked⟩ := trace_exists step
    (boot (freshHeap 8 1024) (fun _ => 0) (fun _ => .free))
    [.call 1 (.mkbufpool 10 1), .call 1 (.getbuf 0), .call 2 (.getbuf 0), .call 3 (.getbuf 0),
      .call 1 (.freebuf 12)]
    (fun events last => decide (
      last.kernel.process 2 = .ready (.taking 0 (last.home 0) none) ∧
      last.kernel.process 3 = .waiting (last.home 0).sem (.taking 0 (last.home 0) none) ∧
      last.nbpools = 1 ∧ (last.kernel.semtab (last.buftab 0).bpsem).scount = -1 ∧ last.held = [] ∧
      (last.home 0).blocks.length = 1 ∧
      ∀ event ∈ events, event.before.uses event.call = true)) (by decide +kernel)
  obtain ⟨ready, _, one, count, unused, single, uses⟩ := of_decide_eq_true checked
  obtain ⟨_, pools, _⟩ := buffers_stay_exact _ _ _ (freshHeap_started (by decide) (by decide) (by decide)
    (by decide) (by decide)) events last run fun event member => poolUse_of_uses (uses event member)
  obtain ⟨free, _, chain, _, perm, _⟩ := pools 0 ⟨le_refl _, by omega⟩
  refine ⟨events, last, run, ready, count, free, chain, ?_⟩
  have length := perm.length_eq
  have noneHeld : last.heldOf 0 = [] := by
    unfold System.heldOf
    rw [unused]
    rfl
  rw [noneHeld, List.map_nil, List.append_nil, single] at length
  exact length

end Xinu.BufferPools
