import Xinu.XmallocPools

/-!
# The text of the snapshot

`xheap_snapshot` prints six numbers for each pool, each of them into eight bytes, and appends them with
their labels to a string of fixed size. The numbers of a pool are at most the bytes of all of its
buffers, which have seven digits in the largest case.
-/

namespace Xinu.BufferPools

open CIntegers Runs

/-- `sizeof(fragStr)` and `sizeof(temp)`. -/
def fragStrSize : Nat := 20 * 128

def tempSize : Nat := 8

/-- The characters of `"%d"`. -/
def decimal (value : Int) : List Char :=
  if value < 0 then '-' :: Nat.toDigits 10 value.natAbs else Nat.toDigits 10 value.natAbs

/-- `sprintf` of a number into `temp`; what does not fit with its NUL is not defined. -/
def sprintfTemp (value : Int) : Option (List Char) :=
  if (decimal value).length + 1 ≤ tempSize then some (decimal value) else none

/-- `strncat` to `fragStr`. -/
def strncatFrag (str src : List Char) (n : Nat) : Option (List Char) :=
  if (str ++ src.take n).length + 1 ≤ fragStrSize then some (str ++ src.take n) else none

/-- A label, a number and a separator are appended. -/
def appendField (label : String) (n : Nat) (value : Int) (separator : String) (str : List Char) :
    Option (List Char) := do
  let str ← strncatFrag str label.toList n
  let temp ← sprintfTemp value
  let str ← strncatFrag str temp 8
  strncatFrag str separator.toList 2

/-- A turn of the loop of `xheap_snapshot`. -/
def Line.append (line : Line) (str : List Char) : Option (List Char) := do
  let str ← appendField "pool_id=" 8 line.poolId ", " str
  let str ← appendField "buffer_size=" 12 line.bufferSize.toInt ", " str
  let str ← appendField "total_buffers=" 14 line.totalBuffers.toInt ", " str
  let str ← appendField "allocated_bytes=" 16 line.allocatedBytes.toInt ", " str
  let str ← appendField "allocated_buffers=" 18 line.allocatedBuffers.toInt ", " str
  appendField "fragmented_bytes=" 17 line.fragmentedBytes.toInt " \n" str

/-- The turns of the loop, one after another. -/
def appendLines : List Line → List Char → Option (List Char)
  | [], str => some str
  | line :: lines, str => do
    let str ← line.append str
    appendLines lines str

/-- The string that `xheap_snapshot` builds. -/
def fragStr (s : System) : Option (List Char) := appendLines (xheapSnapshot s) []

/-- The numbers of a line. -/
def Line.numbers (line : Line) : List Int :=
  [line.poolId, line.bufferSize.toInt, line.totalBuffers.toInt, line.allocatedBytes.toInt,
    line.allocatedBuffers.toInt, line.fragmentedBytes.toInt]

/-- A number that is not negative and has at most seven digits. -/
def SevenDigits (value : Int) : Prop := 0 ≤ value ∧ value < 10 ^ 7

section Text

variable {value : Int} {str : List Char} {line : Line} {bound : Nat}

theorem SevenDigits.length (small : SevenDigits value) : (decimal value).length ≤ 7 := by
  obtain ⟨low, high⟩ := small
  rw [decimal, if_neg (not_lt.mpr low), Nat.length_toDigits_le_iff (by decide) (by decide)]
  omega

theorem strncatFrag_done (src : List Char) (n : Nat) (room : str.length + src.length + 1 ≤ fragStrSize) :
    strncatFrag str src n = some (str ++ src.take n) := by
  refine if_pos (le_trans ?_ room)
  rw [List.length_append]
  have taken := List.length_take_le' n src
  lia

/-- A field with a small number takes its label and nine characters. -/
theorem appendField_done {label separator : String} {n : Nat} (small : SevenDigits value)
    (short : separator.toList.length ≤ 2)
    (room : str.length + label.toList.length + 9 + 1 ≤ fragStrSize) :
    ∃ longer, appendField label n value separator str = some longer ∧
      longer.length ≤ str.length + label.toList.length + 9 := by
  have digits := small.length
  have first := List.length_take_le' n label.toList
  have second := List.length_take_le' 8 (decimal value)
  have third := List.length_take_le' 2 separator.toList
  have printed : sprintfTemp value = some (decimal value) := if_pos (by unfold tempSize; lia)
  refine ⟨str ++ label.toList.take n ++ (decimal value).take 8 ++ separator.toList.take 2, ?_, ?_⟩
  · rw [appendField, strncatFrag_done _ _ (by lia), printed]
    simp only [Option.bind_eq_bind, Option.bind_some]
    rw [strncatFrag_done _ _ (by rw [List.length_append]; lia), Option.bind_some,
      strncatFrag_done _ _ (by rw [List.length_append, List.length_append]; lia)]
  · rw [List.length_append, List.length_append, List.length_append]
    lia

/-- A line with small numbers takes at most 139 characters. -/
theorem Line.append_done (small : ∀ value ∈ line.numbers, SevenDigits value)
    (room : str.length + 139 + 1 ≤ fragStrSize) :
    ∃ longer, line.append str = some longer ∧ longer.length ≤ str.length + 139 := by
  simp only [Line.numbers, List.forall_mem_cons, List.not_mem_nil, false_imp_iff, implies_true,
    and_true] at small
  obtain ⟨poolId, bufferSize, totalBuffers, allocatedBytes, allocatedBuffers, fragmentedBytes⟩ := small
  have lengths : "pool_id=".toList.length = 8 ∧ "buffer_size=".toList.length = 12 ∧
      "total_buffers=".toList.length = 14 ∧ "allocated_bytes=".toList.length = 16 ∧
      "allocated_buffers=".toList.length = 18 ∧ "fragmented_bytes=".toList.length = 17 := by decide
  have comma : ", ".toList.length ≤ 2 := by decide
  have newline : " \n".toList.length ≤ 2 := by decide
  unfold fragStrSize at room
  obtain ⟨one, first, long1⟩ := @appendField_done _ str "pool_id=" ", " 8 poolId comma
    (by unfold fragStrSize; lia)
  obtain ⟨two, second, long2⟩ := @appendField_done _ one "buffer_size=" ", " 12 bufferSize comma
    (by unfold fragStrSize; lia)
  obtain ⟨three, third, long3⟩ := @appendField_done _ two "total_buffers=" ", " 14 totalBuffers comma
    (by unfold fragStrSize; lia)
  obtain ⟨four, fourth, long4⟩ := @appendField_done _ three "allocated_bytes=" ", " 16 allocatedBytes
    comma (by unfold fragStrSize; lia)
  obtain ⟨five, fifth, long5⟩ := @appendField_done _ four "allocated_buffers=" ", " 18
    allocatedBuffers comma (by unfold fragStrSize; lia)
  obtain ⟨six, sixth, long6⟩ := @appendField_done _ five "fragmented_bytes=" " \n" 17 fragmentedBytes
    newline (by unfold fragStrSize; lia)
  refine ⟨six, ?_, by lia⟩
  unfold Line.append
  simp only [first, second, third, fourth, fifth, sixth, Option.bind_eq_bind, Option.bind_some]

theorem appendLines_done {lines : List Line}
    (small : ∀ line ∈ lines, ∀ value ∈ line.numbers, SevenDigits value)
    (room : str.length + 139 * lines.length + 1 ≤ fragStrSize) :
    ∃ text, appendLines lines str = some text ∧ text.length ≤ str.length + 139 * lines.length := by
  induction lines generalizing str with
  | nil => exact ⟨str, rfl, le_rfl⟩
  | cons line lines inductionHypothesis =>
    rw [List.length_cons] at room ⊢
    obtain ⟨longer, appended, long⟩ := Line.append_done (small line List.mem_cons_self)
      (show str.length + 139 + 1 ≤ fragStrSize by lia)
    obtain ⟨text, written, whole⟩ := @inductionHypothesis longer
      (fun other member => small other (List.mem_cons_of_mem line member)) (by lia)
    refine ⟨text, ?_, by lia⟩
    rw [appendLines, appended]
    exact written

end Text

/-- What a pool counts as lost is not negative and at most the bytes of all of its buffers. -/
def CountsLost (s : System) (poolid : Int) : Prop :=
  0 ≤ (s.fragmBy poolid).toInt ∧
    (s.fragmBy poolid).toInt ≤ (initSize poolid).toInt * (initNumb poolid).toInt

section Numbers

variable {s after : System} {count poolid : Int}

/-- All buffers of a pool have at most so many bytes. -/
theorem pool_bytes (from_ : 0 ≤ poolid) (to_ : poolid < poolnum) :
    (initSize poolid).toInt * (initNumb poolid).toInt ≤ 4186112 ∧ (initNumb poolid).toInt ≤ 2048 := by
  obtain ⟨index, rfl⟩ := Int.eq_ofNat_of_zero_le from_
  have below : index < 10 := Int.ofNat_lt.mp to_
  interval_cases index <;> decide

/-- The bytes asked of a pool are at most those of its buffers. -/
theorem Stock.bytes_le (stock : Stock count s) (current : s.Current poolid) :
    0 ≤ (s.allocBy poolid).toInt ∧
      (s.allocBy poolid).toInt ≤ (initSize poolid).toInt * (s.allocBf poolid).toInt ∧
      0 ≤ (s.allocBf poolid).toInt ∧ (s.allocBf poolid).toInt ≤ (initNumb poolid).toInt := by
  have length := stock.held_le current
  obtain ⟨low, high⟩ := stock.asked current
  rw [stock.bytes poolid current, stock.buffers poolid current]
  exact ⟨low, high, Int.natCast_nonneg _, length⟩

/-- Statistics that agree count what is lost. -/
theorem Stock.counts (stock : Stock count s) (current : s.Current poolid)
    (agrees : s.Agrees poolid) : CountsLost s poolid := by
  obtain ⟨equal, low⟩ := stock.fragmented current agrees
  obtain ⟨nonneg, -, few, most⟩ := stock.bytes_le current
  obtain ⟨wide, -⟩ := initSize_bounds current.1 (stock.inside current)
  have bytes : (initSize poolid).toInt * (s.allocBf poolid).toInt ≤
      (initSize poolid).toInt * (initNumb poolid).toInt :=
    Int.mul_le_mul_of_nonneg_left most (by lia)
  rw [(stock.laid poolid current).bufsize] at equal
  exact ⟨low, by omega⟩

/-- The allocator with its statistics. -/
structure Accounted (count : Int) (s : System) : Prop where
  stock : Stock count s
  lost : ∀ poolid, s.Current poolid → CountsLost s poolid

theorem accounted_preserved (before : System) (move : Move) (reply : Option Int) (after : System)
    (accounted : Accounted count before) (client : Client before move)
    (completed : step before move = some (reply, after)) : Accounted count after := by
  have stock := stock_preserved before move reply after accounted.stock client completed
  refine ⟨stock, fun poolid current => ?_⟩
  have tallied := (accounted.stock.law.toBase.step completed).2 (by
    rintro pid rfl
    exact client)
  have was : before.Current poolid := ⟨current.1, accounted.stock.whole ▸ stock.whole ▸ current.2⟩
  rcases tallied.pools poolid with ⟨-, -, same⟩ | agrees
  · unfold CountsLost
    rw [same]
    exact accounted.lost poolid was
  · exact stock.counts current agrees

/-- `xmalloc_init` keeps what was counted as lost. -/
theorem Base.accounted (base : Base s) (made : BufferPools.xmallocInit s = some after)
    (lost : ∀ poolid, 0 ≤ poolid → poolid < poolnum → CountsLost s poolid) :
    Accounted after.nbpools after := by
  have stock := base.stock made
  refine ⟨stock, fun poolid current => ?_⟩
  obtain ⟨again, same, _, extended, _⟩ := base.xmallocInit
  obtain rfl : after = again := Option.some.inj (made.symm.trans same)
  have kept : after.fragmBy poolid = s.fragmBy poolid := congrFun extended.fragmBy poolid
  unfold CountsLost
  rw [kept]
  exact lost poolid current.1 (stock.inside current)

/-- Every number of the snapshot has at most seven digits. -/
theorem Accounted.small (accounted : Accounted count s) :
    ∀ line ∈ xheapSnapshot s, ∀ value ∈ line.numbers, SevenDigits value := by
  intro line member
  obtain ⟨index, below, rfl⟩ := List.mem_map.mp member
  have stock := accounted.stock
  have current : s.Current index := ⟨Int.natCast_nonneg index, by
    have inside := List.mem_range.mp below
    omega⟩
  have inside := stock.inside current
  have ten : poolnum = 10 := rfl
  obtain ⟨most, few⟩ := pool_bytes current.1 inside
  obtain ⟨wide, size, some_, -⟩ := initSize_bounds current.1 inside
  obtain ⟨bytesLow, bytesHigh, buffersLow, buffersHigh⟩ := stock.bytes_le current
  obtain ⟨lostLow, lostHigh⟩ := accounted.lost index current
  have bytes : (initSize index).toInt * (s.allocBf index).toInt ≤
      (initSize index).toInt * (initNumb index).toInt :=
    Int.mul_le_mul_of_nonneg_left buffersHigh (by lia)
  have laid := stock.laid index current
  simp only [Line.numbers, List.forall_mem_cons, List.not_mem_nil, false_imp_iff, implies_true,
    and_true, SevenDigits, laid.bufsize, laid.bufnumb]
  omega

end Numbers

/-- After any run and an `xmalloc_init`, for all calls of clients: every number of the snapshot has at
most seven characters, and the whole string fits with its NUL. -/
theorem snapshot_stays_inside (heap : HeapMemory.Kernel) (memory : Memory)
    (used : Int → Processes.Sstate) (started : HeapStarted heap)
    (early events : List (Event System Move (Option Int))) (before first last : System)
    (begun : Run step (boot heap memory used) early before)
    (lost : ∀ poolid, 0 ≤ poolid → poolid < poolnum → CountsLost before poolid) (pid : Nat)
    (reply : Option Int) (initialised : step before (.call pid .xmallocInit) = some (reply, first))
    (run : Run step first events last) (met : Meets Client events) :
    (∀ line ∈ xheapSnapshot last, ∀ value ∈ line.numbers,
      (decimal value).length ≤ 7 ∧ sprintfTemp value = some (decimal value)) ∧
    ∃ text, fragStr last = some text ∧ text.length + 1 ≤ fragStrSize := by
  have base : Base before := invariant_last Base (fun _ _ => True)
    (fun _ _ _ _ base _ completed => (base.step completed).1) _ _ _ begun (boot_calm started).law.toBase
    fun _ _ => trivial
  have initial : Accounted first.nbpools first := by
    have idle : before.kernel.process pid = .idle := enabled_of_step initialised
    have called := (if_pos idle).symm.trans initialised
    obtain ⟨_, made, same⟩ := Option.map_eq_some_iff.mp called
    obtain ⟨_, rfl⟩ := Prod.mk.inj same
    exact base.accounted made lost
  have accounted := invariant_last (Accounted first.nbpools) Client accounted_preserved _ _ _ run initial
    met
  have small := accounted.small
  refine ⟨fun line member value number => ?_, ?_⟩
  · have digits := (small line member value number).length
    exact ⟨digits, if_pos (Nat.succ_le_succ digits)⟩
  · have lines : (xheapSnapshot last).length ≤ 10 := by
      have whole := accounted.stock.whole
      have within := accounted.stock.within
      have ten : poolnum = 10 := rfl
      rw [xheapSnapshot, List.length_map, List.length_range]
      lia
    obtain ⟨text, written, short⟩ := @appendLines_done [] _ small (by
      unfold fragStrSize
      rw [List.length_nil]
      lia)
    refine ⟨text, written, ?_⟩
    rw [List.length_nil] at short
    unfold fragStrSize
    lia

/-- The ten pools after requests of 5 and of 3000 bytes. -/
theorem two_requests_fit : ∃ last : System, last.held.length = 2 ∧ last.nbpools = 10 ∧
    ∃ text, fragStr last = some text ∧ text.length + 1 ≤ fragStrSize := by
  obtain ⟨events, last, run, checked⟩ := trace_exists step
    (boot (freshHeap 8 (2 ^ 24)) (fun _ => 0) (fun _ => .free))
    [.call 1 .xmallocInit, .call 1 (.xmalloc 5), .call 2 (.xmalloc 3000)]
    (fun events last => decide (last.held.length = 2 ∧ last.nbpools = 10 ∧ events.length = 3 ∧
      (∀ event ∈ events.take 1, event.call = .call 1 .xmallocInit) ∧
      ∀ event ∈ events.drop 1, event.before.client event.call = true)) (by decide +kernel)
  obtain ⟨two, ten, three, isInit, clients⟩ := of_decide_eq_true checked
  cases run with
  | done => cases three
  | taken _ call reply first _ rest completed tail =>
    obtain rfl : call = .call 1 .xmallocInit := isInit _ List.mem_cons_self
    refine ⟨last, two, ten, ?_⟩
    exact (snapshot_stays_inside _ _ _ (freshHeap_started (by decide) (by decide) (by decide) (by decide)
      (by decide)) [] rest _ first last (.done _) (fun poolid from_ to_ => ⟨le_rfl,
        Int.mul_nonneg (by have := (initSize_bounds from_ to_).1; lia)
          (by have := (initSize_bounds from_ to_).2.2.1; lia)⟩) 1 reply completed tail
      fun event member => client_of_client (clients event member)).2

end Xinu.BufferPools
