import Xinu.CIntegers
import Xinu.CStrings
import Xinu.RangeWorkers

/-!
# The parallel search

`pargrep` prints the lines that contain a word. With one thread it reads and prints line by
line. With more it reads all lines, gives each thread a range of them, and prints what the
threads have left. The ranges are as long as the quotient rounded up, and the last thread
gets the rest.

A `long` has 64 bits, which no number of lines exceeds; where one becomes an `int`, it is
wrapped. A thread that looks behind the last line, or at a line that was freed, has no
outcome. Neither has an `int` that overflows.
-/

namespace Xinu.ParallelSearch

open CIntegers RangeWorkers Runs

/-- What `getline` has stored in front of the NUL it adds. -/
abbrev Line := List UInt8

/-- A line up to its first NUL, as `strstr` and `printf` read it. -/
def text (line : Line) : List UInt8 := line.takeWhile fun char => decide (char ≠ 0)

/-- `strstr`: what begins with the first occurrence, or NULL. -/
def strstr (haystack needle : List UInt8) : Option (List UInt8) := haystack.tails.find? needle.isPrefixOf

section Modes

def linesPerThread (numLines numThreads : Int) : Int :=
  if numLines % numThreads ≠ 0 then numLines / numThreads + 1 else numLines / numThreads

def linesLastThread (numLines numThreads : Int) : Int :=
  numLines - linesPerThread numLines numThreads * (numThreads - 1)

/-- `DataPass`. -/
structure DataPass where
  len : Int
  start : Int

/-- What a thread gets. -/
def dataPass (numLines numThreads i : Int) : DataPass where
  len := wrap (if i = numThreads - 1 then linesLastThread numLines numThreads
    else linesPerThread numLines numThreads)
  start := linesPerThread numLines numThreads * i

/-- What a turn of the loop of `searchWord` does with the line of an entry: it stays, or is freed
and becomes NULL. -/
def searchWord (word : CString) (line : Option Line) : Option (Option (Option Line)) :=
  line.map fun line => if (strstr (text line) word.chars).isNone then some none else none

/-- The lines that a thread goes through. It begins at no negative line, and goes through none
where the number is negative. -/
def threadRange (numLines numThreads : Nat) (i : Fin numThreads) : Range :=
  let pass := dataPass numLines numThreads i
  ⟨pass.start.toNat, pass.len.toNat⟩

/-- A step of one of the threads. -/
def threadStep (word : CString) (numLines numThreads : Nat) :
    State (Fin numThreads) (Option Line) → Fin numThreads →
      Option (Unit × State (Fin numThreads) (Option Line)) :=
  RangeWorkers.step (searchWord word) (threadRange numLines numThreads)

/-- The loop that prints the lines that are left, from an index on. -/
def printResults (i : Nat) : List (Option Line) → Option (List UInt8)
  | [] => some []
  | line :: lines =>
    let printed := (line.map text).getD []
    -- `i++`
    if i + 1 < 2 ^ 31 then (printResults (i + 1) lines).map (printed ++ ·) else none

/-- What is printed with one thread. -/
def singleThread (lines : List Line) (word : CString) : List UInt8 :=
  lines.flatMap fun line => if (strstr (text line) word.chars).isSome then text line else []

end Modes

section Texts

variable {word : CString} {line : Line} {lines : List Line}

/-- `strstr` finds a string that occurs. -/
theorem strstr_isSome (haystack needle : List UInt8) :
    (strstr haystack needle).isSome = true ↔ needle <:+: haystack := by
  rw [strstr, List.find?_isSome, List.infix_iff_prefix_suffix]
  constructor
  · rintro ⟨rest, member, starts⟩
    exact ⟨rest, List.isPrefixOf_iff_prefix.mp starts, (List.mem_tails ..).mp member⟩
  · rintro ⟨rest, starts, isSuffix⟩
    exact ⟨rest, (List.mem_tails ..).mpr isSuffix, List.isPrefixOf_iff_prefix.mpr starts⟩

/-- A line that does not contain the word is freed. -/
theorem treated_line (word : CString) (line : Line) : treated (searchWord word) (some line) =
    if (strstr (text line) word.chars).isSome then some line else none := by
  cases found : strstr (text line) word.chars <;> simp [treated, searchWord, found]

/-- The lines that are printed at the end. -/
theorem printResults_of_lt {cells : List (Option Line)} {i : Nat} (small : i + cells.length < 2 ^ 31) :
    printResults i cells = some (cells.flatMap fun line => (line.map text).getD []) := by
  induction cells generalizing i with
  | nil => rfl
  | cons cell cells inductionHypothesis =>
    rw [List.length_cons] at small
    rw [printResults, if_pos (by omega), inductionHypothesis (by omega), List.flatMap_cons]
    rfl

/-- The index of the loop is an `int`. -/
theorem printResults_bound {cells : List (Option Line)} {i : Nat} {printed : List UInt8}
    (small : i < 2 ^ 31) (ends : printResults i cells = some printed) : i + cells.length < 2 ^ 31 := by
  induction cells generalizing i printed with
  | nil => exact small
  | cons cell cells inductionHypothesis =>
    rw [printResults] at ends
    by_cases next : i + 1 < 2 ^ 31
    · rw [if_pos next] at ends
      obtain ⟨rest, ends, _⟩ := Option.map_eq_some_iff.mp ends
      have := inductionHypothesis next ends
      rw [List.length_cons]
      omega
    · rw [if_neg next] at ends
      cases ends

/-- What the threads leave is printed as with one thread. -/
theorem printed_alike (lines : List Line) (word : CString) :
    ((lines.map some).map (treated (searchWord word))).flatMap (fun line => (line.map text).getD []) =
      singleThread lines word := by
  rw [List.map_map, List.flatMap_map, singleThread]
  refine congrArg (lines.flatMap ·) (funext fun line => ?_)
  rw [Function.comp_apply, treated_line]
  split <;> rfl

/-- With one thread the lines that contain the word are printed in their order. -/
theorem singleThread_eq (lines : List Line) (word : CString) :
    singleThread lines word = ((lines.filter fun line => decide (word.chars <:+: text line)).map text).flatten := by
  induction lines with
  | nil => rfl
  | cons line lines inductionHypothesis =>
    have rest : singleThread (line :: lines) word =
        (if (strstr (text line) word.chars).isSome then text line else []) ++ singleThread lines word := rfl
    rw [rest, inductionHypothesis, List.filter_cons]
    by_cases found : word.chars <:+: text line
    · rw [if_pos ((strstr_isSome _ _).mpr found), if_pos (decide_eq_true found)]
      rfl
    · rw [if_neg (fun finds => found ((strstr_isSome _ _).mp finds)), if_neg (by simpa using found)]
      rfl

end Texts

section Split

variable {numLines numThreads : Nat}

/-- The number of lines divided by the number of threads, rounded up. -/
def share (numLines numThreads : Nat) : Nat := (numLines + numThreads - 1) / numThreads

theorem linesPerThread_eq (someThread : 0 < numThreads) :
    linesPerThread numLines numThreads = share numLines numThreads := by
  have divided := Nat.div_add_mod numLines numThreads
  have small := Nat.mod_lt numLines someThread
  have shape : numLines + numThreads - 1 =
      numLines % numThreads + (numThreads - 1) + numThreads * (numLines / numThreads) := by lia
  rw [linesPerThread, share, shape, Nat.add_mul_div_left _ _ someThread]
  by_cases even : numLines % numThreads = 0
  · have isZero : ¬ (numLines : Int) % numThreads ≠ 0 := by
      rw [not_not]
      exact_mod_cast even
    have nothing : (numLines % numThreads + (numThreads - 1)) / numThreads = 0 :=
      Nat.div_eq_of_lt (by omega)
    rw [if_neg isZero, nothing, Nat.zero_add]
    exact_mod_cast rfl
  · have notZero : (numLines : Int) % numThreads ≠ 0 := by exact_mod_cast even
    have one : (numLines % numThreads + (numThreads - 1)) / numThreads = 1 :=
      Nat.div_eq_of_lt_le (by omega) (by omega)
    rw [if_pos notZero, one, Nat.add_comm 1]
    exact_mod_cast rfl

/-- The shares of all threads reach behind the last line, by less than one for each thread. -/
theorem share_bounds (someThread : 0 < numThreads) : numLines ≤ share numLines numThreads * numThreads ∧
    share numLines numThreads * numThreads < numLines + numThreads := by
  have divided := Nat.div_add_mod (numLines + numThreads - 1) numThreads
  have small := Nat.mod_lt (numLines + numThreads - 1) someThread
  rw [share, Nat.mul_comm]
  lia

/-- What is left for the last thread, which may be negative. -/
theorem linesLastThread_eq (someThread : 0 < numThreads) : linesLastThread numLines numThreads =
    numLines - (share numLines numThreads * (numThreads - 1) : Nat) := by
  rw [linesLastThread, linesPerThread_eq someThread, Nat.cast_mul, Nat.cast_sub someThread, Nat.cast_one]

/-- The number of lines of the last thread is stored as it is, also where it is negative. -/
theorem last_len (someThread : 0 < numThreads) (few : numThreads ≤ 128) (small : numLines < 2 ^ 31) :
    (dataPass numLines numThreads (numThreads - 1)).len =
      numLines - (share numLines numThreads * (numThreads - 1) : Nat) := by
  obtain ⟨enough, less⟩ := @share_bounds numLines numThreads someThread
  have below : share numLines numThreads * (numThreads - 1) ≤ share numLines numThreads * numThreads :=
    Nat.mul_le_mul_left _ (Nat.sub_le _ _)
  rw [dataPass, if_pos rfl, linesLastThread_eq someThread]
  exact wrap_of_range _ (by lia) (by omega)

/-- The ranges where there is something left for the last thread. -/
theorem dataPass_eq (someThread : 0 < numThreads) (small : numLines < 2 ^ 31)
    (left : share numLines numThreads * (numThreads - 1) ≤ numLines) (i : Fin numThreads) :
    dataPass numLines numThreads i = ⟨((if i.val = numThreads - 1 then
        numLines - share numLines numThreads * (numThreads - 1) else share numLines numThreads : Nat) : Int),
      (share numLines numThreads * i.val : Nat)⟩ := by
  have start : linesPerThread numLines numThreads * (i.val : Int) = (share numLines numThreads * i.val : Nat) := by
    rw [linesPerThread_eq someThread, Nat.cast_mul]
  rw [dataPass, start]
  congr 1
  by_cases isLast : i.val = numThreads - 1
  · have same : (i.val : Int) = numThreads - 1 := by lia
    rw [if_pos same, if_pos isLast, linesLastThread_eq someThread, Nat.cast_sub left]
    exact wrap_of_range _ (by omega) (by omega)
  · have other : (i.val : Int) ≠ numThreads - 1 := by lia
    have notAll : 1 ≤ numThreads - 1 := by omega
    have fits : share numLines numThreads ≤ share numLines numThreads * (numThreads - 1) :=
      Nat.le_mul_of_pos_right _ notAll
    rw [if_neg other, if_neg isLast, linesPerThread_eq someThread]
    exact wrap_of_range _ (by lia) (by lia)

theorem threadRange_eq (someThread : 0 < numThreads) (small : numLines < 2 ^ 31)
    (left : share numLines numThreads * (numThreads - 1) ≤ numLines) (i : Fin numThreads) :
    threadRange numLines numThreads i = ⟨share numLines numThreads * i.val,
      if i.val = numThreads - 1 then numLines - share numLines numThreads * (numThreads - 1)
      else share numLines numThreads⟩ := by
  rw [threadRange, dataPass_eq someThread small left i, Int.toNat_natCast, Int.toNat_natCast]

/-- The ranges divide the lines where there is something left for the last thread. -/
theorem threadRange_divides (someThread : 0 < numThreads) (small : numLines < 2 ^ 31)
    (left : share numLines numThreads * (numThreads - 1) ≤ numLines) :
    Divides (threadRange numLines numThreads) numLines := by
  obtain ⟨enough, _⟩ := @share_bounds numLines numThreads someThread
  have whole : share numLines numThreads * numThreads =
      share numLines numThreads * (numThreads - 1) + share numLines numThreads := by
    rw [← Nat.mul_succ, Nat.succ_eq_add_one, Nat.sub_add_cancel someThread]
  have range := @threadRange_eq numLines numThreads someThread small left
  -- No thread gets more than its share.
  have short : ∀ i : Fin numThreads, ∀ x < (threadRange numLines numThreads i).count,
      x < share numLines numThreads := by
    intro i x inRange
    rw [range] at inRange
    dsimp only at inRange
    split at inRange <;> lia
  refine ⟨?_, ?_, ?_⟩
  · intro j k x y inJ inK meets
    have first := short j x inJ
    have second := short k y inK
    rw [range j, range k] at meets
    have quotient := congrArg (· / share numLines numThreads) meets
    simp only [Nat.mul_add_div (Nat.zero_lt_of_lt first), Nat.div_eq_of_lt first, Nat.div_eq_of_lt second] at quotient
    exact Fin.ext quotient
  · intro k x inRange
    rw [range] at inRange ⊢
    dsimp only at inRange ⊢
    split at inRange
    · rename_i isLast
      rw [isLast]
      lia
    · have next : share numLines numThreads * (k.val + 1) ≤ share numLines numThreads * (numThreads - 1) :=
        Nat.mul_le_mul_left _ (by lia)
      rw [Nat.mul_succ] at next
      lia
  · intro index inside
    rcases Nat.lt_or_ge index (share numLines numThreads * (numThreads - 1)) with before | behind
    · have notLast : index / share numLines numThreads < numThreads - 1 := Nat.div_lt_of_lt_mul before
      have someLine : 0 < share numLines numThreads :=
        Nat.pos_of_mul_pos_right (Nat.zero_lt_of_lt before)
      refine ⟨⟨index / share numLines numThreads, by lia⟩, index % share numLines numThreads, ?_, ?_⟩
      · rw [range]
        dsimp only
        rw [if_neg (Nat.ne_of_lt notLast)]
        exact Nat.mod_lt _ someLine
      · rw [range]
        exact Nat.div_add_mod _ _
    · refine ⟨⟨numThreads - 1, by omega⟩, index - share numLines numThreads * (numThreads - 1), ?_, ?_⟩
      · rw [range]
        dsimp only
        rw [if_pos rfl]
        omega
      · rw [range]
        exact Nat.add_sub_cancel' behind

end Split

section Search

variable {lines : List Line} {word : CString} {numThreads : Nat}

/-- The lines of a thread by their numbers. -/
def linesOf (numLines numThreads i : Int) : Set Int :=
  let pass := dataPass numLines numThreads i
  Set.Ico pass.start (pass.start + pass.len)

/-- All threads before their first steps. -/
def allRead (lines : List Line) (numThreads : Nat) : State (Fin numThreads) (Option Line) :=
  initial (lines.map some)

/-- The lines that are left can be printed when all threads are at their ends. -/
def Joined (numLines : Nat) {numThreads : Nat} (s : State (Fin numThreads) (Option Line)) : Prop :=
  ∀ i, ¬ Unfinished (threadRange numLines numThreads) s i

/-- The steps of a run are steps of threads that are not at their ends. -/
def Busy (numLines : Nat) {numThreads : Nat}
    (events : List (Event (State (Fin numThreads) (Option Line)) (Fin numThreads) Unit)) : Prop :=
  Meets (Unfinished (threadRange numLines numThreads)) events

/-- The search with many threads is the search with one. The ranges are not negative, disjoint, and
divide the lines. Whatever the order of the steps, no thread does anything undefined, all come to
their ends, and what is printed then are the lines with the word in their order. -/
structure SearchesAlike (lines : List Line) (word : CString) (numThreads : Nat) : Prop where
  nonnegative : ∀ i : Fin numThreads, 0 ≤ (dataPass lines.length numThreads i).len
  apart : ∀ i j : Fin numThreads, i ≠ j →
    Disjoint (linesOf lines.length numThreads i) (linesOf lines.length numThreads j)
  inside : ∀ i : Fin numThreads, linesOf lines.length numThreads i ⊆ Set.Ico 0 (lines.length : Int)
  covers : Set.Ico 0 (lines.length : Int) ⊆ ⋃ i : Fin numThreads, linesOf lines.length numThreads i
  defined : ∀ events s, Run (threadStep word lines.length numThreads) (allRead lines numThreads) events s →
    Busy lines.length events → ∀ i, Unfinished (threadRange lines.length numThreads) s i →
      ∃ t, threadStep word lines.length numThreads s i = some ((), t)
  ends : ∃ bound, ∀ events s, Run (threadStep word lines.length numThreads) (allRead lines numThreads) events s →
    Busy lines.length events → events.length ≤ bound
  joins : ∃ events s, Run (threadStep word lines.length numThreads) (allRead lines numThreads) events s ∧
    Busy lines.length events ∧ Joined lines.length s
  prints : ∀ events s, Run (threadStep word lines.length numThreads) (allRead lines numThreads) events s →
    Busy lines.length events → Joined lines.length s →
      printResults 0 s.cells = some (singleThread lines word) ∧
        singleThread lines word = ((lines.filter fun line => decide (word.chars <:+: text line)).map text).flatten

theorem searchesAlike_of_left (someThread : 0 < numThreads) (small : lines.length < 2 ^ 31)
    (left : share lines.length numThreads * (numThreads - 1) ≤ lines.length) :
    SearchesAlike lines word numThreads := by
  have divides := threadRange_divides someThread small left
  have exactly : ∀ i : Fin numThreads, linesOf lines.length numThreads i =
      {line : Int | ∃ x < (threadRange lines.length numThreads i).count,
        line = ((threadRange lines.length numThreads i).start + x : Nat)} := by
    intro i
    ext line
    rw [linesOf, dataPass_eq someThread small left i, threadRange_eq someThread small left i]
    constructor
    · rintro ⟨low, high⟩
      dsimp only at low high ⊢
      refine ⟨(line - (share lines.length numThreads * i.val : Nat)).toNat, ?_, ?_⟩ <;> omega
    · rintro ⟨x, inRange, rfl⟩
      dsimp only at inRange ⊢
      constructor <;> lia
  have divides' : Divides (threadRange lines.length numThreads) (lines.map some).length := by
    rw [List.length_map]
    exact divides
  have defined : ∀ line ∈ lines.map some, (searchWord word line).isSome := by
    intro line member
    obtain ⟨line, _, rfl⟩ := List.mem_map.mp member
    rfl
  have begun : Progress (searchWord word) (threadRange lines.length numThreads) (lines.map some)
      (allRead lines numThreads) := progress_initial
  refine ⟨?_, ?_, ?_, ?_, ?_, ?_, begun.finishes divides' defined, ?_⟩
  · intro i
    rw [dataPass_eq someThread small left i]
    exact Int.natCast_nonneg _
  · intro i j different
    rw [exactly, exactly]
    refine Set.disjoint_left.mpr ?_
    rintro _ ⟨x, inFirst, rfl⟩ ⟨y, inSecond, same⟩
    exact different (divides.apart i j x y inFirst inSecond (by exact_mod_cast same))
  · intro i
    rw [exactly]
    rintro _ ⟨x, inRange, rfl⟩
    exact ⟨Int.natCast_nonneg _, by exact_mod_cast divides.inside i x inRange⟩
  · rintro line ⟨low, high⟩
    obtain ⟨index, rfl⟩ := Int.eq_ofNat_of_zero_le low
    obtain ⟨i, x, inRange, same⟩ := divides.covers index (by exact_mod_cast high)
    refine Set.mem_iUnion.mpr ⟨i, ?_⟩
    rw [exactly]
    exact ⟨x, inRange, by rw [same]⟩
  · intro events s run busy i unfinished
    obtain ⟨progress, _⟩ := Progress.run divides' defined run begun busy
    obtain ⟨t, completed, _⟩ := progress.step divides' defined unfinished
    exact ⟨t, completed⟩
  · refine ⟨allRemaining (threadRange lines.length numThreads) (allRead lines numThreads), ?_⟩
    intro events s run busy
    obtain ⟨_, bound⟩ := Progress.run divides' defined run begun busy
    lia
  · intro events s run busy joined
    obtain ⟨progress, _⟩ := Progress.run divides' defined run begun busy
    have treatedAll := progress.finished divides' joined
    refine ⟨?_, singleThread_eq lines word⟩
    rw [treatedAll, printResults_of_lt (by simpa using small), printed_alike]

/-- Whatever has printed its results has fewer lines than an `int` can count. -/
theorem SearchesAlike.small (alike : SearchesAlike lines word numThreads) : lines.length < 2 ^ 31 := by
  obtain ⟨events, s, run, busy, joined⟩ := alike.joins
  obtain ⟨printed, _⟩ := alike.prints events s run busy joined
  have bound := printResults_bound (by decide) printed
  rw [run_length run, allRead, initial, List.length_map, Nat.zero_add] at bound
  exact bound

theorem SearchesAlike.left (alike : SearchesAlike lines word numThreads) (someThread : 0 < numThreads)
    (few : numThreads ≤ 128) : share lines.length numThreads * (numThreads - 1) ≤ lines.length := by
  have last := alike.nonnegative ⟨numThreads - 1, Nat.sub_lt someThread Nat.one_pos⟩
  have isLast : ((numThreads - 1 : Nat) : Int) = numThreads - 1 := Nat.cast_pred someThread
  rw [isLast, last_len someThread few alike.small] at last
  omega

end Search

/-- The parallel search is the search with one thread just when there are fewer than 2^31 lines and the
threads but the last, each with the quotient rounded up, do not need more lines than there are. -/
theorem searches_alike_iff (lines : List Line) (word : CString) (numThreads : Nat) (someThread : 1 ≤ numThreads)
    (few : numThreads ≤ 128) : SearchesAlike lines word numThreads ↔ lines.length < 2 ^ 31 ∧
      (lines.length + numThreads - 1) / numThreads * (numThreads - 1) ≤ lines.length := by
  constructor
  · intro alike
    exact ⟨alike.small, alike.left someThread few⟩
  · rintro ⟨small, left⟩
    exact searchesAlike_of_left someThread small left

theorem letter_terminated : (0 : UInt8) ∉ [97] := by decide

/-- The word `a`. -/
def letter : CString := ⟨[97], letter_terminated⟩

/-- Four lines for two threads. -/
theorem four_lines_for_two_threads : SearchesAlike [[97, 10], [98, 10], [99, 10], [97, 98, 10]] letter 2 :=
  (searches_alike_iff _ letter 2 (by decide) (by decide)).mpr (by decide)

/-- Five lines, of which three contain the word. -/
def fiveLines : List Line := [[97, 10], [98, 10], [97, 10], [98, 10], [97, 10]]

/-- Five lines for four threads: the last thread gets one line less than none, and the third looks behind
the last line. -/
theorem five_lines_for_four_threads : ¬ SearchesAlike fiveLines letter 4 ∧ (dataPass 5 4 3).len = -1 ∧
    ∃ events s, Run (threadStep letter 5 4) (allRead fiveLines 4) events s ∧ Busy 5 events ∧
      Unfinished (threadRange 5 4) s 2 ∧ threadStep letter 5 4 s 2 = none := by
  have last : (dataPass 5 4 3).len = -1 := by decide +kernel
  have third : threadRange 5 4 2 = ⟨4, 2⟩ := by decide +kernel
  refine ⟨?_, last, ?_⟩
  · intro alike
    have negative : 0 ≤ (dataPass 5 4 3).len := alike.nonnegative 3
    rw [last] at negative
    exact absurd negative (by decide)
  · have first : threadStep letter 5 4 (allRead fiveLines 4) 2 = some ((), (allRead fiveLines 4).advance 2) := by
      rw [threadStep, RangeWorkers.step, third]
      rfl
    refine ⟨_, _, .taken _ 2 () _ _ [] first (.done _), ?_, ?_, ?_⟩
    · rw [Busy, meets_cons, Unfinished, third]
      exact ⟨by decide, by simp [Meets]⟩
    · rw [Unfinished, third]
      decide
    · rw [threadStep, RangeWorkers.step, third]
      rfl

end Xinu.ParallelSearch
