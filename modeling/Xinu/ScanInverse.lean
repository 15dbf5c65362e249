import Xinu.NumberFormats
import Xinu.Scanning

/-!
# Reading printed numbers

The condition under which `_innum` takes a character asks for a letter in every base, so that no decimal
digit is ever read. `%d` and `%o` read no number, and after a minus sign zero; `%x` reads the letters in
front of the first decimal digit. What `sprintf` prints is read back where it is made of letters.
-/

namespace Xinu.Scanning

open Numerals Formatting

section Reading

variable {base c : UInt8} {s : Source} {lcval : Int32} {np len : Nat} {passed rest after : List UInt8} {ds : List Nat}

/-- The next character, as it is kept. -/
def read (s : Source) : UInt8 × Source := (toChar (sgetch s).1, (sgetch s).2)

theorem toChar_toNat (c : UInt8) : toChar (c.toNat : Int) = c := by
  have below := c.toNat_lt
  unfold toChar
  rw [show ((c.toNat : Int) % 256).toNat = c.toNat by lia, UInt8.ofNat_toNat]

theorem read_cons (some_ : c ≠ 0) : read ⟨passed, c :: rest⟩ = (c, ⟨c :: passed, rest⟩) := by
  have found : sgetch ⟨passed, c :: rest⟩ = ((c.toNat : Int), ⟨c :: passed, rest⟩) := by
    unfold sgetch
    exact if_neg some_
  unfold read
  rw [found, toChar_toNat]

/-- What was passed stays behind. -/
theorem passed_read (nonempty : s.passed ≠ []) : (read s).2.passed ≠ [] := by
  unfold read sgetch
  cases s.rest with
  | nil => exact nonempty
  | cons c rest =>
    dsimp only
    split
    · exact nonempty
    · exact List.cons_ne_nil _ _

theorem takes_of_small_base (apart : base ≠ 16) (c : UInt8) : takes base c = false := by
  have small : (base == 16) = false := by simpa using apart
  unfold takes isdigit
  rw [small, Bool.or_false]
  have table : ∀ c : Fin 256, ((decide (code '0' ≤ UInt8.ofFin c ∧ UInt8.ofFin c ≤ code '9')) &&
      ((decide (code 'a' ≤ UInt8.ofFin c) && decide (UInt8.ofFin c ≤ code 'f')) ||
        (decide (code 'A' ≤ UInt8.ofFin c) && decide (UInt8.ofFin c ≤ code 'F')))) = false := by decide +kernel
  exact table c.toFin

theorem takes_glyph : ∀ digit < 16, takes 16 (glyph digit) = decide (10 ≤ digit) := by decide +kernel

theorem append_glyph {digit : Nat} (letter : 10 ≤ digit) (below : digit < 16) :
    (append 16 lcval (glyph digit)).toUInt32.toNat = (16 * lcval.toUInt32.toNat + digit) % 2 ^ 32 := by
  have table : ∀ digit < 16, 10 ≤ digit → ¬ (code '0' ≤ glyph digit ∧ glyph digit ≤ code '9') ∧
      (code 'a' ≤ glyph digit ∧ glyph digit ≤ code 'f') ∧ (glyph digit - (code 'a' - 10)).toNat = digit := by decide +kernel
  obtain ⟨noDigit, isLetter, value⟩ := table digit below letter
  have shifted : (lcval <<< 4).toUInt32.toNat = 16 * lcval.toUInt32.toNat % 2 ^ 32 := by
    have bits : (lcval <<< 4).toUInt32.toNat = (lcval.toBitVec <<< 4).toNat := rfl
    rw [bits, BitVec.toNat_shiftLeft, Nat.shiftLeft_eq, Nat.mul_comm]
    rfl
  unfold append
  dsimp only
  rw [if_neg (by decide), if_neg (by decide), if_neg noDigit, if_pos isLetter]
  have sum : ∀ left right : Int32, (left + right).toUInt32.toNat =
      (left.toUInt32.toNat + right.toUInt32.toNat) % 2 ^ 32 := fun _ _ => rfl
  have last : (glyph digit - (code 'a' - 10)).toUInt32.toInt32.toUInt32.toNat = digit := value
  rw [sum, shifted, last, Nat.mod_add_mod]

theorem foldl_mod (modulus value : Nat) (ds : List Nat) :
    ds.foldl (fun value digit => 16 * value + digit) (value % modulus) % modulus =
      ds.foldl (fun value digit => 16 * value + digit) value % modulus := by
  induction ds generalizing value with
  | nil => exact Nat.mod_mod value modulus
  | cons digit ds inductionHypothesis =>
    rw [List.foldl_cons, List.foldl_cons, ← inductionHypothesis, ← inductionHypothesis (16 * value + digit),
      Nat.add_mod, Nat.mul_mod, Nat.mod_mod, ← Nat.mul_mod, ← Nat.add_mod]

/-- The letters in front are read. -/
theorem digits_letters (letters : ∀ digit ∈ ds, 10 ≤ digit ∧ digit < 16) (few : np + ds.length < numbufSize)
    (stops : ∀ passed, takes 16 (read ⟨passed, after⟩).1 = false) (more : Nat) :
    ∃ number c s, digits 16 (ds.length + more) lcval np (read ⟨passed, ds.map glyph ++ after⟩).1
        (read ⟨passed, ds.map glyph ++ after⟩).2 = some (number, np + ds.length, c, s) ∧
      number.toUInt32.toNat = ds.foldl (fun value digit => 16 * value + digit) lcval.toUInt32.toNat % 2 ^ 32 ∧
      ((read ⟨passed, ds.map glyph ++ after⟩).2.passed ≠ [] → s.passed ≠ []) := by
  induction ds generalizing lcval np passed with
  | nil =>
    refine ⟨lcval, (read ⟨passed, after⟩).1, (read ⟨passed, after⟩).2, ?_, ?_, id⟩
    · cases more with
      | zero => rfl
      | succ more =>
        unfold digits
        simp [stops passed]
    · exact (Nat.mod_eq_of_lt lcval.toUInt32.toNat_lt).symm
  | cons digit ds inductionHypothesis =>
    obtain ⟨letter, below⟩ := letters digit List.mem_cons_self
    have notNull : glyph digit ≠ 0 := by
      have table : ∀ digit < 16, glyph digit ≠ 0 := by decide
      exact table digit below
    rw [List.length_cons] at few
    obtain ⟨number, c, s, found, value, behind⟩ := @inductionHypothesis (append 16 lcval (glyph digit)) (np + 1)
      (glyph digit :: passed) (fun other member => letters other (List.mem_cons_of_mem _ member)) (by omega)
    refine ⟨number, c, s, ?_, ?_, fun _ => behind (passed_read (List.cons_ne_nil _ _))⟩
    · have taken : takes 16 (glyph digit) = true := by rw [takes_glyph digit below, decide_eq_true letter]
      rw [List.map_cons, List.cons_append, read_cons notNull, List.length_cons, Nat.add_right_comm, digits, if_pos taken,
        if_pos (by lia), show np + (ds.length + 1) = np + 1 + ds.length by lia]
      exact found
    · rw [value, append_glyph letter below, foldl_mod]
      rfl

/-- No character is a digit in the smaller bases. -/
theorem digits_none (apart : base ≠ 16) (len : Nat) : digits base len lcval np c s = some (lcval, np, c, s) := by
  cases len with
  | zero => rfl
  | succ len =>
    unfold digits
    rw [takes_of_small_base apart c]
    rfl

/-- A value of digits that was read in part. -/
theorem foldl_append (value : Nat) (front back : List Nat) :
    (front ++ back).foldl (fun value digit => 16 * value + digit) value =
      16 ^ back.length * front.foldl (fun value digit => 16 * value + digit) value +
        back.foldl (fun value digit => 16 * value + digit) 0 := by
  rw [List.foldl_append]
  induction back using List.reverseRecOn with
  | nil => simp
  | append_singleton back digit inductionHypothesis =>
    rw [List.foldl_append, List.foldl_append, inductionHypothesis, List.length_append, List.length_singleton, Nat.pow_succ]
    simp only [List.foldl_cons, List.foldl_nil]
    ring

end Reading

section Scans

variable {str body rest : List UInt8} {letter : Letter} {number : Option Int32} {s : Source} {c : UInt8} {lcval : Int32}
  {np : Nat}

/-- `_innum` puts the last character back, and never sees the end of the input. -/
theorem finish_eq (nonempty : s.passed ≠ []) (few : np < numbufSize) (negflg : Bool) (lcval : Int32) (c : UInt8) :
    ∃ after, finish true negflg lcval np c s =
      some (if np = 0 then none else some (if negflg then -lcval else lcval), false, after) := by
  obtain ⟨last, passed, isPassed⟩ := List.exists_cons_of_ne_nil nonempty
  have put : sungetch s = some ⟨passed, last :: s.rest⟩ := by
    unfold sungetch
    rw [isPassed]
  have notEnded : decide ((c.toNat : Int) = eof) = false := by
    refine decide_eq_false fun isEof => ?_
    unfold eof at isEof
    omega
  refine ⟨⟨passed, last :: s.rest⟩, ?_⟩
  unfold finish
  simp only [notEnded, put, Bool.false_eq_true, if_false, Option.bind_eq_bind, Option.bind_some, reduceCtorEq, or_false]
  by_cases none_ : np = 0
  · rw [if_pos none_, if_pos none_]
  · rw [if_neg none_, if_neg none_, if_pos few]

/-- What `sscanf` answers and stores for one conversion. -/
def answer : Option Int32 → Int × List Stored
  | some value => (1, [⟨0, .regular, value⟩])
  | none => (0, [])

/-- `sscanf` with one conversion of a number. -/
theorem sscanf_number (isNumber : letter = .d ∨ letter = .o ∨ letter = .x)
    (found : innum true letter.char 30000 ⟨[], str⟩ = some (number, false, s)) :
    sscanf str [code '%', letter.char] = some (answer number) := by
  have field : fieldLength [letter.char] 0 = (0, [letter.char]) := by
    rcases isNumber with rfl | rfl | rfl <;> rfl
  have plain : [letter.char].head? ≠ some (code '%') ∧ [letter.char].head? ≠ some (code '*') ∧
      letter.char ≠ code 'l' ∧ letter.char ≠ code 'h' ∧ isupper letter.char = false ∧ letter.char ≠ 0 := by
    rcases isNumber with rfl | rfl | rfl <;> decide
  obtain ⟨notPercent, notStar, notLong, notShort, notUpper, some_⟩ := plain
  have next : [letter.char].headD 0 = letter.char := rfl
  have size : ((30000 : Int32)).toInt = 30000 := rfl
  unfold sscanf scan
  simp +decide only [if_false, if_true, notPercent, decide_eq_true notStar, field, next, notLong, notShort, notUpper, some_,
    size, found, List.tail_cons]
  cases number <;> rfl

/-- The base of a conversion. -/
def baseOf (letter : Letter) : UInt8 := if letter = .o then 8 else if letter = .x then 16 else 10

/-- A number without a sign. -/
theorem innum_unsigned (isNumber : letter = .d ∨ letter = .o ∨ letter = .x) (some_ : c ≠ 0) (noBlank : isBlank c = false)
    (noMinus : c ≠ code '-') (noPlus : c ≠ code '+') :
    innum true letter.char 30000 ⟨[], c :: rest⟩ = (digits (baseOf letter) 30000 0 0 c ⟨[c], rest⟩).bind
      fun (lcval, np, c, s) => finish true false lcval np c s := by
  have skipped : skipBlanks [] (c :: rest) = ((c.toNat : Int), ⟨[c], rest⟩) := by
    unfold skipBlanks
    rw [if_neg some_, noBlank]
    rfl
  unfold innum
  dsimp only
  rw [skipped]
  dsimp only
  rw [toChar_toNat, if_neg noMinus, if_neg noPlus]
  rcases isNumber with rfl | rfl | rfl <;> rfl

/-- A number with a minus sign. -/
theorem innum_negative (isNumber : letter = .d ∨ letter = .o ∨ letter = .x) :
    innum true letter.char 30000 ⟨[], code '-' :: body⟩ =
      (digits (baseOf letter) 29999 0 1 (read ⟨[code '-'], body⟩).1 (read ⟨[code '-'], body⟩).2).bind
        fun (lcval, np, c, s) => finish true true lcval np c s := by
  rcases isNumber with rfl | rfl | rfl <;> rfl

/-- What `sprintf` prints for a conversion alone. -/
theorem sprintf_letter (v : Int32) {text string : List UInt8} (written : letter.written v = text ++ [0]) (noNull : 0 ∉ text)
    (short : text.length < 20) (size : string.length = 20) :
    sprintf [code '%', letter.char] [.word v] string =
      some ((if letter.negative v then [code '-'] else []) ++ text) := by
  have found : parse [letter.char] [.word v] = some (⟨false, false, 0, 0⟩, [letter.char], [.word v]) := by
    cases letter <;> rfl
  have sign : decide (letter = .d ∧ v < 0) = letter.negative v :=
    decide_eq_decide.mpr (and_congr_right fun _ => Int32.lt_iff_toInt_lt)
  have unlimited : (if letter = .d then (⟨false, false, 0, 0⟩ : Directive).fmax else 0) = 0 := ite_self 0
  obtain ⟨after, converted, _⟩ := (@viaString_eq ⟨false, false, 0, 0⟩ (letter.negative v) 0 string text noNull size).1 short
  unfold sprintf
  rw [doprnt_directive found, sign, unlimited, written, converted, Option.bind_some]
  dsimp only
  have rest : doprnt .fdoprnt [] [] after = some [] := rfl
  have noLimit : limit 0 = 0 := rfl
  rw [rest, Option.map_some, pad_eq ⟨false, false, 0, 0⟩, noLimit, if_pos rfl, List.take_length, List.append_nil]
  unfold requested Directive.width
  dsimp only
  rw [noLimit]
  simp

/-- `sscanf` stores the word that `sprintf` printed, from its text alone or with a blank behind. -/
def Inverts (letter : Letter) (v : Int32) : Prop :=
  ∀ string text tail, string.length = 20 → sprintf [code '%', letter.char] [.word v] string = some text →
    tail = [] ∨ tail.head? = some (code ' ') →
    sscanf (text ++ tail) [code '%', letter.char] = some (1, [⟨0, .regular, v⟩])

/-- The character of a digit begins a number. -/
theorem glyph_begins {digit : Nat} (below : digit < 16) : glyph digit ≠ 0 ∧ isBlank (glyph digit) = false ∧
    glyph digit ≠ code '-' ∧ glyph digit ≠ code '+' := by
  have table : ∀ digit < 16, glyph digit ≠ 0 ∧ isBlank (glyph digit) = false ∧ glyph digit ≠ code '-' ∧
      glyph digit ≠ code '+' := by decide
  exact table digit below

/-- The text of a hexadecimal numeral is read up to its first decimal digit. -/
theorem sscanf_hexadecimal {ds : List Nat} (hexadecimal : ∀ digit ∈ ds, digit < 16) (nonempty : ds ≠ [])
    (few : ds.length ≤ 8) {tail : List UInt8} (ends : tail = [] ∨ tail.head? = some (code ' ')) :
    ∃ value : Int32, sscanf (ds.map glyph ++ tail) [code '%', code 'x'] =
        some (if ds.takeWhile (10 ≤ ·) = [] then (0, []) else (1, [⟨0, .regular, value⟩])) ∧
      value.toUInt32.toNat = (ds.takeWhile (10 ≤ ·)).foldl (fun value digit => 16 * value + digit) 0 % 2 ^ 32 := by
  obtain ⟨first, others, rfl⟩ := List.exists_cons_of_ne_nil nonempty
  obtain ⟨some_, noBlank, noMinus, noPlus⟩ := glyph_begins (hexadecimal first List.mem_cons_self)
  have text : ((first :: others).map glyph ++ tail) = glyph first :: (others.map glyph ++ tail) := rfl
  have read_ := @innum_unsigned (others.map glyph ++ tail) .x (glyph first) (Or.inr (Or.inr rfl)) some_ noBlank noMinus noPlus
  rw [text]
  obtain ⟨letters, isLetters⟩ : ∃ letters, (first :: others).takeWhile (fun digit => decide (10 ≤ digit)) = letters := ⟨_, rfl⟩
  obtain ⟨rest, isRest⟩ : ∃ rest, (first :: others).dropWhile (fun digit => decide (10 ≤ digit)) = rest := ⟨_, rfl⟩
  have parts : letters ++ rest = first :: others := by
    rw [← isLetters, ← isRest]
    exact List.takeWhile_append_dropWhile
  have areLetters : ∀ digit ∈ letters, 10 ≤ digit ∧ digit < 16 := by
    intro digit member
    have isLetter := List.mem_takeWhile_imp (isLetters ▸ member)
    exact ⟨of_decide_eq_true isLetter, hexadecimal digit (parts ▸ List.mem_append_left rest member)⟩
  have stops : ∀ passed, takes 16 (read ⟨passed, rest.map glyph ++ tail⟩).1 = false := by
    intro passed
    cases rest with
    | nil =>
      rcases ends with rfl | blank
      · rfl
      · obtain ⟨behind, rfl⟩ : ∃ behind, tail = code ' ' :: behind := by
          cases tail with
          | nil => cases blank
          | cons c behind => exact ⟨behind, by rw [Option.some.inj blank]⟩
        have noDigit : takes 16 (code ' ') = false := by decide
        rw [List.map_nil, List.nil_append, read_cons (by decide)]
        exact noDigit
    | cons digit rest =>
      have below := hexadecimal digit (parts ▸ List.mem_append_right letters List.mem_cons_self)
      have notLetter : ¬ 10 ≤ digit := by
        have head := List.head?_dropWhile_not (fun digit => decide (10 ≤ digit)) (first :: others)
        rw [isRest] at head
        exact of_decide_eq_false (by simpa using head)
      rw [List.map_cons, List.cons_append, read_cons (glyph_begins below).1, takes_glyph digit below]
      exact decide_eq_false notLetter
  have length : letters.length ≤ 8 := by
    have total := congrArg List.length parts
    rw [List.length_append] at total
    lia
  obtain ⟨number, c, s, found, value, behind⟩ := @digits_letters 0 0 [] (rest.map glyph ++ tail) letters areLetters
    (by unfold numbufSize; omega) stops (30000 - letters.length)
  have start : read ⟨[], letters.map glyph ++ (rest.map glyph ++ tail)⟩ =
      (glyph first, ⟨[glyph first], others.map glyph ++ tail⟩) := by
    rw [← List.append_assoc, ← List.map_append, parts, text, read_cons some_]
  rw [start, Nat.zero_add, Nat.add_sub_cancel' (by lia)] at found
  rw [start] at behind
  obtain ⟨after, finished⟩ := @finish_eq s letters.length (behind (List.cons_ne_nil _ _)) (by unfold numbufSize; omega)
    false number c
  have isBase : baseOf .x = 16 := rfl
  rw [isBase, found, Option.bind_some] at read_
  have scanned := sscanf_number (Or.inr (Or.inr rfl)) (read_.trans finished)
  refine ⟨number, ?_, by rw [isLetters]; exact value⟩
  rw [isLetters]
  refine scanned.trans ?_
  by_cases empty : letters = []
  · rw [if_pos empty, if_pos (by rw [empty]; rfl)]
    rfl
  · rw [if_neg empty, if_neg (fun none_ => empty (List.length_eq_zero_iff.mp none_))]
    rfl

/-- No decimal or octal numeral is read. -/
theorem sscanf_digits (isNumber : letter = .d ∨ letter = .o) {ds : List Nat} (decimal : ∀ digit ∈ ds, digit < 10)
    (nonempty : ds ≠ []) (tail : List UInt8) :
    sscanf (ds.map glyph ++ tail) [code '%', letter.char] = some (0, []) := by
  obtain ⟨first, others, rfl⟩ := List.exists_cons_of_ne_nil nonempty
  have below := decimal first List.mem_cons_self
  obtain ⟨some_, noBlank, noMinus, noPlus⟩ := @glyph_begins first (by omega)
  have isOne : letter = .d ∨ letter = .o ∨ letter = .x := isNumber.elim Or.inl fun isO => Or.inr (Or.inl isO)
  have small : baseOf letter ≠ 16 := by rcases isNumber with rfl | rfl <;> decide
  obtain ⟨after, finished⟩ := @finish_eq ⟨[glyph first], others.map glyph ++ tail⟩ 0 (List.cons_ne_nil _ _) (by decide)
    false 0 (glyph first)
  have read_ := @innum_unsigned (others.map glyph ++ tail) letter (glyph first) isOne some_ noBlank noMinus noPlus
  rw [digits_none small, Option.bind_some] at read_
  rw [List.map_cons, List.cons_append, sscanf_number isOne (read_.trans finished)]
  rfl

/-- Of a negative number zero is read. -/
theorem sscanf_negative (body : List UInt8) :
    sscanf (code '-' :: body) [code '%', code 'd'] = some (1, [⟨0, .regular, 0⟩]) := by
  have small : baseOf .d ≠ 16 := by decide
  have behind : (read ⟨[code '-'], body⟩).2.passed ≠ [] := passed_read (List.cons_ne_nil _ _)
  obtain ⟨after, finished⟩ := @finish_eq (read ⟨[code '-'], body⟩).2 1 behind (by decide) true 0
    (read ⟨[code '-'], body⟩).1
  have read_ := @innum_negative body .d (Or.inl rfl)
  rw [digits_none small, Option.bind_some] at read_
  exact sscanf_number (Or.inl rfl) (read_.trans finished)

/-- Printed numbers are read back just when they are hexadecimal numerals of letters. -/
theorem scanning_inverts_printing_iff (v : Int32) : ¬ Inverts .d v ∧ ¬ Inverts .o v ∧
    (Inverts .x v ↔ ∀ digit ∈ numeral 16 v.toUInt32.toNat, 10 ≤ digit) := by
  have size : (List.replicate 20 (0 : UInt8)).length = 20 := List.length_replicate
  refine ⟨fun inverts => ?_, fun inverts => ?_, ?_⟩
  · have digits_ : ∀ text, Letter.d.written v = text ++ [0] → 0 ∉ text → text.length < 20 →
        sscanf ((if Letter.d.negative v then [code '-'] else []) ++ text) [code '%', code 'd'] =
          some (1, [⟨0, .regular, v⟩]) := by
      intro text written noNull short
      have scanned := inverts _ _ [] size (sprintf_letter v written noNull short size) (Or.inl rfl)
      rwa [List.append_nil] at scanned
    by_cases negative : v.toInt < 0
    · have isNegative : Letter.d.negative v = true := decide_eq_true ⟨rfl, negative⟩
      have stored : some (1, [⟨0, .regular, 0⟩]) = some ((1 : Int), [(⟨0, .regular, v⟩ : Stored)]) := by
        by_cases least : v.toInt = -2 ^ 31
        · have scanned := digits_ _ (prtl10_least v least) (by decide) (by decide)
          rw [isNegative] at scanned
          exact (sscanf_negative _).symm.trans scanned
        · have short : (Letter.d.digits v).length < 20 := (Letter.short_iff .d v).mpr (fun isB => by cases isB)
          have scanned := digits_ _ (Letter.d.written_eq v fun _ => least) (Letter.digits_ne_zero .d v) short
          rw [isNegative] at scanned
          exact (sscanf_negative _).symm.trans scanned
      injection stored with stored
      injection stored with _ stored
      injection stored with stored _
      injection stored with _ _ stored
      rw [← stored] at negative
      exact absurd negative (by decide)
    · have isPositive : Letter.d.negative v = false := decide_eq_false fun holds => negative holds.2
      have short : (Letter.d.digits v).length < 20 := (Letter.short_iff .d v).mpr (fun isB => by cases isB)
      have scanned := digits_ _ (Letter.d.written_eq v fun _ least => negative (by omega)) (Letter.digits_ne_zero .d v) short
      rw [isPositive] at scanned
      have nothing := sscanf_digits (Or.inl rfl) (fun digit member => @numeral_lt 10 _ (by decide) _ member)
        (@numeral_ne_nil 10 (Letter.d.magnitude v)) []
      rw [List.append_nil] at nothing
      cases nothing.symm.trans scanned
  · have short : (Letter.o.digits v).length < 20 := (Letter.short_iff .o v).mpr (fun isB => by cases isB)
    have printed := @sprintf_letter .o v _ _ (prtl8_eq v) (Letter.digits_ne_zero .o v) short size
    have scanned := inverts _ _ [] size printed (Or.inl rfl)
    have nothing := sscanf_digits (Or.inr rfl) (fun digit member => Nat.lt_trans (@numeral_lt 8 _ (by decide) _ member) (by decide))
      (@numeral_ne_nil 8 v.toUInt32.toNat) []
    cases nothing.symm.trans scanned
  · have below := v.toUInt32.toNat_lt
    have hexadecimal : ∀ digit ∈ numeral 16 v.toUInt32.toNat, digit < 16 := fun digit member => numeral_lt (by decide) member
    have few : (numeral 16 v.toUInt32.toNat).length ≤ 8 := numeral_length_le (by decide) (by decide) below
    have short : (Letter.x.digits v).length < 20 := (Letter.short_iff .x v).mpr (fun isB => by cases isB)
    have printed := fun string size => @sprintf_letter .x v _ string (prtl16_eq v) (Letter.digits_ne_zero .x v) short size
    have unsigned_ : Letter.x.negative v = false := decide_eq_false fun holds => by cases holds.1
    have value := foldl_numeral 16 v.toUInt32.toNat
    constructor
    · intro inverts
      obtain ⟨number, scanned, read_⟩ := sscanf_hexadecimal hexadecimal numeral_ne_nil few (Or.inl (@rfl _ []))
      have wanted := inverts _ _ [] size (printed _ size) (Or.inl rfl)
      rw [unsigned_] at wanted
      have result := scanned.symm.trans wanted
      by_cases empty : (numeral 16 v.toUInt32.toNat).takeWhile (fun digit => decide (10 ≤ digit)) = []
      · rw [if_pos empty] at result
        cases result
      · rw [if_neg empty] at result
        injection result with result
        injection result with _ result
        injection result with result _
        injection result with _ _ result
        rw [result] at read_
        have parts := @List.takeWhile_append_dropWhile _ (fun digit => decide (10 ≤ digit)) (numeral 16 v.toUInt32.toNat)
        rw [← parts, foldl_append] at value
        cases rest : (numeral 16 v.toUInt32.toNat).dropWhile (fun digit => decide (10 ≤ digit)) with
        | nil =>
          rw [rest, List.append_nil] at parts
          intro digit member
          rw [← parts] at member
          have isLetter := List.mem_takeWhile_imp member
          exact of_decide_eq_true isLetter
        | cons digit others =>
          rw [rest, List.length_cons, Nat.pow_succ] at value
          have small := Nat.mod_le (((numeral 16 v.toUInt32.toNat).takeWhile (fun digit => decide (10 ≤ digit))).foldl
            (fun value digit => 16 * value + digit) 0) (2 ^ 32)
          have power : 0 < 16 ^ others.length := Nat.pow_pos (by decide)
          have large := Nat.mul_le_mul_right (((numeral 16 v.toUInt32.toNat).takeWhile (fun digit => decide (10 ≤ digit))).foldl
            (fun value digit => 16 * value + digit) 0) (show 16 ≤ 16 ^ others.length * 16 by lia)
          have zero : v.toUInt32.toNat = 0 := by lia
          rw [zero] at empty
          exact absurd rfl empty
    · intro letters string text tail size isText ends
      obtain ⟨number, scanned, read_⟩ := sscanf_hexadecimal hexadecimal numeral_ne_nil few ends
      have all : (numeral 16 v.toUInt32.toNat).takeWhile (fun digit => decide (10 ≤ digit)) = numeral 16 v.toUInt32.toNat :=
        List.takeWhile_eq_self_iff.mpr fun digit member => decide_eq_true (letters digit member)
      rw [all, value, Nat.mod_eq_of_lt below] at read_
      obtain rfl : number = v := congrArg UInt32.toInt32 (UInt32.toNat_inj.mp read_)
      cases (printed string size).symm.trans isText
      rw [unsigned_]
      rw [all, if_neg numeral_ne_nil] at scanned
      exact scanned

/-- The five that was printed is not read. -/
theorem printed_five_is_not_read : sprintf [code '%', code 'd'] [.word 5] (List.replicate 20 0) = some [code '5'] ∧
    sscanf [code '5'] [code '%', code 'd'] = some (0, []) ∧ ¬ Inverts .d 5 := by
  have printed : sprintf [code '%', code 'd'] [.word 5] (List.replicate 20 0) = some [code '5'] := by decide +kernel
  have scanned : sscanf [code '5'] [code '%', code 'd'] = some (0, []) := by decide +kernel
  refine ⟨printed, scanned, fun inverts => ?_⟩
  cases scanned.symm.trans (inverts _ _ [] rfl printed (Or.inl rfl))

end Scans

end Xinu.Scanning
