import Xinu.NumberTexts

/-!
# Conversions of numbers

A conversion puts out the numeral of its word, filled to the width of its directive. It does so but for
three cases: the binary numeral of a word of 20 bits or more does not fit in `string`; `%d` negates the
least word, which stays negative; and `%d` keeps the largest number of characters, which the conversions
beside it clear, so that digits are cut off.
-/

namespace Xinu.Formatting

open Numerals

/-- The conversions of numbers. -/
inductive Letter where
  | d | u | o | x | X | b
deriving DecidableEq

namespace Letter

def char : Letter → UInt8
  | d => code 'd'
  | u => code 'u'
  | o => code 'o'
  | x => code 'x'
  | X => code 'X'
  | b => code 'b'

def base : Letter → Nat
  | d | u => 10
  | o => 8
  | x | X => 16
  | b => 2

/-- The number of a word: `%d` takes it with its sign. -/
def magnitude (letter : Letter) (v : Int32) : Nat := if letter = d then v.toInt.natAbs else v.toUInt32.toNat

def negative (letter : Letter) (v : Int32) : Bool := decide (letter = d ∧ v.toInt < 0)

/-- The numeral of a word, without a sign. -/
def digits (letter : Letter) (v : Int32) : List UInt8 :=
  (numeral letter.base (letter.magnitude v)).map (if letter = X then capitalGlyph else glyph)

end Letter

/-- The width of a directive. -/
def Directive.width (d : Directive) : Nat := (limit d.fmin).toNat

/-- A numeral with its sign, filled up to the width of a directive. -/
def requested (d : Directive) (sign : Bool) (digits : List UInt8) : List UInt8 :=
  let minus := if sign then [code '-'] else []
  let filling := List.replicate (d.width - (minus.length + digits.length)) (if d.zero then code '0' else code ' ')
  if d.leftjust then minus ++ digits ++ filling
  else if d.zero then minus ++ filling ++ digits
  else filling ++ minus ++ digits

/-- The characters of a numeral that a largest number of characters leaves. -/
def Directive.kept (d : Directive) (digits : List UInt8) : Nat :=
  if limit d.fmax = 0 then digits.length else min (limit d.fmax).toNat digits.length

/-- Nothing is cut off a numeral, or zeros that filling puts back. -/
def Directive.Keeps (d : Directive) (sign : Bool) (digits : List UInt8) : Prop :=
  d.kept digits = digits.length ∨ d.leftjust = true ∧ d.zero = true ∧
    (∀ digit ∈ digits.drop (d.kept digits), digit = code '0') ∧
    (if sign then 1 else 0) + digits.length ≤ d.width

section Padding

variable {d : Directive} {sign : Bool} {digits str : List UInt8} {fmax : Int32}

theorem limit_nonneg (field : Int32) : 0 ≤ limit field := by
  unfold limit
  split <;> omega

/-- What `pad` puts out, by the number of characters that it keeps. -/
theorem pad_eq (d : Directive) (sign : Bool) (str : List UInt8) (fmax : Int32) :
    pad d ⟨sign, str, d.zero, fmax⟩ = requested d sign
      (str.take (if limit fmax = 0 then str.length else min (limit fmax).toNat str.length)) := by
  have low := limit_nonneg d.fmin
  have high := limit_nonneg fmax
  obtain ⟨length, isLength⟩ : ∃ length, (if limit fmax = 0 then str.length else min (limit fmax).toNat str.length) =
      length := ⟨_, rfl⟩
  have used : (if limit fmax ≠ 0 ∧ limit fmax < str.length then (limit fmax).toNat else str.length) = length := by
    rw [← isLength]
    split <;> split <;> lia
  have short : length ≤ str.length := by
    rw [← isLength]
    split <;> lia
  have taken : (str.take length).length = length := by
    rw [List.length_take]
    lia
  have amount : (if (limit fmax ≠ 0 ∨ limit d.fmin ≠ 0) ∧ sign = true then
      (if limit d.fmin ≠ 0 then limit d.fmin - length else 0) - 1
      else if limit d.fmin ≠ 0 then limit d.fmin - length else 0).toNat =
        (limit d.fmin).toNat - ((if sign then [code '-'] else []).length + length) := by
    have minus : (if sign = true then [code '-'] else []).length = if sign = true then 1 else 0 := by
      cases sign <;> rfl
    rw [minus]
    obtain ⟨least, isLeast⟩ := Int.eq_ofNat_of_zero_le low
    rw [isLeast]
    by_cases none_ : least = 0
    · subst none_
      cases sign <;> split <;> simp
    · have some_ : ((least : Nat) : Int) ≠ 0 := by lia
      cases sign <;> simp only [some_, ne_eq, not_false_eq_true, or_true, true_and, if_true, reduceCtorEq, and_false,
        if_false] <;> lia
  rw [isLength]
  unfold pad requested Directive.width
  dsimp only
  rw [used, amount, taken]
  cases sign <;> cases d.zero <;> cases d.leftjust <;> simp

theorem mem_requested {c : UInt8} (member : c ∈ digits) : c ∈ requested d sign digits := by
  unfold requested
  dsimp only
  split
  · simp [member]
  · split <;> simp [member]

theorem of_mem_requested {c : UInt8} (member : c ∈ requested d sign digits) :
    c ∈ digits ∨ c = code '-' ∨ c = code ' ' ∨ c = code '0' := by
  have minus : c ∈ (if sign = true then [code '-'] else []) → c = code '-' := by
    intro isMinus
    split at isMinus
    · exact List.mem_singleton.mp isMinus
    · cases isMinus
  have filling : ∀ n, c ∈ List.replicate n (if d.zero = true then code '0' else code ' ') →
      c = code ' ' ∨ c = code '0' := by
    intro n isFilling
    have same := List.eq_of_mem_replicate isFilling
    split at same
    · exact Or.inr same
    · exact Or.inl same
  unfold requested at member
  dsimp only at member
  split at member
  · rcases List.mem_append.mp member with front | behind
    · rcases List.mem_append.mp front with isMinus | isDigit
      · exact Or.inr (Or.inl (minus isMinus))
      · exact Or.inl isDigit
    · exact Or.inr (Or.inr (filling _ behind))
  · split at member
    · rcases List.mem_append.mp member with front | isDigit
      · rcases List.mem_append.mp front with isMinus | isFilling
        · exact Or.inr (Or.inl (minus isMinus))
        · exact Or.inr (Or.inr (Or.inr (List.eq_of_mem_replicate isFilling)))
      · exact Or.inl isDigit
    · rcases List.mem_append.mp member with front | isDigit
      · rcases List.mem_append.mp front with isFilling | isMinus
        · exact Or.inr (Or.inr (Or.inl (List.eq_of_mem_replicate isFilling)))
        · exact Or.inr (Or.inl (minus isMinus))
      · exact Or.inl isDigit

theorem Directive.kept_le (d : Directive) (digits : List UInt8) : d.kept digits ≤ digits.length := by
  unfold Directive.kept
  split <;> lia

theorem Directive.kept_pos (some_ : digits ≠ []) : 0 < d.kept digits := by
  have length := List.length_pos_of_ne_nil some_
  have low := limit_nonneg d.fmax
  unfold Directive.kept
  split <;> lia

/-- The digits of a numeral, told from the characters that fill it. -/
def IsNumeral (digits : List UInt8) : Prop :=
  (∀ digit ∈ digits, digit ≠ code ' ' ∧ digit ≠ code '-') ∧ (1 < digits.length → digits.head? ≠ some (code '0'))

/-- More filling in front of fewer characters does not make the same text, unless the text begins so. -/
theorem begins_with_filling {c : UInt8} {more fewer : Nat} {short long : List UInt8} (shorter : short.length < long.length)
    (same : List.replicate more c ++ short = List.replicate fewer c ++ long) : long.head? = some c := by
  have lengths := congrArg List.length same
  simp only [List.length_append, List.length_replicate] at lengths
  obtain ⟨extra, rfl⟩ : ∃ extra, more = fewer + (extra + 1) := ⟨more - fewer - 1, by omega⟩
  rw [List.replicate_add, List.append_assoc] at same
  rw [← List.append_cancel_left same]
  rfl

/-- Cut digits make another text, but where zeros put them back. -/
theorem requested_take_iff (isNumeral : IsNumeral digits) {kept : Nat} (some_ : 0 < kept) (fewer : kept < digits.length) :
    requested d sign (digits.take kept) = requested d sign digits ↔
      d.leftjust = true ∧ d.zero = true ∧ (∀ digit ∈ digits.drop kept, digit = code '0') ∧
        (if sign then 1 else 0) + digits.length ≤ d.width := by
  obtain ⟨minus, isMinus, signLength⟩ : ∃ minus, (if sign then [code '-'] else []) = minus ∧
      minus.length = if sign then 1 else 0 := by
    cases sign <;> exact ⟨_, rfl, rfl⟩
  have length : (digits.take kept).length = kept := by
    rw [List.length_take]
    lia
  have shorter : (digits.take kept).length < digits.length := by lia
  have restLength : (digits.drop kept).length = digits.length - kept := List.length_drop
  unfold requested
  dsimp only
  rw [isMinus, length]
  cases left : d.leftjust with
  | true =>
    have cancelled : ∀ c, minus ++ digits.take kept ++ List.replicate (d.width - (minus.length + kept)) c =
        minus ++ digits ++ List.replicate (d.width - (minus.length + digits.length)) c ↔
        (∀ digit ∈ digits.drop kept, digit = c) ∧ minus.length + digits.length ≤ d.width := by
      intro c
      have parts : minus ++ digits = minus ++ digits.take kept ++ digits.drop kept := by
        rw [List.append_assoc, List.take_append_drop]
      rw [parts, List.append_assoc (minus ++ digits.take kept), List.append_cancel_left_eq, eq_comm, List.append_eq_replicate_iff,
        List.length_replicate, restLength, List.eq_replicate_iff, restLength]
      constructor
      · rintro ⟨total, ⟨_, all⟩, _⟩
        exact ⟨all, by lia⟩
      · rintro ⟨all, wide⟩
        exact ⟨by lia, ⟨rfl, all⟩, rfl⟩
    simp only [if_true]
    rw [cancelled, signLength]
    cases d.zero with
    | true => simp
    | false =>
      simp only [Bool.false_eq_true, if_false, false_and, and_false, iff_false, not_and]
      intro blanks
      obtain ⟨digit, member⟩ := List.exists_mem_of_length_pos (show 0 < (digits.drop kept).length by lia)
      exact absurd (blanks digit member) (isNumeral.1 digit (List.mem_of_mem_drop member)).1
  | false =>
    simp only [Bool.false_eq_true, if_false, false_and, iff_false]
    cases d.zero with
    | true =>
      simp only [if_true, List.append_assoc, List.append_cancel_left_eq]
      exact fun same => isNumeral.2 (by lia) (begins_with_filling shorter same)
    | false =>
      simp only [Bool.false_eq_true, if_false, List.append_assoc]
      intro same
      have first := begins_with_filling (by simp only [List.length_append]; lia) same
      cases sign with
      | true =>
        subst isMinus
        cases first
      | false =>
        subst isMinus
        obtain ⟨digit, others, isDigits⟩ : ∃ digit others, digits = digit :: others :=
          List.exists_cons_of_length_pos (by lia)
        rw [isDigits] at first
        exact (isNumeral.1 digit (by rw [isDigits]; exact List.mem_cons_self)).1 (Option.some.inj first)

end Padding

section Converting

variable {d : Directive} {letter : Letter} {v : Int32} {sign : Bool} {fmax : Int32} {string text digits : List UInt8}

/-- What a conversion writes into `string`. -/
def Letter.written (letter : Letter) (v : Int32) : List UInt8 :=
  match letter with
  | .d => prtl10 (if v < 0 then -v else v)
  | .u => unsignedText v
  | .o => prtl8 v
  | .x => prtl16 v
  | .X => prtX16 v
  | .b => prtl2 v

theorem convert_letter (printer : Printer) (d : Directive) (letter : Letter) (v : Int32) (others : List Argument)
    (string : List UInt8) :
    convert printer d letter.char (.word v :: others) string =
      (viaString d (decide (letter = .d ∧ v < 0)) (if letter = .d then d.fmax else 0) string (letter.written v)).map
        fun (conversion, string) => ([], conversion, others, string) := by
  unfold convert
  cases letter <;> simp +decide only [Letter.char, Letter.written, if_false, if_true, false_and, true_and, decide_false]

theorem Letter.base_bounds (letter : Letter) : 1 < letter.base ∧ letter.base ≤ 16 := by
  cases letter <;> decide

/-- The characters of a numeral are those of digits. -/
theorem Letter.mem_digits {c : UInt8} (member : c ∈ letter.digits v) :
    ∃ digit < 16, c = glyph digit ∨ c = capitalGlyph digit := by
  obtain ⟨digit, isDigit, rfl⟩ := List.mem_map.mp member
  have below := numeral_lt letter.base_bounds.1 isDigit
  refine ⟨digit, Nat.lt_of_lt_of_le below letter.base_bounds.2, ?_⟩
  by_cases capital : letter = .X
  · exact Or.inr (by rw [if_pos capital])
  · exact Or.inl (by rw [if_neg capital])

/-- The numeral of a word is made of digits. -/
theorem Letter.isNumeral (letter : Letter) (v : Int32) : IsNumeral (letter.digits v) := by
  constructor
  · intro c member
    have table : ∀ digit < 16, (glyph digit ≠ code ' ' ∧ glyph digit ≠ code '-') ∧
        capitalGlyph digit ≠ code ' ' ∧ capitalGlyph digit ≠ code '-' := by decide
    obtain ⟨digit, below, rfl | rfl⟩ := Letter.mem_digits member
    · exact (table digit below).1
    · exact (table digit below).2
  · intro long first
    unfold Letter.digits at long first
    rw [List.length_map] at long
    rw [List.head?_map] at first
    obtain ⟨digit, isFirst, isZero⟩ := Option.map_eq_some_iff.mp first
    have below := numeral_lt letter.base_bounds.1 (List.mem_of_mem_head? isFirst)
    have small := Nat.lt_of_lt_of_le below letter.base_bounds.2
    have zero : digit = 0 := by
      by_cases capital : letter = .X
      · rw [if_pos capital] at isZero
        exact (capitalGlyph_zero_iff digit small).mp isZero
      · rw [if_neg capital] at isZero
        exact (glyph_zero_iff digit small).mp isZero
    exact numeral_head long (zero ▸ isFirst)

/-- The characters of a numeral are not null. -/
theorem Letter.digits_ne_zero (letter : Letter) (v : Int32) : 0 ∉ letter.digits v := by
  intro member
  have table : ∀ digit < 16, glyph digit ≠ 0 ∧ capitalGlyph digit ≠ 0 := by decide
  obtain ⟨digit, below, isZero | isZero⟩ := Letter.mem_digits member
  · exact (table digit below).1 isZero.symm
  · exact (table digit below).2 isZero.symm

/-- The conversions write the numeral of a word and a null, but `%d` of the least word. -/
theorem Letter.written_eq (letter : Letter) (v : Int32) (representable : letter = .d → v.toInt ≠ -2 ^ 31) :
    letter.written v = letter.digits v ++ [0] := by
  cases letter with
  | d =>
    have least := representable rfl
    have low := Int32.le_toInt v
    have high := Int32.toInt_lt v
    unfold Letter.written Letter.digits
    dsimp only [Letter.magnitude, Letter.base]
    rw [if_pos (show Letter.d = Letter.d from rfl), if_neg (show Letter.d ≠ Letter.X by decide)]
    by_cases negative : v < 0
    · have isNegative : v.toInt < 0 := Int32.lt_iff_toInt_lt.mp negative
      have negated : (-v).toInt = -v.toInt := by
        rw [Int32.toInt_neg, Int.bmod_def]
        split <;> omega
      rw [if_pos negative, prtl10_eq (by lia), negated, show (-v.toInt).toNat = v.toInt.natAbs by lia]
    · have isPositive : ¬ v.toInt < 0 := fun isNegative => negative (Int32.lt_iff_toInt_lt.mpr isNegative)
      rw [if_neg negative, prtl10_eq (by lia), show v.toInt.toNat = v.toInt.natAbs by lia]
  | u => exact unsignedText_eq v
  | o => exact prtl8_eq v
  | x => exact prtl16_eq v
  | X => exact prtX16_eq v
  | b => exact prtl2_eq v

/-- A text fits in `string` with its null, or does not. -/
theorem viaString_eq (noNull : 0 ∉ digits) (size : string.length = 20) :
    (digits.length < 20 → ∃ after, viaString d sign fmax string (digits ++ [0]) =
      some (⟨sign, digits, d.zero, fmax⟩, after) ∧ after.length = 20) ∧
    (20 ≤ digits.length → viaString d sign fmax string (digits ++ [0]) = none) := by
  have length : (digits ++ [0]).length = digits.length + 1 := List.length_append
  constructor
  · intro short
    refine ⟨digits ++ [0] ++ string.drop (digits.length + 1), ?_, ?_⟩
    · have fits : write string 0 (digits ++ [0]) = some (digits ++ [0] ++ string.drop (digits.length + 1)) := by
        unfold write
        rw [if_pos (by lia), length, List.take_zero, List.nil_append, Nat.zero_add]
      have text : cstring (digits ++ [0] ++ string.drop (digits.length + 1)) = some digits := by
        unfold cstring
        rw [if_pos (by simp), List.append_assoc, List.takeWhile_append_of_pos]
        · simp
        · intro c member
          exact decide_eq_true fun isNull => noNull (isNull ▸ member)
      unfold viaString
      simp only [fits, text, Option.bind_eq_bind, Option.bind_some]
    · rw [List.length_append, length, List.length_drop]
      omega
  · intro long
    unfold viaString write
    rw [if_neg (by lia)]
    rfl

end Converting

section Printing

variable {printer : Printer} {d : Directive} {letter : Letter} {v : Int32} {fmt rest : List UInt8}
  {args others : List Argument} {string digits : List UInt8} {turns : Nat}

theorem number_length (fmt : List UInt8) (value : Int32) : (number fmt value).2.length ≤ fmt.length := by
  induction fmt generalizing value with
  | nil => exact le_refl _
  | cons c fmt inductionHypothesis =>
    unfold number
    split
    · exact Nat.le_succ_of_le (inductionHypothesis _)
    · exact le_refl _

theorem field_length {value : Int32} (found : field fmt args = some (value, rest, others)) : rest.length ≤ fmt.length := by
  unfold field at found
  split at found
  · split at found
    · cases found
      rw [List.length_tail]
      exact Nat.sub_le _ _
    · cases found
  · cases found
    exact number_length fmt 0

/-- A directive ends behind where it begins. -/
theorem parse_length (found : parse fmt args = some (d, rest, others)) : rest.length ≤ fmt.length := by
  have shorter : ∀ (mark : Bool) (fmt : List UInt8), (if mark then fmt.tail else fmt).length ≤ fmt.length := by
    intro mark fmt
    cases mark
    · exact le_refl _
    · rw [if_pos rfl, List.length_tail]
      exact Nat.sub_le _ _
  unfold parse at found
  simp only [Option.bind_eq_bind, Option.bind_eq_some_iff] at found
  obtain ⟨⟨fmin, middle, args1⟩, isMin, ⟨fmax, last, args2⟩, isMax, same⟩ := found
  cases same
  have first : middle.length ≤ fmt.length :=
    Nat.le_trans (field_length isMin) (Nat.le_trans (shorter _ _) (shorter _ fmt))
  unfold maximum at isMax
  split at isMax
  · have second : last.length ≤ middle.tail.length := field_length isMax
    rw [List.length_tail] at second
    exact Nat.le_trans second (Nat.le_trans (Nat.sub_le _ _) first)
  · cases isMax
    exact first

/-- There are turns enough. -/
theorem print_turns (enough : fmt.length < turns) : print printer turns fmt args string = doprnt printer fmt args string := by
  have same : ∀ turns more, ∀ fmt : List UInt8, fmt.length < turns → fmt.length < more →
      ∀ args string, print printer turns fmt args string = print printer more fmt args string := by
    intro turns
    induction turns with
    | zero => exact fun more fmt few => absurd few (Nat.not_lt_zero _)
    | succ turns inductionHypothesis =>
      intro more fmt few fewToo args string
      obtain ⟨more, rfl⟩ : ∃ before, more = before + 1 := ⟨more - 1, by lia⟩
      cases fmt with
      | nil => rfl
      | cons c fmt =>
        have onward : ∀ rest : List UInt8, rest.length ≤ fmt.length → ∀ args string,
            print printer turns rest args string = print printer more rest args string := by
          intro rest shorter args string
          rw [List.length_cons] at few fewToo
          exact inductionHypothesis more rest (by lia) (by lia) args string
        unfold print
        rw [onward fmt (le_refl _), onward fmt.tail (by rw [List.length_tail]; exact Nat.sub_le _ _)]
        split
        · rfl
        · split
          · rfl
          · cases found : parse fmt args with
            | none => rfl
            | some result =>
              obtain ⟨d, rest, others⟩ := result
              have shorter := parse_length found
              cases rest with
              | nil => rfl
              | cons f rest =>
                have later := fun args string => onward rest (by rw [List.length_cons] at shorter; lia) args string
                simp only [Option.bind_eq_bind, Option.bind_some, later]
  exact same turns (fmt.length + 1) fmt enough (Nat.lt_succ_self _) args string

/-- A directive puts out its conversion, and the rest of the format follows. -/
theorem doprnt_directive (found : parse fmt args = some (d, letter.char :: rest, .word v :: others)) :
    doprnt printer (code '%' :: fmt) args string =
      (viaString d (decide (letter = .d ∧ v < 0)) (if letter = .d then d.fmax else 0) string (letter.written v)).bind
        fun (conversion, after) => (doprnt printer rest others after).map (pad d conversion ++ ·) := by
  have notPercent : fmt.head? ≠ some (code '%') := by
    intro percent
    obtain ⟨behind, rfl⟩ : ∃ behind, fmt = code '%' :: behind := by
      cases fmt with
      | nil => cases percent
      | cons c behind => exact ⟨behind, by rw [Option.some.inj percent]⟩
    have stays : parse (code '%' :: behind) args = some (⟨false, false, 0, 0⟩, code '%' :: behind, args) := by
      have next : (code '%' :: behind).head? = some (code '%') := rfl
      have noDigit : number (code '%' :: behind) 0 = (0, code '%' :: behind) := by
        unfold number
        rw [if_neg (by decide)]
      unfold parse field maximum
      simp +decide only [next, noDigit, if_false, Option.bind_eq_bind, Option.bind_some]
      rfl
    have isPercent : letter.char = code '%' := by
      have result := stays.symm.trans found
      injection result with result
      injection result with _ result
      injection result with result _
      injection result with result _
      exact result.symm
    cases letter <;> exact absurd isPercent (by decide)
  have some_ : letter.char ≠ 0 := by cases letter <;> decide
  have shorter := parse_length found
  rw [List.length_cons] at shorter
  conv_lhs => unfold doprnt print
  rw [if_neg (by decide), if_neg notPercent, found]
  simp only [Option.bind_eq_bind, Option.bind_some, if_neg some_, convert_letter]
  cases viaString d (decide (letter = .d ∧ v < 0)) (if letter = .d then d.fmax else 0) string (letter.written v) with
  | none => rfl
  | some result =>
    simp only [Option.map_some, Option.bind_some, List.nil_append]
    rw [print_turns (by rw [List.length_cons]; omega)]

/-- A conversion puts out its numeral as requested, and writes within `string`. -/
def Prints (printer : Printer) (d : Directive) (letter : Letter) (v : Int32) : Prop :=
  ∀ fmt rest args others string, parse fmt args = some (d, letter.char :: rest, .word v :: others) →
    string.length = 20 → ∃ after, after.length = 20 ∧
      doprnt printer (code '%' :: fmt) args string = (doprnt printer rest others after).map
        (requested d (letter.negative v) (letter.digits v) ++ ·)

/-- Every directive is that of some format. -/
theorem exists_format (d : Directive) (letter : Letter) (v : Int32) :
    ∃ fmt args, parse fmt args = some (d, [letter.char], [.word v]) := by
  refine ⟨(if d.leftjust then [code '-'] else []) ++ (if d.zero then [code '0'] else []) ++
    [code '*', code '.', code '*', letter.char], [.word d.fmin, .word d.fmax, .word v], ?_⟩
  obtain ⟨leftjust, zero, fmin, fmax⟩ := d
  unfold parse field maximum
  cases leftjust <;> cases zero <;> rfl

/-- What a conversion writes decides what it puts out. -/
theorem prints_iff (printer : Printer) (d : Directive) (letter : Letter) (v : Int32) {text : List UInt8}
    (written : letter.written v = text ++ [0]) (noNull : 0 ∉ text) :
    Prints printer d letter v ↔ text.length < 20 ∧
      requested d (letter.negative v) (text.take (if letter = .d then d.kept text else text.length)) =
        requested d (letter.negative v) (letter.digits v) := by
  have sign : decide (letter = .d ∧ v < 0) = letter.negative v := by
    exact decide_eq_decide.mpr (and_congr_right fun _ => Int32.lt_iff_toInt_lt)
  have cut : (if limit (if letter = .d then d.fmax else 0) = 0 then text.length
      else min (limit (if letter = .d then d.fmax else 0)).toNat text.length) =
      if letter = .d then d.kept text else text.length := by
    by_cases isD : letter = .d
    · rw [if_pos isD, if_pos isD]
      rfl
    · rw [if_neg isD, if_neg isD]
      rfl
  have converted : ∀ string : List UInt8, string.length = 20 → (text.length < 20 → ∃ after,
      viaString d (decide (letter = .d ∧ v < 0)) (if letter = .d then d.fmax else 0) string (letter.written v) =
        some (⟨letter.negative v, text, d.zero, if letter = .d then d.fmax else 0⟩, after) ∧ after.length = 20) ∧
      (20 ≤ text.length →
        viaString d (decide (letter = .d ∧ v < 0)) (if letter = .d then d.fmax else 0) string (letter.written v) = none) := by
    intro string size
    rw [written, sign]
    exact viaString_eq noNull size
  constructor
  · intro prints
    obtain ⟨fmt, args, found⟩ := exists_format d letter v
    have size : (List.replicate 20 (0 : UInt8)).length = 20 := List.length_replicate
    obtain ⟨after, _, output⟩ := prints fmt [] args [] (List.replicate 20 0) found size
    have nothing : ∀ after, doprnt printer [] [] after = some [] := fun _ => rfl
    rw [doprnt_directive found, nothing, Option.map_some] at output
    rcases Nat.lt_or_ge text.length 20 with short | long
    · obtain ⟨other, result, _⟩ := (converted _ size).1 short
      rw [result, Option.bind_some] at output
      dsimp only at output
      rw [nothing, Option.map_some, pad_eq, cut, List.append_nil, List.append_nil] at output
      exact ⟨short, Option.some.inj output⟩
    · rw [(converted _ size).2 long] at output
      cases output
  · rintro ⟨short, same⟩ fmt rest args others string found size
    obtain ⟨after, result, afterSize⟩ := (converted string size).1 short
    refine ⟨after, afterSize, ?_⟩
    rw [doprnt_directive found, result, Option.bind_some]
    dsimp only
    rw [pad_eq, cut, same]

/-- The numerals fit in `string`, but long binary ones. -/
theorem Letter.short_iff (letter : Letter) (v : Int32) :
    (letter.digits v).length < 20 ↔ (letter = .b → v.toUInt32.toNat < 2 ^ 19) := by
  have below := v.toUInt32.toNat_lt
  have absolute : v.toInt.natAbs < 10 ^ 10 := by
    have low := Int32.le_toInt v
    have high := Int32.toInt_lt v
    omega
  have few : ∀ base n count, 1 < base → 0 < count → count < 20 → n < base ^ count → (numeral base n).length < 20 :=
    fun base n count big some_ small less => Nat.lt_of_le_of_lt (numeral_length_le big some_ less) small
  unfold Letter.digits
  rw [List.length_map]
  cases letter with
  | d => exact iff_of_true (few 10 _ 10 (by decide) (by decide) (by decide) absolute) (fun isB => by cases isB)
  | u =>
    exact iff_of_true (few 10 _ 10 (by decide) (by decide) (by decide) (Nat.lt_trans below (by decide)))
      (fun isB => by cases isB)
  | o =>
    exact iff_of_true (few 8 _ 11 (by decide) (by decide) (by decide) (Nat.lt_trans below (by decide)))
      (fun isB => by cases isB)
  | x => exact iff_of_true (few 16 _ 8 (by decide) (by decide) (by decide) below) (fun isB => by cases isB)
  | X => exact iff_of_true (few 16 _ 8 (by decide) (by decide) (by decide) below) (fun isB => by cases isB)
  | b =>
    have magnitude : Letter.b.magnitude v = v.toUInt32.toNat := rfl
    rw [magnitude]
    constructor
    · intro short _
      by_contra large
      have notZero : v.toUInt32.toNat ≠ 0 := by lia
      have length : 19 < (Nat.digits 2 v.toUInt32.toNat).length :=
        (Nat.lt_digits_length_iff (by decide) _).mpr (by lia)
      unfold numeral at short
      rw [if_neg notZero, List.length_reverse] at short
      have isBase : Letter.b.base = 2 := rfl
      rw [isBase] at short
      lia
    · exact fun small => few 2 _ 19 (by decide) (by decide) (by decide) (small rfl)

/-- The text of the least word for `%d`. -/
theorem prtl10_least (v : Int32) (least : v.toInt = -2 ^ 31) :
    Letter.d.written v = "./,),(-*,(".toList.map code ++ [0] := by
  obtain rfl : v = Int32.minValue := Int32.toInt_inj.mp least
  decide +kernel

/-- The other conversions write within `string`: a character and its null, or two hexadecimal numerals of which the
second begins at the ninth place. -/
def OthersFit (string : List UInt8) : Prop :=
  (∀ larg, (write string 0 [toChar larg, 0]).isSome) ∧
  ∀ text ∈ [prtl16, prtX16], ∀ first second, ∃ after, write string 0 (text first) = some after ∧
    (write after 8 (text second)).isSome

theorem others_fit (size : string.length = 20) : OthersFit string := by
  have short : ∀ text ∈ [prtl16, prtX16], ∀ num, (text num).length ≤ 9 := by
    intro text member num
    have few := @numeral_length_le 16 8 num.toUInt32.toNat (by decide) (by decide) num.toUInt32.toNat_lt
    rcases List.mem_cons.mp member with rfl | member
    · rw [prtl16_eq, List.length_append, List.length_map]
      exact Nat.succ_le_succ few
    · obtain rfl := List.mem_singleton.mp member
      rw [prtX16_eq, List.length_append, List.length_map]
      exact Nat.succ_le_succ few
  constructor
  · intro larg
    unfold write
    rw [if_pos (show 0 + [toChar larg, 0].length ≤ string.length by rw [size]; exact Nat.le_add_left 2 18)]
    rfl
  · intro text member first second
    have fitsFirst := short text member first
    have fitsSecond := short text member second
    unfold write
    rw [if_pos (by lia)]
    refine ⟨_, rfl, ?_⟩
    rw [if_pos]
    · rfl
    · simp only [List.length_append, List.length_take, List.length_drop]
      lia

/-- The conversions of numbers are exact just when a binary numeral has less than 20 digits, and for `%d` the word is
not the least one and no digits are lost by a largest number of characters. -/
theorem numbers_are_printed_iff (printer : Printer) (d : Directive) (letter : Letter) (v : Int32) :
    (Prints printer d letter v ↔ (letter = .b → v.toUInt32.toNat < 2 ^ 19) ∧
      (letter = .d → v.toInt ≠ -2 ^ 31 ∧ d.Keeps (letter.negative v) (letter.digits v))) ∧
    ∀ string : List UInt8, string.length = 20 → OthersFit string := by
  refine ⟨?_, fun string size => others_fit size⟩
  by_cases least : letter = .d ∧ v.toInt = -2 ^ 31
  · obtain ⟨rfl, least⟩ := least
    rw [prints_iff printer d .d v (prtl10_least v least) (by decide)]
    refine iff_of_false ?_ fun holds => (holds.2 rfl).1 least
    rintro ⟨_, same⟩
    obtain ⟨more, positive⟩ : ∃ more, (if Letter.d = Letter.d then d.kept ("./,),(-*,(".toList.map code)
        else ("./,),(-*,(".toList.map code).length) = more + 1 := by
      have some_ := @Directive.kept_pos d ("./,),(-*,(".toList.map code) (by decide)
      rw [if_pos rfl]
      exact ⟨_, (Nat.succ_pred_eq_of_pos some_).symm⟩
    have point : code '.' ∈ requested d (Letter.d.negative v) (Letter.d.digits v) := by
      rw [← same, positive]
      exact mem_requested List.mem_cons_self
    rcases of_mem_requested point with isDigit | isMinus | isBlank | isZero
    · have table : ∀ digit < 16, code '.' ≠ glyph digit ∧ code '.' ≠ capitalGlyph digit := by decide
      obtain ⟨digit, below, isGlyph | isGlyph⟩ := Letter.mem_digits isDigit
      · exact (table digit below).1 isGlyph
      · exact (table digit below).2 isGlyph
    · exact absurd isMinus (by decide)
    · exact absurd isBlank (by decide)
    · exact absurd isZero (by decide)
  · have representable : letter = .d → v.toInt ≠ -2 ^ 31 := fun isD isLeast => least ⟨isD, isLeast⟩
    rw [prints_iff printer d letter v (letter.written_eq v representable) (letter.digits_ne_zero v), letter.short_iff v]
    refine and_congr_right fun _ => ?_
    by_cases isD : letter = .d
    · rw [if_pos isD]
      have keeps : requested d (letter.negative v) ((letter.digits v).take (d.kept (letter.digits v))) =
          requested d (letter.negative v) (letter.digits v) ↔ d.Keeps (letter.negative v) (letter.digits v) := by
        have some_ : (letter.digits v) ≠ [] := by
          unfold Letter.digits
          simpa using numeral_ne_nil
        have kept := Directive.kept_le d (letter.digits v)
        unfold Directive.Keeps
        rcases Nat.lt_or_eq_of_le kept with fewer | all
        · rw [requested_take_iff (letter.isNumeral v) (Directive.kept_pos some_) fewer]
          exact ⟨Or.inr, fun holds => holds.resolve_left (Nat.ne_of_lt fewer)⟩
        · rw [all, List.take_length]
          exact iff_of_true rfl (Or.inl rfl)
      rw [keeps]
      exact ⟨fun holds _ => ⟨representable isD, holds⟩, fun holds => (holds isD).2⟩
    · rw [if_neg isD, List.take_length]
      exact iff_of_true rfl fun isIt => absurd isIt isD

/-- A character that is no directive is put out. -/
theorem doprnt_char {c : UInt8} (noDirective : c ≠ code '%') (some_ : c ≠ 0) :
    doprnt printer (c :: fmt) args string = (doprnt printer fmt args string).map (c :: ·) := by
  conv_lhs => unfold doprnt print
  rw [if_pos noDirective, if_neg some_]
  rfl

/-- `%d` alone of a word that is not negative. -/
theorem doprnt_decimal (nonneg : 0 ≤ v.toInt) (size : string.length = 20) : ∃ after, after.length = 20 ∧
    doprnt printer (code '%' :: code 'd' :: rest) (.word v :: others) string =
      (doprnt printer rest others after).map ((numeral 10 v.toInt.toNat).map glyph ++ ·) := by
  have short : (Letter.d.digits v).length < 20 := (Letter.short_iff .d v).mpr (fun isB => by cases isB)
  have written := Letter.d.written_eq v fun _ => by omega
  have kept : (⟨false, false, 0, 0⟩ : Directive).kept (Letter.d.digits v) = (Letter.d.digits v).length := if_pos rfl
  have prints := (prints_iff printer ⟨false, false, 0, 0⟩ .d v written (Letter.digits_ne_zero .d v)).mpr
    ⟨short, by rw [if_pos rfl, kept, List.take_length]⟩
  obtain ⟨after, afterSize, output⟩ := prints (code 'd' :: rest) rest (.word v :: others) others string rfl size
  have isPositive : Letter.d.negative v = false := decide_eq_false fun holds => by omega
  have digits : requested ⟨false, false, 0, 0⟩ (Letter.d.negative v) (Letter.d.digits v) =
      (numeral 10 v.toInt.toNat).map glyph := by
    have noWidth : (⟨false, false, 0, 0⟩ : Directive).width = 0 := rfl
    have isDigits : Letter.d.digits v = (numeral 10 v.toInt.toNat).map glyph := by
      unfold Letter.digits Letter.magnitude Letter.base
      rw [if_pos rfl, if_neg (show Letter.d ≠ Letter.X by decide), show v.toInt.natAbs = v.toInt.toNat by lia]
    unfold requested
    rw [isPositive, noWidth, isDigits]
    simp
  rw [digits] at output
  exact ⟨after, afterSize, output⟩

/-- A binary numeral of 20 digits does not fit, and the least word is not printed as its numeral. -/
theorem long_and_least_words_fail : ¬ Prints .fdoprnt ⟨false, false, 0, 0⟩ .b 0x80000 ∧
    ¬ Prints .fdoprnt ⟨false, false, 0, 0⟩ .d (-2147483648) := by
  constructor
  · intro prints
    obtain ⟨after, _, output⟩ := prints [code 'b'] [] [.word 0x80000] [] (List.replicate 20 0) rfl rfl
    have nothing : doprnt .fdoprnt [code '%', code 'b'] [.word 0x80000] (List.replicate 20 0) = none := by decide +kernel
    rw [nothing] at output
    cases output
  · intro prints
    obtain ⟨after, _, output⟩ := prints [code 'd'] [] [.word (-2147483648)] [] (List.replicate 20 0) rfl rfl
    have printed : doprnt .fdoprnt [code '%', code 'd'] [.word (-2147483648)] (List.replicate 20 0) =
        some ("-./,),(-*,(".toList.map code) := by decide +kernel
    have wanted : requested ⟨false, false, 0, 0⟩ (Letter.d.negative (-2147483648)) (Letter.d.digits (-2147483648)) =
        "-2147483648".toList.map code := by decide +kernel
    have rest : doprnt .fdoprnt [] [] after = some [] := rfl
    rw [printed, rest, wanted] at output
    exact absurd (Option.some.inj output) (by decide)

end Printing

end Xinu.Formatting
