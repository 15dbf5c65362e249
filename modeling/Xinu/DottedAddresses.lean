import Xinu.CStrings
import Xinu.NumberFormats

/-!
# Addresses in dotted decimal

`dot2ip` reads segments of digits with dots between them and leaves its loop at the end of the string. Its
last test asks whether the loop has gone on after the fourth segment, not whether there were four, so that
one to three segments are an address as well. `ip2dot` prints the four bytes of an address.
-/

namespace Xinu.DottedAddresses

open Numerals Formatting

section Source

/-- The loop over the characters of a segment: its value, the character behind it, and what follows. -/
def segmentLoop : Nat → Nat → Nat → UInt8 → List UInt8 → Option (Nat × UInt8 × List UInt8)
  | 0, _, val, ch, dotted => some (val, ch, dotted)
  | turns + 1, nch, val, _, dotted =>
    let ch := dotted.headD 0
    let dotted := dotted.tail
    if ch = 0 ∨ ch = code '.' then
      if nch = 0 then none else some (val, ch, dotted)
    else if 3 ≤ nch ∨ ch < code '0' ∨ code '9' < ch then none
    else segmentLoop turns (nch + 1) (10 * val + (ch.toNat - 48)) ch dotted

/-- The loop over the segments: their number, but the last one, the character behind them, and the address. -/
def segments : Nat → Nat → UInt32 → UInt8 → List UInt8 → Option (Nat × UInt8 × UInt32)
  | 0, seg, ipaddr, ch, _ => some (seg, ch, ipaddr)
  | turns + 1, seg, ipaddr, ch, dotted =>
    match segmentLoop 4 0 0 ch dotted with
    | none => none
    | some (val, ch, dotted) =>
      if 255 < val then none
      else
        let ipaddr := (ipaddr <<< 8) ||| UInt32.ofNat val
        if ch = 0 then some (seg, ch, ipaddr) else segments turns (seg + 1) ipaddr ch dotted

/-- `dot2ip`: the address that is stored, or none for `SYSERR`. -/
def dot2ip (dotted : CString) : Option UInt32 :=
  match segments 4 0 0 0 dotted.chars with
  | none => none
  | some (seg, ch, ipaddr) => if 4 ≤ seg ∨ ch ≠ 0 then none else some ipaddr

/-- `ip2dot`, with what `string` in `_fdoprnt` held before. -/
def ip2dot (ipaddress : UInt32) (string : List UInt8) : Option (List UInt8) :=
  sprintf ("%d.%d.%d.%d".toList.map code) [.word ((ipaddress >>> 24) &&& 0xff).toInt32,
    .word ((ipaddress >>> 16) &&& 0xff).toInt32, .word ((ipaddress >>> 8) &&& 0xff).toInt32,
    .word (ipaddress &&& 0xff).toInt32] string

end Source

/-- The value of a segment. -/
def value (segment : List UInt8) : Nat := segment.foldl (fun val ch => 10 * val + (ch.toNat - 48)) 0

/-- One to three digits, of a value that a byte holds. -/
structure IsSegment (segment : List UInt8) : Prop where
  some_ : 0 < segment.length
  few : segment.length ≤ 3
  digits : ∀ ch ∈ segment, code '0' ≤ ch ∧ ch ≤ code '9'
  byte : value segment ≤ 255

/-- Segments separated by single dots. -/
def Dotted (parts : List (List UInt8)) (text : List UInt8) : Prop :=
  text = [code '.'].intercalate parts ∧ ∀ segment ∈ parts, IsSegment segment

/-- The number whose bytes are the segments, the first one the most significant. -/
def address (parts : List (List UInt8)) : Nat := parts.foldl (fun ipaddr segment => 256 * ipaddr + value segment) 0

section Parsing

variable {turns nch val seg : Nat} {ch ch' : UInt8} {dotted rest : List UInt8} {ipaddr : UInt32}

/-- A segment stands in front of the end, or of a dot. -/
def Begins (dotted segment : List UInt8) (ch : UInt8) (rest : List UInt8) : Prop :=
  ch = 0 ∧ dotted = segment ∧ rest = [] ∨ ch = code '.' ∧ dotted = segment ++ code '.' :: rest

theorem begins_nil_iff {segment : List UInt8} : Begins [] segment ch rest ↔ segment = [] ∧ ch = 0 ∧ rest = [] := by
  unfold Begins
  constructor
  · rintro (⟨isEnd, isEmpty, isRest⟩ | ⟨_, isEmpty⟩)
    · exact ⟨isEmpty.symm, isEnd, isRest⟩
    · simp at isEmpty
  · rintro ⟨rfl, isEnd, isRest⟩
    exact Or.inl ⟨isEnd, rfl, isRest⟩

/-- The first character is a dot behind no segment, or the first one of the segment. -/
theorem begins_cons_iff {first : UInt8} {others segment : List UInt8} : Begins (first :: others) segment ch rest ↔
    segment = [] ∧ ch = code '.' ∧ first = code '.' ∧ others = rest ∨
      ∃ later, segment = first :: later ∧ Begins others later ch rest := by
  unfold Begins
  cases segment with
  | nil => simp
  | cons digit later =>
    simp only [reduceCtorEq, false_and, false_or, List.cons_append, List.cons.injEq]
    constructor
    · rintro (⟨isEnd, ⟨rfl, same⟩, isRest⟩ | ⟨isEnd, rfl, same⟩)
      · exact ⟨later, ⟨rfl, rfl⟩, Or.inl ⟨isEnd, same, isRest⟩⟩
      · exact ⟨later, ⟨rfl, rfl⟩, Or.inr ⟨isEnd, same⟩⟩
    · rintro ⟨_, ⟨rfl, rfl⟩, ⟨isEnd, same, isRest⟩ | ⟨isEnd, same⟩⟩
      · exact Or.inl ⟨isEnd, ⟨rfl, same⟩, isRest⟩
      · exact Or.inr ⟨isEnd, rfl, same⟩

/-- The loop over a segment takes one to three digits, up to a dot or the end. -/
theorem segmentLoop_iff (all : turns + nch = 4) (early : nch ≤ 3) (noNull : 0 ∉ dotted) {result : Nat} :
    segmentLoop turns nch val ch' dotted = some (result, ch, rest) ↔
      ∃ segment, (∀ ch ∈ segment, code '0' ≤ ch ∧ ch ≤ code '9') ∧ nch + segment.length ≤ 3 ∧ 0 < nch + segment.length ∧
        result = segment.foldl (fun val ch => 10 * val + (ch.toNat - 48)) val ∧ Begins dotted segment ch rest := by
  induction turns generalizing nch val ch' dotted with
  | zero => omega
  | succ turns inductionHypothesis =>
    cases dotted with
    | nil =>
      have ended : segmentLoop (turns + 1) nch val ch' [] = if nch = 0 then none else some (val, 0, []) := by
        unfold segmentLoop
        exact if_pos (Or.inl rfl)
      simp only [ended, begins_nil_iff]
      constructor
      · intro found
        split at found
        · cases found
        case isFalse some_ =>
          cases found
          exact ⟨[], by simp, early, Nat.pos_of_ne_zero some_, rfl, rfl, rfl, rfl⟩
      · rintro ⟨segment, _, _, some_, rfl, rfl, rfl, rfl⟩
        exact if_neg (Nat.ne_of_gt some_)
    | cons first others =>
      have notNull : first ≠ 0 := fun isNull => noNull (isNull ▸ List.mem_cons_self)
      have behind : 0 ∉ others := fun member => noNull (List.mem_cons_of_mem _ member)
      simp only [begins_cons_iff]
      by_cases isDot : first = code '.'
      · have ended : segmentLoop (turns + 1) nch val ch' (first :: others) =
            if nch = 0 then none else some (val, code '.', others) := by
          rw [isDot]
          unfold segmentLoop
          exact if_pos (Or.inr rfl)
        rw [ended]
        constructor
        · intro found
          split at found
          · cases found
          case isFalse some_ =>
            cases found
            exact ⟨[], by simp, early, Nat.pos_of_ne_zero some_, rfl, Or.inl ⟨rfl, rfl, isDot, rfl⟩⟩
        · rintro ⟨segment, digits, _, some_, rfl, ⟨rfl, rfl, _, rfl⟩ | ⟨later, rfl, _⟩⟩
          · exact if_neg (Nat.ne_of_gt some_)
          · have isDigit := digits first List.mem_cons_self
            rw [isDot] at isDigit
            exact absurd isDigit (by decide)
      · by_cases wrong : 3 ≤ nch ∨ first < code '0' ∨ code '9' < first
        · have refused : segmentLoop (turns + 1) nch val ch' (first :: others) = none := by
            unfold segmentLoop
            dsimp only [List.headD_cons]
            rw [if_neg (not_or.mpr ⟨notNull, isDot⟩), if_pos wrong]
          rw [refused]
          refine iff_of_false (by simp) ?_
          rintro ⟨segment, digits, few, _, _, ⟨_, _, isFirst, _⟩ | ⟨later, rfl, _⟩⟩
          · exact isDot isFirst
          · have isDigit := digits first List.mem_cons_self
            rw [List.length_cons] at few
            rcases wrong with late | low | high
            · lia
            · exact absurd isDigit.1 (UInt8.not_le.mpr low)
            · exact absurd isDigit.2 (UInt8.not_le.mpr high)
        · have onward : segmentLoop (turns + 1) nch val ch' (first :: others) =
              segmentLoop turns (nch + 1) (10 * val + (first.toNat - 48)) first others := by
            conv_lhs => unfold segmentLoop
            dsimp only [List.headD_cons, List.tail_cons]
            rw [if_neg (not_or.mpr ⟨notNull, isDot⟩), if_neg wrong]
          have isDigit : code '0' ≤ first ∧ first ≤ code '9' :=
            ⟨UInt8.not_lt.mp fun low => wrong (Or.inr (Or.inl low)), UInt8.not_lt.mp fun high => wrong (Or.inr (Or.inr high))⟩
          rw [onward, inductionHypothesis (by lia) (by lia) behind]
          constructor
          · rintro ⟨segment, digits, few, _, same, begins⟩
            refine ⟨first :: segment, ?_, by rw [List.length_cons]; lia, by rw [List.length_cons]; lia, same,
              Or.inr ⟨segment, rfl, begins⟩⟩
            intro digit member
            rcases List.mem_cons.mp member with rfl | member
            · exact isDigit
            · exact digits digit member
          · rintro ⟨segment, digits, few, _, same, ⟨_, _, isFirst, _⟩ | ⟨later, rfl, begins⟩⟩
            · exact absurd isFirst isDot
            · rw [List.length_cons] at few
              exact ⟨later, fun other member => digits other (List.mem_cons_of_mem _ member), by omega, by lia, same, begins⟩

/-- A segment is read. -/
theorem segment_iff (noNull : 0 ∉ dotted) {result : Nat} : (∃ val, segmentLoop 4 0 0 ch' dotted = some (val, ch, rest) ∧
    ¬ 255 < val ∧ val = result) ↔ ∃ segment, IsSegment segment ∧ value segment = result ∧ Begins dotted segment ch rest := by
  simp only [segmentLoop_iff (show 4 + 0 = 4 from rfl) (Nat.zero_le 3) noNull, Nat.zero_add]
  constructor
  · rintro ⟨_, ⟨segment, digits, few, some_, rfl, begins⟩, byte, rfl⟩
    exact ⟨segment, ⟨some_, few, digits, Nat.le_of_not_lt byte⟩, rfl, begins⟩
  · rintro ⟨segment, isSegment, rfl, begins⟩
    exact ⟨_, ⟨segment, isSegment.digits, isSegment.few, isSegment.some_, rfl, begins⟩, Nat.not_lt.mpr isSegment.byte, rfl⟩

/-- A byte is put behind the bytes of an address. -/
theorem toNat_shiftLeft_or (few : ipaddr.toNat < 2 ^ 24) (byte : val ≤ 255) :
    ((ipaddr <<< 8) ||| UInt32.ofNat val).toNat = 256 * ipaddr.toNat + val := by
  have shifted : (ipaddr <<< 8).toNat = ipaddr.toNat <<< 8 := by
    have bits : (ipaddr <<< 8).toNat = ipaddr.toNat <<< 8 % 2 ^ 32 := rfl
    rw [bits, Nat.shiftLeft_eq]
    exact Nat.mod_eq_of_lt (by omega)
  rw [UInt32.toNat_or, shifted, UInt32.toNat_ofNat_of_lt' (show val < 2 ^ 32 by omega),
    ← Nat.shiftLeft_add_eq_or_of_lt (show val < 2 ^ 8 by omega), Nat.shiftLeft_eq, Nat.mul_comm]

theorem intercalate_cons {parts : List (List UInt8)} (some_ : parts ≠ []) (segment : List UInt8) :
    [code '.'].intercalate (segment :: parts) = segment ++ code '.' :: [code '.'].intercalate parts := by
  obtain ⟨second, others, rfl⟩ := List.exists_cons_of_ne_nil some_
  simp [List.intercalate]

/-- The loop over the segments reads at least one and at most so many as there are turns. -/
theorem segments_iff (all : turns + seg = 4) (noNull : 0 ∉ dotted) (few : ipaddr.toNat < 256 ^ seg) {result : UInt32} :
    (∃ last, segments turns seg ipaddr ch' dotted = some (last, 0, result) ∧ last < 4) ↔
      ∃ parts, parts ≠ [] ∧ parts.length ≤ turns ∧ Dotted parts dotted ∧
        result.toNat = parts.foldl (fun ipaddr segment => 256 * ipaddr + value segment) ipaddr.toNat := by
  induction turns generalizing seg ipaddr ch' dotted with
  | zero =>
    refine iff_of_false ?_ ?_
    · rintro ⟨last, found, early⟩
      cases found
      omega
    · rintro ⟨parts, some_, none_, _⟩
      exact some_ (List.length_eq_zero_iff.mp (Nat.le_zero.mp none_))
  | succ turns inductionHypothesis =>
    have early : seg ≤ 3 := by lia
    have word : ipaddr.toNat < 2 ^ 24 :=
      Nat.lt_of_lt_of_le few (Nat.pow_le_pow_right (show 0 < 256 by decide) early)
    -- One turn, for a segment in front of the end or of a dot.
    have turn : ∀ {segment : List UInt8} {ch : UInt8} {rest : List UInt8}, IsSegment segment →
        Begins dotted segment ch rest → ∃ next : UInt32, next.toNat = 256 * ipaddr.toNat + value segment ∧
          next.toNat < 256 ^ (seg + 1) ∧ segments (turns + 1) seg ipaddr ch' dotted =
            if ch = 0 then some (seg, ch, next) else segments turns (seg + 1) next ch rest := by
      intro segment ch rest isSegment begins
      obtain ⟨val, found, byte, isValue⟩ := (segment_iff noNull).mpr ⟨segment, isSegment, rfl, begins⟩
      refine ⟨(ipaddr <<< 8) ||| UInt32.ofNat val, ?_, ?_, ?_⟩
      · rw [toNat_shiftLeft_or word (Nat.le_of_not_lt byte), isValue]
      · rw [toNat_shiftLeft_or word (Nat.le_of_not_lt byte), Nat.pow_succ]
        lia
      · conv_lhs => unfold segments
        rw [found]
        dsimp only
        rw [if_neg byte]
    constructor
    · rintro ⟨last, found, isEarly⟩
      have begun : ∃ segment ch rest, IsSegment segment ∧ Begins dotted segment ch rest := by
        cases read : segmentLoop 4 0 0 ch' dotted with
        | none =>
          unfold segments at found
          rw [read] at found
          cases found
        | some triple =>
          obtain ⟨val, ch, rest⟩ := triple
          have byte : ¬ 255 < val := by
            intro large
            unfold segments at found
            rw [read] at found
            dsimp only at found
            rw [if_pos large] at found
            cases found
          obtain ⟨segment, isSegment, _, begins⟩ := (segment_iff noNull).mp ⟨val, read, byte, rfl⟩
          exact ⟨segment, ch, rest, isSegment, begins⟩
      obtain ⟨segment, ch, rest, isSegment, begins⟩ := begun
      obtain ⟨next, isNext, nextFew, taken⟩ := turn isSegment begins
      rw [taken] at found
      rcases begins with ⟨rfl, rfl, rfl⟩ | ⟨rfl, rfl⟩
      · rw [if_pos rfl] at found
        cases found
        refine ⟨[dotted], by simp, by simp, ⟨by simp [List.intercalate], ?_⟩, isNext⟩
        intro other member
        rw [List.mem_singleton.mp member]
        exact isSegment
      · rw [if_neg (by decide)] at found
        have behind : 0 ∉ rest := fun member => noNull (List.mem_append_right _ (List.mem_cons_of_mem _ member))
        obtain ⟨parts, some_, fewer, ⟨isText, areSegments⟩, isResult⟩ :=
          (inductionHypothesis (by lia) behind nextFew).mp ⟨last, found, isEarly⟩
        refine ⟨segment :: parts, by simp, by rw [List.length_cons]; lia, ⟨?_, ?_⟩, ?_⟩
        · rw [intercalate_cons some_, ← isText]
        · intro other member
          rcases List.mem_cons.mp member with rfl | member
          · exact isSegment
          · exact areSegments other member
        · rw [List.foldl_cons, ← isNext]
          exact isResult
    · rintro ⟨parts, some_, fewer, ⟨isText, areSegments⟩, isResult⟩
      obtain ⟨segment, others, rfl⟩ := List.exists_cons_of_ne_nil some_
      have isSegment := areSegments segment List.mem_cons_self
      rw [List.length_cons] at fewer
      rw [List.foldl_cons] at isResult
      by_cases alone : others = []
      · subst alone
        have begins : Begins dotted segment 0 [] := Or.inl ⟨rfl, by simpa [List.intercalate] using isText, rfl⟩
        obtain ⟨next, isNext, _, taken⟩ := turn isSegment begins
        obtain rfl : next = result := UInt32.toNat_inj.mp (isNext.trans isResult.symm)
        exact ⟨seg, by rw [taken, if_pos rfl], by omega⟩
      · rw [intercalate_cons alone] at isText
        have begins : Begins dotted segment (code '.') ([code '.'].intercalate others) := Or.inr ⟨rfl, isText⟩
        obtain ⟨next, isNext, nextFew, taken⟩ := turn isSegment begins
        have behind : 0 ∉ [code '.'].intercalate others := by
          intro member
          rw [isText] at noNull
          exact noNull (List.mem_append_right _ (List.mem_cons_of_mem _ member))
        obtain ⟨last, found, isEarly⟩ := (@inductionHypothesis (seg + 1) (code '.') _ next (by lia) behind nextFew).mpr
          ⟨others, alone, by lia, ⟨rfl, fun other member => areSegments other (List.mem_cons_of_mem _ member)⟩,
            isNext ▸ isResult⟩
        exact ⟨last, by rw [taken, if_neg (by decide)]; exact found, isEarly⟩

end Parsing

section Addresses

variable {text : List UInt8} {parts other : List (List UInt8)}

/-- `dot2ip` takes one to four segments. -/
theorem dot2ip_iff (s : CString) (result : UInt32) : dot2ip s = some result ↔
    ∃ parts, parts ≠ [] ∧ parts.length ≤ 4 ∧ Dotted parts s.chars ∧ result.toNat = address parts := by
  refine Iff.trans ?_ (@segments_iff 4 0 0 s.chars 0 rfl s.terminated (by decide) result)
  unfold dot2ip
  cases segments 4 0 0 0 s.chars with
  | none => simp
  | some triple =>
    obtain ⟨last, ch, ipaddr⟩ := triple
    dsimp only
    constructor
    · intro found
      split at found
      · cases found
      case isFalse accepted =>
        obtain ⟨early, isEnd⟩ := not_or.mp accepted
        cases found
        exact ⟨last, by rw [not_not.mp isEnd], Nat.lt_of_not_le early⟩
    · rintro ⟨_, same, early⟩
      cases same
      exact if_neg (not_or.mpr ⟨Nat.not_le.mpr early, not_not.mpr rfl⟩)

/-- Two readings of one text have the same number of segments. -/
theorem Dotted.length_eq (dotted : Dotted parts text) (same : Dotted other text) (some_ : parts ≠ []) (otherSome : other ≠ []) :
    parts.length = other.length := by
  have count : ∀ {parts : List (List UInt8)}, parts ≠ [] → (∀ segment ∈ parts, IsSegment segment) →
      ([code '.'].intercalate parts).count (code '.') + 1 = parts.length := by
    intro parts
    induction parts with
    | nil => exact fun none_ => absurd rfl none_
    | cons segment others inductionHypothesis =>
      intro _ areSegments
      have noDot : segment.count (code '.') = 0 := List.count_eq_zero.mpr fun member =>
        absurd ((areSegments segment List.mem_cons_self).digits _ member) (by decide)
      by_cases alone : others = []
      · subst alone
        simpa [List.intercalate] using noDot
      · have later := inductionHypothesis alone fun other member => areSegments other (List.mem_cons_of_mem _ member)
        rw [intercalate_cons alone, List.count_append, noDot, List.count_cons_self, List.length_cons]
        lia
  have first := count some_ dotted.2
  have second := count otherSome same.2
  rw [← dotted.1] at first
  rw [← same.1] at second
  lia

/-- `dot2ip` takes just the strings of four segments, and stores their bytes. -/
def ParsesExactly (s : CString) : Prop :=
  ∀ result, dot2ip s = some result ↔ ∃ parts, parts.length = 4 ∧ Dotted parts s.chars ∧ result.toNat = address parts

/-- An address of at most four bytes is a word. -/
theorem address_lt (few : parts.length ≤ 4) (areSegments : ∀ segment ∈ parts, IsSegment segment) : address parts < 2 ^ 32 := by
  have bytes : ∀ (parts : List (List UInt8)) (ipaddr count : Nat), (∀ segment ∈ parts, IsSegment segment) →
      ipaddr < 256 ^ count →
      parts.foldl (fun ipaddr segment => 256 * ipaddr + value segment) ipaddr < 256 ^ (count + parts.length) := by
    intro parts
    induction parts with
    | nil => exact fun _ _ _ small => small
    | cons segment others inductionHypothesis =>
      intro ipaddr count areSegments small
      have byte := (areSegments segment List.mem_cons_self).byte
      rw [List.foldl_cons, List.length_cons, show count + (others.length + 1) = count + 1 + others.length by lia]
      refine inductionHypothesis _ _ (fun other member => areSegments other (List.mem_cons_of_mem _ member)) ?_
      rw [Nat.pow_succ]
      lia
  have small := bytes parts 0 0 areSegments (by decide)
  rw [Nat.zero_add] at small
  exact Nat.lt_of_lt_of_le small (Nat.pow_le_pow_right (show 0 < 256 by decide) few)

/-- The decimal numeral of a byte is a segment. -/
theorem isSegment_numeral {n : Nat} (byte : n ≤ 255) :
    IsSegment ((numeral 10 n).map glyph) ∧ value ((numeral 10 n).map glyph) = n ∧ 0 ∉ (numeral 10 n).map glyph := by
  have digits : ∀ ch ∈ (numeral 10 n).map glyph, code '0' ≤ ch ∧ ch ≤ code '9' := by
    intro ch member
    have table : ∀ digit < 10, code '0' ≤ glyph digit ∧ glyph digit ≤ code '9' := by decide
    obtain ⟨digit, isDigit, rfl⟩ := List.mem_map.mp member
    exact table digit (numeral_lt (by decide) isDigit)
  have isValue : value ((numeral 10 n).map glyph) = n := by
    have table : ∀ digit < 10, (glyph digit).toNat - 48 = digit := by decide
    have same : ∀ (ds : List Nat) (val : Nat), (∀ digit ∈ ds, digit < 10) →
        (ds.map glyph).foldl (fun val ch => 10 * val + (ch.toNat - 48)) val =
          ds.foldl (fun value digit => 10 * value + digit) val := by
      intro ds
      induction ds with
      | nil => exact fun _ _ => rfl
      | cons digit ds inductionHypothesis =>
        intro val below
        rw [List.map_cons, List.foldl_cons, List.foldl_cons, table digit (below digit List.mem_cons_self)]
        exact inductionHypothesis _ fun other member => below other (List.mem_cons_of_mem _ member)
    unfold value
    rw [same _ 0 fun digit member => numeral_lt (by decide) member, foldl_numeral]
  refine ⟨⟨?_, ?_, digits, ?_⟩, isValue, fun member => ?_⟩
  · rw [List.length_map]
    exact List.length_pos_of_ne_nil numeral_ne_nil
  · rw [List.length_map]
    exact numeral_length_le (by decide) (by decide) (by lia)
  · rw [isValue]
    exact byte
  · exact absurd (digits 0 member).1 (by decide)

/-- A byte of a word, as `ip2dot` passes it on. -/
theorem byte_eq (word : UInt32) : (word &&& 0xff).toInt32.toInt = (word.toNat % 256 : Nat) := by
  have low : (word &&& 0xff).toNat = word.toNat % 256 := by
    rw [UInt32.toNat_and]
    exact Nat.and_two_pow_sub_one_eq_mod word.toNat 8
  have signed := toInt_eq (word &&& 0xff).toInt32
  have same : (word &&& 0xff).toInt32.toUInt32.toNat = (word &&& 0xff).toNat := rfl
  rw [same, low] at signed
  rw [signed, if_pos (by lia)]

/-- The text of the low byte of a word. -/
def byteText (word : UInt32) : List UInt8 := (numeral 10 (word.toNat % 256)).map glyph

/-- `%d` prints a byte. -/
theorem doprnt_byte (word : UInt32) {fmt tail : List UInt8} {args : List Argument}
    (behind : ∀ string : List UInt8, string.length = 20 → doprnt .fdoprnt fmt args string = some tail) :
    ∀ string : List UInt8, string.length = 20 → doprnt .fdoprnt (code '%' :: code 'd' :: fmt)
      (.word (word &&& 0xff).toInt32 :: args) string = some (byteText word ++ tail) := by
  intro string size
  have value := byte_eq word
  obtain ⟨after, afterSize, printed⟩ := @doprnt_decimal .fdoprnt (word &&& 0xff).toInt32 fmt args string
    (by rw [value]; exact Int.natCast_nonneg _) size
  rw [printed, behind after afterSize, value]
  rfl

/-- A dot behind it. -/
theorem doprnt_dot {fmt tail : List UInt8} {args : List Argument}
    (behind : ∀ string : List UInt8, string.length = 20 → doprnt .fdoprnt fmt args string = some tail) :
    ∀ string : List UInt8, string.length = 20 → doprnt .fdoprnt (code '.' :: fmt) args string = some (code '.' :: tail) := by
  intro string size
  rw [doprnt_char (by decide) (by decide), behind string size]
  rfl

/-- What `ip2dot` prints is read back. -/
theorem dot2ip_ip2dot (a : UInt32) (string : List UInt8) (size : string.length = 20) :
    ∃ s : CString, ip2dot a string = some s.chars ∧ dot2ip s = some a := by
  have printed := doprnt_byte (a >>> 24) (doprnt_dot (doprnt_byte (a >>> 16) (doprnt_dot (doprnt_byte (a >>> 8)
    (doprnt_dot (doprnt_byte a fun _ _ => (rfl : doprnt .fdoprnt [] [] _ = some [])))))))
  rw [List.append_nil] at printed
  have bytes := fun word : UInt32 => @isSegment_numeral (word.toNat % 256) (by omega)
  have noNull : 0 ∉ byteText (a >>> 24) ++ code '.' :: (byteText (a >>> 16) ++ code '.' :: (byteText (a >>> 8) ++
      code '.' :: byteText a)) := by
    have noDot : (0 : UInt8) ≠ code '.' := by decide
    simp only [List.mem_append, List.mem_cons, not_or]
    exact ⟨(bytes _).2.2, noDot, (bytes _).2.2, noDot, (bytes _).2.2, noDot, (bytes _).2.2⟩
  refine ⟨⟨_, noNull⟩, printed string size, (dot2ip_iff _ a).mpr ⟨[byteText (a >>> 24), byteText (a >>> 16),
    byteText (a >>> 8), byteText a], List.cons_ne_nil _ _, le_refl 4, ⟨?_, ?_⟩, ?_⟩⟩
  · simp [List.intercalate]
  · intro segment member
    simp only [List.mem_cons, List.not_mem_nil, or_false] at member
    rcases member with rfl | rfl | rfl | rfl <;> exact (bytes _).1
  · have below := a.toNat_lt
    have values := fun word : UInt32 => (bytes word).2.1
    have shifts : (a >>> 24).toNat = a.toNat / 2 ^ 24 ∧ (a >>> 16).toNat = a.toNat / 2 ^ 16 ∧
        (a >>> 8).toNat = a.toNat / 2 ^ 8 :=
      ⟨Nat.shiftRight_eq_div_pow a.toNat 24, Nat.shiftRight_eq_div_pow a.toNat 16, Nat.shiftRight_eq_div_pow a.toNat 8⟩
    unfold address byteText
    simp only [List.foldl_cons, List.foldl_nil]
    rw [values (a >>> 24), values (a >>> 16), values (a >>> 8), values a, shifts.1, shifts.2.1, shifts.2.2]
    omega

/-- Strings are parsed exactly but those of one to three segments; printed addresses are read back. -/
theorem addresses_parse_iff (s : CString) :
    (ParsesExactly s ↔ ¬ ∃ parts, parts ≠ [] ∧ parts.length ≤ 3 ∧ Dotted parts s.chars) ∧
    ∀ a string, string.length = 20 → ∃ s : CString, ip2dot a string = some s.chars ∧ dot2ip s = some a := by
  refine ⟨⟨?_, ?_⟩, dot2ip_ip2dot⟩
  · rintro exactly ⟨parts, some_, few, dotted⟩
    have small := address_lt (by omega) dotted.2
    have stored : dot2ip s = some (UInt32.ofNat (address parts)) :=
      (dot2ip_iff s _).mpr ⟨parts, some_, by omega, dotted, UInt32.toNat_ofNat_of_lt' small⟩
    obtain ⟨four, isFour, same, _⟩ := (exactly _).mp stored
    have := dotted.length_eq same some_ (List.ne_nil_of_length_pos (by omega))
    lia
  · intro notFewer result
    rw [dot2ip_iff]
    constructor
    · rintro ⟨parts, some_, few, dotted, isResult⟩
      refine ⟨parts, ?_, dotted, isResult⟩
      by_contra notFour
      exact notFewer ⟨parts, some_, by lia, dotted⟩
    · rintro ⟨parts, isFour, dotted, isResult⟩
      exact ⟨parts, List.ne_nil_of_length_pos (by omega), by omega, dotted, isResult⟩

/-- A single segment is taken for an address. -/
theorem one_segment_is_taken : dot2ip ⟨[code '1'], by decide⟩ = some 1 ∧ ¬ ParsesExactly ⟨[code '1'], by decide⟩ := by
  have taken : dot2ip ⟨[code '1'], by decide⟩ = some 1 := by decide +kernel
  refine ⟨taken, fun exactly => ?_⟩
  obtain ⟨parts, isFour, dotted, _⟩ := (exactly 1).mp taken
  have alone : Dotted [[code '1']] [code '1'] := by
    refine ⟨rfl, fun segment member => ?_⟩
    obtain rfl := List.mem_singleton.mp member
    exact ⟨by decide, by decide, by decide +kernel, by decide +kernel⟩
  have length := dotted.length_eq alone (List.ne_nil_of_length_pos (by omega)) (List.cons_ne_nil _ _)
  rw [isFour] at length
  cases length

end Addresses

end Xinu.DottedAddresses
