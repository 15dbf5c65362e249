import Xinu.LineTokens

/-!
# The lexer stays inside of its buffers

Every turn of the loop of `lexan` that writes bytes takes as many characters of the line, apart from the null
behind a token, and there are at most 32 tokens. The scan is followed to the end of the loop, also where
the answer is `SYSERR`.
-/

namespace Xinu.LineTokens

open CIntegers StoredBytes

/-- The loop of `lexan` with the scan at its end. The first part is false for `SYSERR`. -/
def scanLoop : Nat → List UInt8 → Scan → Option (Bool × Scan)
  | 0, _, _ => none
  | turns + 1, p, s =>
    if AtEnd p then some (true, s)
    else if shellMaxtok ≤ s.ntok then some (false, s)
    else
      let p := skipBlanks p
      let ch := p.headD 0
      if AtEnd p then some (true, s)
      else if ch = shAmper then scanLoop turns p.tail ((s.start shTokAmper).puts [ch]).finish
      else if ch = shLess then scanLoop turns p.tail ((s.start shTokLess).puts [ch]).finish
      else if ch = shGreater then scanLoop turns p.tail ((s.start shTokGreater).puts [ch]).finish
      else if ch = shSquote ∨ ch = shDquote then
        let (p, last, s) := quotedLoop ch p.tail (s.start shTokOther)
        if last ≠ ch then some (false, s) else scanLoop turns p s.finish
      else
        let (p, s) := wordLoop p.tail ((s.start shTokOther).puts [ch])
        let ch := p.headD 0
        if ch = shSquote ∨ ch = shDquote ∨ ch = shLess ∨ ch = shGreater then some (false, s)
        else scanLoop turns p s.finish

/-- `lexan` with the scan at its end. -/
def lexanScan (line : List UInt8) (tokbuf : Memory) (tok : Nat → Nat) (toktyp : Nat → Int) : Option (Bool × Scan) :=
  scanLoop (line.length + 1) line ⟨0, 0, tokbuf, tok, toktyp⟩

/-- What `lexan` answers, of the scan at its end. -/
def answer : Bool × Scan → Option Scan
  | (okay, s) => if okay then some s else none

/-- What a scan writes: at most some bytes behind its place in the token buffer, and entries of the
arrays for tokens below the limit. -/
structure Within (s after : Scan) (room : Nat) : Prop where
  count : after.ntok ≤ shellMaxtok
  tbindex : after.tbindex ≤ s.tbindex + room
  tokbuf : ∀ i, s.tbindex + room ≤ i → after.tokbuf i = s.tokbuf i
  tok : ∀ i, shellMaxtok ≤ i → after.tok i = s.tok i
  toktyp : ∀ i, shellMaxtok ≤ i → after.toktyp i = s.toktyp i

/-- The tokens lie in the token buffer back to back, each with a null behind it. -/
def BackToBack (s : Scan) : Prop :=
  ∃ texts : List (List UInt8), texts.length = s.ntok ∧ (∀ text ∈ texts, 0 ∉ text) ∧
    (if s.ntok = 0 then s.tbindex = 0 else s.tok 0 = 0) ∧
    ∀ i text, texts[i]? = some text → Holds s.tokbuf (s.tok i) (text ++ [0]) ∧
      s.tok i + text.length + 1 = if i + 1 < s.ntok then s.tok (i + 1) else s.tbindex

section Agreement

variable {s : Scan} {p : List UInt8} {turns : Nat}

/-- The two loops answer the same. -/
theorem lexanLoop_eq_scanLoop : lexanLoop turns p s = (scanLoop turns p s).map answer := by
  induction turns generalizing p s with
  | zero => simp only [lexanLoop, scanLoop, Option.map_none]
  | succ turns inductionHypothesis =>
    unfold lexanLoop scanLoop
    by_cases atEnd : AtEnd p
    · simp only [if_pos atEnd, Option.map_some, answer, if_true]
    by_cases full : shellMaxtok ≤ s.ntok
    · simp [atEnd, full, answer]
    simp only [if_neg atEnd, if_neg full]
    generalize skipBlanks p = p
    by_cases blanksOnly : AtEnd p
    · simp only [if_pos blanksOnly, Option.map_some, answer, if_true]
    simp only [if_neg blanksOnly, inductionHypothesis]
    by_cases amper : p.headD 0 = shAmper
    · simp only [if_pos amper]
    by_cases less : p.headD 0 = shLess
    · simp only [if_neg amper, if_pos less]
    by_cases greater : p.headD 0 = shGreater
    · simp only [if_neg amper, if_neg less, if_pos greater]
    simp only [if_neg amper, if_neg less, if_neg greater]
    by_cases quote : p.headD 0 = shSquote ∨ p.headD 0 = shDquote
    · simp only [if_pos quote]
      by_cases closed : (quotedLoop (p.headD 0) p.tail (s.start shTokOther)).2.1 ≠ p.headD 0
      · simp only [if_pos closed, Option.map_some, answer, Bool.false_eq_true, if_false]
      · simp only [if_neg closed]
    · simp only [if_neg quote]
      generalize wordLoop p.tail ((s.start shTokOther).puts [p.headD 0]) = read
      by_cases joined : read.1.headD 0 = shSquote ∨ read.1.headD 0 = shDquote ∨ read.1.headD 0 = shLess ∨
          read.1.headD 0 = shGreater
      · simp only [if_pos joined, Option.map_some, answer, Bool.false_eq_true, if_false]
      · simp only [if_neg joined]

end Agreement

section Consumption

variable {s after : Scan} {p rest : List UInt8} {ch last quote : UInt8}

theorem characters_cons (inLine : ch ≠ 0 ∧ ch ≠ shNewline) : characters (ch :: p) = ch :: characters p :=
  List.takeWhile_cons_of_pos (decide_eq_true inLine)

theorem characters_tail (notEnd : ¬ AtEnd p) : (characters p.tail).length + 1 = (characters p).length := by
  cases p with
  | nil => exact absurd (Or.inl rfl) notEnd
  | cons ch p =>
    have inLine : ch ≠ 0 ∧ ch ≠ shNewline := not_or.mp notEnd
    simp only [characters_cons inLine, List.tail_cons, List.length_cons]

theorem characters_skipBlanks : (characters (skipBlanks p)).length ≤ (characters p).length := by
  induction p with
  | nil => exact le_refl _
  | cons ch p inductionHypothesis =>
    by_cases isBlank : Blank ch
    · have skips : skipBlanks (ch :: p) = skipBlanks p := if_pos isBlank
      simp only [skips, characters_cons isBlank.inLine, List.length_cons]
      omega
    · have stays : skipBlanks (ch :: p) = ch :: p := if_neg isBlank
      simp only [stays, le_refl]

/-- The loop over a string writes the characters that it takes. A quote at its end is one more. -/
theorem quotedLoop_takes (inLine : quote ≠ 0 ∧ quote ≠ shNewline)
    (looped : quotedLoop quote p s = (rest, last, after)) :
    ∃ text, after = s.puts text ∧ text.length ≤ (characters p).length ∧
      (last = quote → text.length + 1 + (characters rest).length ≤ (characters p).length) := by
  induction p generalizing s with
  | nil =>
    cases looped
    exact ⟨[], puts_nil.symm, le_refl _, fun same => absurd same.symm inLine.1⟩
  | cons ch p inductionHypothesis =>
    by_cases goesOn : ch ≠ quote ∧ ch ≠ shNewline ∧ ch ≠ 0
    · have here := characters_cons (p := p) ⟨goesOn.2.2, goesOn.2.1⟩
      unfold quotedLoop at looped
      rw [if_pos goesOn] at looped
      obtain ⟨text, isAfter, short, closed⟩ := inductionHypothesis looped
      refine ⟨ch :: text, isAfter.trans puts_puts, ?_, fun same => ?_⟩
      · simp only [here, List.length_cons]
        omega
      · have rest := closed same
        simp only [here, List.length_cons]
        lia
    · unfold quotedLoop at looped
      rw [if_neg goesOn] at looped
      cases looped
      refine ⟨[], puts_nil.symm, Nat.zero_le _, fun same => ?_⟩
      subst same
      simp only [characters_cons inLine, List.length_nil, List.length_cons]
      omega

/-- The loop over a word writes the characters that it takes. -/
theorem wordLoop_takes (looped : wordLoop p s = (rest, after)) :
    ∃ text, after = s.puts text ∧ text.length + (characters rest).length = (characters p).length := by
  induction p generalizing s with
  | nil =>
    cases looped
    exact ⟨[], puts_nil.symm, Nat.zero_add _⟩
  | cons ch p inductionHypothesis =>
    by_cases goesOn : ch ≠ shNewline ∧ ch ≠ 0 ∧ ch ≠ shLess ∧ ch ≠ shGreater ∧ ch ≠ shBlank ∧ ch ≠ shTab ∧
        ch ≠ shAmper ∧ ch ≠ shSquote ∧ ch ≠ shDquote
    · have here := characters_cons (p := p) ⟨goesOn.2.1, goesOn.1⟩
      unfold wordLoop at looped
      rw [if_pos goesOn] at looped
      obtain ⟨text, isAfter, taken⟩ := inductionHypothesis looped
      refine ⟨ch :: text, isAfter.trans puts_puts, ?_⟩
      simp only [here, List.length_cons]
      lia
    · unfold wordLoop at looped
      rw [if_neg goesOn] at looped
      cases looped
      exact ⟨[], puts_nil.symm, Nat.zero_add _⟩

end Consumption

section Turns

variable {s after : Scan} {p text : List UInt8} {typ : Int} {room more turns : Nat} {okay : Bool}

theorem Within.refl (few : s.ntok ≤ shellMaxtok) (room : Nat) : Within s s room :=
  ⟨few, Nat.le_add_right _ _, fun _ _ => rfl, fun _ _ => rfl, fun _ _ => rfl⟩

theorem Within.mono (within : Within s after room) (enough : room ≤ more) : Within s after more :=
  ⟨within.count, within.tbindex.trans (Nat.add_le_add_left enough _), fun i beyond => within.tokbuf i (by lia),
    within.tok, within.toktyp⟩

/-- The text of a token, without its end. -/
theorem Within.started (few : s.ntok < shellMaxtok) : Within s ((s.start typ).puts text) text.length := by
  constructor
  · exact few.le
  · exact le_refl _
  · intro i beyond
    exact store_outside (Or.inr beyond)
  · intro i high
    exact Function.update_of_ne (by lia) _ _
  · intro i high
    exact Function.update_of_ne (by omega) _ _

/-- A token, and what the later turns write. -/
theorem Within.token (few : s.ntok < shellMaxtok)
    (within : Within ((s.start typ).puts text).finish after room) : Within s after (text.length + 1 + room) := by
  have first := @Within.started s text typ few
  have index : ((s.start typ).puts text).finish.tbindex = s.tbindex + text.length + 1 := rfl
  have bound := within.tbindex
  constructor
  · exact within.count
  · lia
  · intro i beyond
    have ends : ((s.start typ).puts text).finish.tokbuf i = ((s.start typ).puts text).tokbuf i := by
      apply store_outside
      apply Or.inr
      change s.tbindex + text.length + 1 ≤ i
      lia
    exact (within.tokbuf i (by lia)).trans (ends.trans (first.tokbuf i (by lia)))
  · intro i high
    exact (within.tok i high).trans (first.tok i high)
  · intro i high
    exact (within.toktyp i high).trans (first.toktyp i high)

/-- From every scan on, the loop writes a byte for a character and one more for a token. -/
theorem scanLoop_within (few : s.ntok ≤ shellMaxtok) (looped : scanLoop turns p s = some (okay, after)) :
    Within s after ((characters p).length + (shellMaxtok - s.ntok)) := by
  induction turns generalizing p s with
  | zero => cases looped
  | succ turns inductionHypothesis =>
    unfold scanLoop at looped
    by_cases atEnd : AtEnd p
    · simp only [if_pos atEnd, Option.some.injEq, Prod.mk.injEq] at looped
      exact looped.2 ▸ Within.refl few _
    by_cases full : shellMaxtok ≤ s.ntok
    · simp only [if_neg atEnd, if_pos full, Option.some.injEq, Prod.mk.injEq] at looped
      exact looped.2 ▸ Within.refl few _
    simp only [if_neg atEnd, if_neg full] at looped
    have free : s.ntok < shellMaxtok := Nat.lt_of_not_le full
    have skipped := @characters_skipBlanks p
    generalize skipBlanks p = q at looped skipped
    by_cases blanksOnly : AtEnd q
    · simp only [if_pos blanksOnly, Option.some.injEq, Prod.mk.injEq] at looped
      exact looped.2 ▸ Within.refl few _
    simp only [if_neg blanksOnly] at looped
    have taken := characters_tail blanksOnly
    have inLine : q.headD 0 ≠ 0 ∧ q.headD 0 ≠ shNewline := not_or.mp blanksOnly
    -- A token whose text takes no more characters than it has bytes, and the turns behind it.
    have token : ∀ typ text rest, scanLoop turns rest ((s.start typ).puts text).finish = some (okay, after) →
        text.length + (characters rest).length ≤ (characters q).length →
        Within s after ((characters p).length + (shellMaxtok - s.ntok)) := by
      intro typ text rest later fits
      have count : ((s.start typ).puts text).finish.ntok = s.ntok + 1 := rfl
      have within := inductionHypothesis (by lia) later
      exact (Within.token free within).mono (by lia)
    by_cases amper : q.headD 0 = shAmper
    · simp only [if_pos amper] at looped
      exact token _ _ _ looped (by simp only [List.length_singleton]; lia)
    by_cases less : q.headD 0 = shLess
    · simp only [if_neg amper, if_pos less] at looped
      exact token _ _ _ looped (by simp only [List.length_singleton]; omega)
    by_cases greater : q.headD 0 = shGreater
    · simp only [if_neg amper, if_neg less, if_pos greater] at looped
      exact token _ _ _ looped (by simp only [List.length_singleton]; omega)
    simp only [if_neg amper, if_neg less, if_neg greater] at looped
    by_cases quote : q.headD 0 = shSquote ∨ q.headD 0 = shDquote
    · simp only [if_pos quote] at looped
      obtain ⟨text, isAfter, short, closes⟩ := quotedLoop_takes inLine
        (show quotedLoop (q.headD 0) q.tail (s.start shTokOther) = (_, _, _) from rfl)
      rw [isAfter] at looped
      by_cases closed : (quotedLoop (q.headD 0) q.tail (s.start shTokOther)).2.1 = q.headD 0
      · have fits := closes closed
        simp only [ne_eq, closed, not_true_eq_false, if_false] at looped
        exact token _ _ _ looped (by lia)
      · simp only [ne_eq, closed, not_false_eq_true, if_true, Option.some.injEq, Prod.mk.injEq] at looped
        exact looped.2 ▸ (Within.started free).mono (by lia)
    · simp only [if_neg quote] at looped
      obtain ⟨text, isAfter, fits⟩ := wordLoop_takes
        (show wordLoop q.tail ((s.start shTokOther).puts [q.headD 0]) = (_, _) from rfl)
      rw [isAfter, puts_puts] at looped
      generalize (wordLoop q.tail ((s.start shTokOther).puts [q.headD 0])).1 = rest at looped fits
      have long : ([q.headD 0] ++ text).length = text.length + 1 := by simp
      by_cases joined : rest.headD 0 = shSquote ∨ rest.headD 0 = shDquote ∨ rest.headD 0 = shLess ∨
          rest.headD 0 = shGreater
      · simp only [if_pos joined, Option.some.injEq, Prod.mk.injEq] at looped
        exact looped.2 ▸ (Within.started free).mono (by lia)
      · simp only [if_neg joined] at looped
        exact token _ _ _ looped (by lia)

end Turns

section Layout

variable {s : Scan} {line : List UInt8} {tokens : List Token} {ending : Ending}

/-- The texts of the tokens are characters of the line. -/
theorem Reads.inLine (reads : Reads line tokens ending) (inLine : ∀ ch ∈ line, ch ≠ 0 ∧ ch ≠ shNewline) :
    ∀ token ∈ tokens, 0 ∉ token.text := by
  induction reads with
  | nil => simp
  | blank _ _ inductionHypothesis =>
    exact inductionHypothesis fun ch member => inLine ch (List.mem_cons_of_mem _ member)
  | amper _ inductionHypothesis | less _ inductionHypothesis | greater _ inductionHypothesis =>
    intro token member
    rcases List.mem_cons.mp member with rfl | later
    · decide
    · exact inductionHypothesis (fun ch member => inLine ch (List.mem_cons_of_mem _ member)) token later
  | @quoted quote inside rest tokens ending isQuote other reads inductionHypothesis =>
    intro token member
    rcases List.mem_cons.mp member with rfl | later
    · exact fun null => (inLine 0 (by simp [show (0 : UInt8) ∈ inside from null])).1 rfl
    · exact inductionHypothesis (fun ch member => inLine ch (by simp [member])) token later
  | unterminated => simp
  | @word ch text rest tokens ending ordinary separates reads inductionHypothesis =>
    intro token member
    rcases List.mem_cons.mp member with rfl | later
    · exact fun null => (inLine 0 (List.mem_append_left rest (show 0 ∈ ch :: text from null))).1 rfl
    · exact inductionHypothesis (fun ch member => inLine ch (by simp [member])) token later
  | joined => simp

/-- Arrays that hold tokens hold them back to back. -/
theorem Scan.Has.backToBack (has : s.Has tokens) (noNulls : ∀ token ∈ tokens, 0 ∉ token.text) : BackToBack s := by
  refine ⟨tokens.map Token.text, ?_, ?_, ?_, ?_⟩
  · rw [List.length_map, has.ntok]
  · intro text member
    obtain ⟨token, isToken, rfl⟩ := List.mem_map.mp member
    exact noNulls token isToken
  · by_cases none_ : s.ntok = 0
    · have isEmpty : tokens = [] := List.length_eq_zero_iff.mp (has.ntok.symm.trans none_)
      rw [if_pos none_, has.tlen, isEmpty]
      decide
    · rw [if_neg none_, has.tok 0 (by have := has.ntok; lia), List.take_zero]
      decide
  · intro i text isText
    rw [List.getElem?_map, Option.map_eq_some_iff] at isText
    obtain ⟨token, isToken, rfl⟩ := isText
    have inside := (List.getElem?_eq_some_iff.mp isToken).1
    have next : (contents (tokens.take (i + 1))).length = s.tok i + token.text.length + 1 := by
      have isElement := (List.getElem?_eq_some_iff.mp isToken).2
      rw [← List.take_append_getElem inside, isElement, contents_append, contents_singleton, List.length_append,
        List.length_append, List.length_singleton, has.tok i inside]
      lia
    refine ⟨has.holds isToken, ?_⟩
    by_cases last : i + 1 < s.ntok
    · rw [if_pos last, has.tok (i + 1) (by rw [← has.ntok]; exact last), next]
    · have whole : tokens.take (i + 1) = tokens := List.take_of_length_le (by have := has.ntok; lia)
      rw [if_neg last, has.tlen, ← next, whole]

end Layout

/-- Whether `lexan` succeeds or fails, it writes at most `len + 32` bytes and 32 entries of the arrays, and
the tokens that it stores lie back to back. -/
theorem lexan_stays_inside (line : List UInt8) (len : Nat) (short : (characters line).length ≤ len)
    (tokbuf : Memory) (tok : Nat → Nat) (toktyp : Nat → Int) :
    ∃ okay s, lexanScan line tokbuf tok toktyp = some (okay, s) ∧
      lexan line tokbuf tok toktyp = some (answer (okay, s)) ∧
      s.tbindex ≤ len + shellMaxtok ∧
      (∀ i, len + shellMaxtok ≤ i → s.tokbuf i = tokbuf i) ∧
      (∀ i, shellMaxtok ≤ i → s.tok i = tok i ∧ s.toktyp i = toktyp i) ∧
      (okay = true → s.ntok ≤ shellMaxtok ∧ BackToBack s) := by
  obtain ⟨tokens, ending, reads⟩ := exists_reads (characters line)
  have finishes := lexan_finishes reads tokbuf tok toktyp
  have agree : lexan line tokbuf tok toktyp = (lexanScan line tokbuf tok toktyp).map answer :=
    lexanLoop_eq_scanLoop
  obtain ⟨⟨okay, s⟩, isScan⟩ : ∃ outcome, lexanScan line tokbuf tok toktyp = some outcome := by
    apply Option.ne_none_iff_exists'.mp
    intro isNone
    rw [agree, isNone] at finishes
    rcases finishes with ⟨_, s, accepted, _⟩ | ⟨_, rejected⟩
    · cases accepted
    · cases rejected
  have within := scanLoop_within (Nat.zero_le _) isScan
  rw [isScan] at agree
  refine ⟨okay, s, isScan, agree, ?_, ?_, ?_, ?_⟩
  · have bound := within.tbindex
    simp only [Nat.zero_add, Nat.sub_zero] at bound
    lia
  · intro i beyond
    apply within.tokbuf
    simp only [Nat.zero_add, Nat.sub_zero]
    lia
  · exact fun i high => ⟨within.tok i high, within.toktyp i high⟩
  · rintro rfl
    rcases finishes with ⟨_, last, accepted, has⟩ | ⟨_, rejected⟩
    · have same : s = last := by
        rw [agree] at accepted
        exact Option.some.inj (Option.some.inj accepted)
      rw [List.nil_append] at has
      exact ⟨within.count, same ▸ has.backToBack (reads.inLine characters_inLine)⟩
    · rw [agree] at rejected
      cases rejected

/-- A line of four characters, with a string that does not end. -/
theorem short_line_stays_inside : ∃ okay s,
    lexanScan [97, 32, 39, 98, 10] (fun _ => 7) (fun _ => 7) (fun _ => 7) = some (okay, s) ∧ s.tbindex ≤ 36 := by
  obtain ⟨okay, s, isScan, _, bound, _⟩ := lexan_stays_inside [97, 32, 39, 98, 10] 4 (by decide)
    (fun _ => 7) (fun _ => 7) (fun _ => 7)
  exact ⟨okay, s, isScan, bound⟩

end Xinu.LineTokens
