import Xinu.StoredBytes

/-!
# The tokens of a command line

A line consists of tokens with blanks between them: one of the characters `&`, `<` and `>`, a quoted string,
or a word, which is a maximal run of other characters. `lexan` copies the texts of the tokens into a buffer
and stores the place and the type of each. It counts the tokens before it skips blanks, so that blanks
behind the last token that fits are taken for another token.
-/

namespace Xinu.LineTokens

open CIntegers StoredBytes

section Source

/-- `SHELL_MAXTOK`. -/
def shellMaxtok : Nat := 32

def shNewline : UInt8 := 10

def shAmper : UInt8 := 38

def shBlank : UInt8 := 32

def shTab : UInt8 := 9

def shSquote : UInt8 := 39

def shDquote : UInt8 := 34

def shLess : UInt8 := 60

def shGreater : UInt8 := 62

/-- `SH_TOK_AMPER`, `SH_TOK_LESS`, `SH_TOK_GREATER` and `SH_TOK_OTHER`. -/
def shTokAmper : Int := 0

def shTokLess : Int := 1

def shTokGreater : Int := 2

def shTokOther : Int := 3

/-- The variables and the arrays of `lexan`. -/
structure Scan where
  ntok : Nat
  tbindex : Nat
  tokbuf : Memory
  tok : Nat → Nat
  toktyp : Nat → Int

/-- Characters are added to the token buffer. -/
def Scan.puts (s : Scan) (text : List UInt8) : Scan :=
  { s with tokbuf := store s.tokbuf s.tbindex text, tbindex := s.tbindex + text.length }

/-- A token starts, with its type. -/
def Scan.start (s : Scan) (typ : Int) : Scan :=
  { s with tok := Function.update s.tok s.ntok s.tbindex, toktyp := Function.update s.toktyp s.ntok typ }

/-- A token ends with a null and is counted. -/
def Scan.finish (s : Scan) : Scan := { s.puts [0] with ntok := s.ntok + 1 }

/-- The end of a line. Behind the list there is a null, too. -/
def AtEnd (p : List UInt8) : Prop := p.headD 0 = 0 ∨ p.headD 0 = shNewline

def skipBlanks : List UInt8 → List UInt8
  | [] => []
  | ch :: p => if ch = shBlank ∨ ch = shTab then skipBlanks p else ch :: p

/-- The loop over a quoted string: the line behind it, the character that ends it, and the scan. -/
def quotedLoop (quote : UInt8) : List UInt8 → Scan → List UInt8 × UInt8 × Scan
  | [], s => ([], 0, s)
  | ch :: p, s => if ch ≠ quote ∧ ch ≠ shNewline ∧ ch ≠ 0 then quotedLoop quote p (s.puts [ch]) else (p, ch, s)

/-- The loop over the other characters of a word. -/
def wordLoop : List UInt8 → Scan → List UInt8 × Scan
  | [], s => ([], s)
  | ch :: p, s =>
    if ch ≠ shNewline ∧ ch ≠ 0 ∧ ch ≠ shLess ∧ ch ≠ shGreater ∧ ch ≠ shBlank ∧ ch ≠ shTab ∧ ch ≠ shAmper ∧
        ch ≠ shSquote ∧ ch ≠ shDquote then wordLoop p (s.puts [ch])
    else (ch :: p, s)

instance (p : List UInt8) : Decidable (AtEnd p) := inferInstanceAs (Decidable (_ ∨ _))

/-- The loop of `lexan` for some number of turns. The inner result is none for `SYSERR`. -/
def lexanLoop : Nat → List UInt8 → Scan → Option (Option Scan)
  | 0, _, _ => none
  | turns + 1, p, s =>
    if AtEnd p then some (some s)
    else if shellMaxtok ≤ s.ntok then some none
    else
      let p := skipBlanks p
      let ch := p.headD 0
      if AtEnd p then some (some s)
      else if ch = shAmper then lexanLoop turns p.tail ((s.start shTokAmper).puts [ch]).finish
      else if ch = shLess then lexanLoop turns p.tail ((s.start shTokLess).puts [ch]).finish
      else if ch = shGreater then lexanLoop turns p.tail ((s.start shTokGreater).puts [ch]).finish
      else if ch = shSquote ∨ ch = shDquote then
        let (p, last, s) := quotedLoop ch p.tail (s.start shTokOther)
        if last ≠ ch then some none else lexanLoop turns p s.finish
      else
        let (p, s) := wordLoop p.tail ((s.start shTokOther).puts [ch])
        let ch := p.headD 0
        if ch = shSquote ∨ ch = shDquote ∨ ch = shLess ∨ ch = shGreater then some none
        else lexanLoop turns p s.finish

/-- `lexan`, with the contents of the three arrays before. -/
def lexan (line : List UInt8) (tokbuf : Memory) (tok : Nat → Nat) (toktyp : Nat → Int) : Option (Option Scan) :=
  lexanLoop (line.length + 1) line ⟨0, 0, tokbuf, tok, toktyp⟩

end Source

section Language

/-- The tokens of a line. -/
inductive Token
  | amper
  | less
  | greater
  | quoted (inside : List UInt8)
  | word (text : List UInt8)

/-- The text of a token, and its type. -/
def Token.text : Token → List UInt8
  | amper => [shAmper]
  | less => [shLess]
  | greater => [shGreater]
  | quoted inside => inside
  | word text => text

def Token.typ : Token → Int
  | amper => shTokAmper
  | less => shTokLess
  | greater => shTokGreater
  | quoted _ => shTokOther
  | word _ => shTokOther

/-- A line is read completely, or up to an unterminated string or to a word that is joined to what follows. -/
inductive Ending
  | complete
  | unterminated
  | joined
deriving DecidableEq

def Blank (ch : UInt8) : Prop := ch = shBlank ∨ ch = shTab

def Quote (ch : UInt8) : Prop := ch = shSquote ∨ ch = shDquote

/-- The characters of words. -/
def Ordinary (ch : UInt8) : Prop :=
  ¬ Blank ch ∧ ¬ Quote ch ∧ ch ≠ shAmper ∧ ch ≠ shLess ∧ ch ≠ shGreater

instance (ch : UInt8) : Decidable (Blank ch) := inferInstanceAs (Decidable (_ ∨ _))

instance (ch : UInt8) : Decidable (Quote ch) := inferInstanceAs (Decidable (_ ∨ _))

instance (ch : UInt8) : Decidable (Ordinary ch) := inferInstanceAs (Decidable (_ ∧ _))

/-- What may follow a word, and what may not. -/
def Separates (rest : List UInt8) : Prop := ∀ ch ∈ rest.head?, Blank ch ∨ ch = shAmper

def Joins (rest : List UInt8) : Prop := ∃ ch ∈ rest.head?, Quote ch ∨ ch = shLess ∨ ch = shGreater

/-- The tokens of the characters of a line, in the order of the line. -/
inductive Reads : List UInt8 → List Token → Ending → Prop
  | nil : Reads [] [] .complete
  | blank {ch rest tokens ending} : Blank ch → Reads rest tokens ending → Reads (ch :: rest) tokens ending
  | amper {rest tokens ending} : Reads rest tokens ending → Reads (shAmper :: rest) (.amper :: tokens) ending
  | less {rest tokens ending} : Reads rest tokens ending → Reads (shLess :: rest) (.less :: tokens) ending
  | greater {rest tokens ending} : Reads rest tokens ending → Reads (shGreater :: rest) (.greater :: tokens) ending
  | quoted {quote inside rest tokens ending} : Quote quote → quote ∉ inside → Reads rest tokens ending →
      Reads (quote :: (inside ++ quote :: rest)) (.quoted inside :: tokens) ending
  | unterminated {quote inside} : Quote quote → quote ∉ inside → Reads (quote :: inside) [] .unterminated
  | word {ch text rest tokens ending} : (∀ other ∈ ch :: text, Ordinary other) → Separates rest →
      Reads rest tokens ending → Reads (ch :: (text ++ rest)) (.word (ch :: text) :: tokens) ending
  | joined {ch text rest} : (∀ other ∈ ch :: text, Ordinary other) → Joins rest →
      Reads (ch :: (text ++ rest)) [] .joined

/-- The characters of a line up to its end. -/
def characters (line : List UInt8) : List UInt8 := line.takeWhile fun ch => ch ≠ 0 ∧ ch ≠ shNewline

/-- The contents of the token buffer. -/
def contents (tokens : List Token) : List UInt8 := tokens.flatMap fun token => token.text ++ [0]

/-- The arrays hold certain tokens. -/
structure Scan.Has (s : Scan) (tokens : List Token) : Prop where
  ntok : s.ntok = tokens.length
  tlen : s.tbindex = (contents tokens).length
  tokbuf : Holds s.tokbuf 0 (contents tokens)
  tok : ∀ i < tokens.length, s.tok i = (contents (tokens.take i)).length
  toktyp : ∀ i token, tokens[i]? = some token → s.toktyp i = token.typ

/-- The outcome of `lexan` for a line that was read: an error for too many tokens, an unterminated string or
a joined word, and the tokens otherwise. -/
def Outcome (tokens : List Token) (ending : Ending) (outcome : Option (Option Scan)) : Prop :=
  if ending = .complete ∧ tokens.length ≤ shellMaxtok then ∃ s, outcome = some (some s) ∧ s.ntok = tokens.length ∧
    ∀ i token, tokens[i]? = some token → Holds s.tokbuf (s.tok i) (token.text ++ [0]) ∧ s.toktyp i = token.typ
  else outcome = some none

end Language

/-- The line has blanks behind everything else. -/
def TrailingBlank (line : List UInt8) : Prop := ∃ ch ∈ line.getLast?, Blank ch

section Scans

variable {s : Scan} {done : List Token} {text rest : List UInt8}

theorem puts_puts : (s.puts text).puts rest = s.puts (text ++ rest) := by
  unfold Scan.puts
  simp only [store_store, List.length_append, Nat.add_assoc]

theorem puts_nil : s.puts [] = s := by
  have same : store s.tokbuf s.tbindex [] = s.tokbuf :=
    funext fun address => store_outside (Nat.lt_or_ge address s.tbindex)
  unfold Scan.puts
  rw [same]
  rfl

theorem contents_append (tokens : List Token) : contents (done ++ tokens) = contents done ++ contents tokens :=
  List.flatMap_append

theorem contents_singleton (token : Token) : contents [token] = token.text ++ [0] := by
  unfold contents
  rw [List.flatMap_cons, List.flatMap_nil, List.append_nil]

/-- The tokens of the arrays are read off by their places. -/
theorem Scan.Has.holds (has : s.Has done) {i : Nat} {token : Token} (isToken : done[i]? = some token) :
    Holds s.tokbuf (s.tok i) (token.text ++ [0]) := by
  obtain ⟨inside, isElement⟩ := List.getElem?_eq_some_iff.mp isToken
  have split_ : done = done.take i ++ (token :: done.drop (i + 1)) := by
    rw [← isElement, List.cons_getElem_drop_succ, List.take_append_drop]
  have holds := has.tokbuf
  rw [split_, contents_append] at holds
  have behind := (holds_append.mp holds).2
  have first : contents (token :: done.drop (i + 1)) = (token.text ++ [0]) ++ contents (done.drop (i + 1)) :=
    List.flatMap_cons
  rw [first, Nat.zero_add] at behind
  rw [has.tok i inside]
  exact (holds_append.mp behind).1

/-- One more token is stored. -/
theorem Scan.Has.append (has : s.Has done) (token : Token) :
    ((s.start token.typ).puts token.text).finish.Has (done ++ [token]) := by
  have stored : ((s.start token.typ).puts token.text).finish =
      { (s.start token.typ).puts (token.text ++ [0]) with ntok := s.ntok + 1 } := by
    unfold Scan.finish
    rw [puts_puts]
    rfl
  rw [stored]
  constructor
  · rw [List.length_append, List.length_singleton, ← has.ntok]
  · rw [contents_append, contents_singleton, List.length_append, ← has.tlen]
    rfl
  · rw [contents_append, contents_singleton, holds_append, Nat.zero_add, ← has.tlen]
    refine ⟨has.tokbuf.store (Or.inl ?_), holds_store⟩
    rw [Nat.zero_add, ← has.tlen]
    exact Nat.le_refl _
  · intro i inside
    rw [List.length_append, List.length_singleton] at inside
    change Function.update s.tok s.ntok s.tbindex i = _
    by_cases last : i = s.ntok
    · rw [last, Function.update_self, has.tlen, has.ntok, List.take_left]
    · rw [has.ntok] at last
      rw [Function.update_of_ne (by rw [has.ntok]; exact last), has.tok i (by lia),
        List.take_append_of_le_length (by omega)]
  · intro i other isToken
    change Function.update s.toktyp s.ntok token.typ i = _
    by_cases last : i = s.ntok
    · rw [last, has.ntok, List.getElem?_concat_length] at isToken
      rw [last, Function.update_self, Option.some.inj isToken]
    · rw [Function.update_of_ne last]
      have inside := (List.getElem?_eq_some_iff.mp isToken).1
      rw [List.length_append, List.length_singleton] at inside
      rw [has.ntok] at last
      rw [List.getElem?_append_left (by lia)] at isToken
      exact has.toktyp i other isToken

end Scans

section Loops

variable {s : Scan} {text rest ended : List UInt8} {quote : UInt8} {turns : Nat}

theorem quotedLoop_eq (other : quote ∉ text) (inLine : ∀ ch ∈ text, ch ≠ 0 ∧ ch ≠ shNewline) :
    quotedLoop quote (text ++ quote :: rest) s = (rest, quote, s.puts text) := by
  induction text generalizing s with
  | nil =>
    rw [puts_nil]
    exact if_neg fun condition => condition.1 rfl
  | cons ch text inductionHypothesis =>
    rw [List.mem_cons, not_or] at other
    obtain ⟨notNull, notNewline⟩ := inLine ch List.mem_cons_self
    rw [List.cons_append]
    unfold quotedLoop
    rw [if_pos ⟨Ne.symm other.1, notNewline, notNull⟩,
      inductionHypothesis other.2 (fun ch member => inLine ch (List.mem_cons_of_mem _ member)), puts_puts]
    rfl

/-- Without an end quote, the loop ends at the end of the line. -/
theorem quotedLoop_unterminated (isQuote : Quote quote) (other : quote ∉ text)
    (inLine : ∀ ch ∈ text, ch ≠ 0 ∧ ch ≠ shNewline) (atEnd : AtEnd ended) :
    (quotedLoop quote (text ++ ended) s).2.1 ≠ quote := by
  have notNull : (0 : UInt8) ≠ quote := by rcases isQuote with rfl | rfl <;> decide
  have notNewline : shNewline ≠ quote := by rcases isQuote with rfl | rfl <;> decide
  induction text generalizing s with
  | nil =>
    cases ended with
    | nil => exact notNull
    | cons ch ended =>
      rw [List.nil_append]
      unfold quotedLoop
      rcases atEnd with isNull | isNewline
      · rw [if_neg (fun condition => condition.2.2 isNull)]
        exact fun same => notNull (isNull.symm.trans same)
      · rw [if_neg (fun condition => condition.2.1 isNewline)]
        exact fun same => notNewline (isNewline.symm.trans same)
  | cons ch text inductionHypothesis =>
    rw [List.mem_cons, not_or] at other
    obtain ⟨chNotNull, chNotNewline⟩ := inLine ch List.mem_cons_self
    rw [List.cons_append]
    unfold quotedLoop
    rw [if_pos ⟨Ne.symm other.1, chNotNewline, chNotNull⟩]
    exact inductionHypothesis other.2 (fun ch member => inLine ch (List.mem_cons_of_mem _ member))

/-- A character at which the loop over a word stops. -/
def StopsWord (rest : List UInt8) : Prop :=
  ∀ ch ∈ rest.head?, ch = 0 ∨ ch = shNewline ∨ ¬ Ordinary ch

theorem wordLoop_eq (ordinary : ∀ ch ∈ text, Ordinary ch) (inLine : ∀ ch ∈ text, ch ≠ 0 ∧ ch ≠ shNewline)
    (stops : StopsWord rest) : wordLoop (text ++ rest) s = (rest, s.puts text) := by
  induction text generalizing s with
  | nil =>
    rw [puts_nil, List.nil_append]
    cases rest with
    | nil => rfl
    | cons ch rest =>
      unfold wordLoop
      apply if_neg
      rintro ⟨notNewline, notNull, notLess, notGreater, notBlank, notTab, notAmper, notSquote, notDquote⟩
      rcases stops ch rfl with isNull | isNewline | notOrdinary
      · exact notNull isNull
      · exact notNewline isNewline
      · apply notOrdinary
        refine ⟨?_, ?_, notAmper, notLess, notGreater⟩
        · rintro (isBlank | isTab)
          · exact notBlank isBlank
          · exact notTab isTab
        · rintro (isSquote | isDquote)
          · exact notSquote isSquote
          · exact notDquote isDquote
  | cons ch text inductionHypothesis =>
    obtain ⟨notBlank, notQuote, notAmper, notLess, notGreater⟩ := ordinary ch List.mem_cons_self
    obtain ⟨notNull, notNewline⟩ := inLine ch List.mem_cons_self
    unfold Blank at notBlank
    unfold Quote at notQuote
    rw [not_or] at notBlank notQuote
    rw [List.cons_append]
    unfold wordLoop
    rw [if_pos ⟨notNewline, notNull, notLess, notGreater, notBlank.1, notBlank.2, notAmper, notQuote.1, notQuote.2⟩,
      inductionHypothesis (fun ch member => ordinary ch (List.mem_cons_of_mem _ member))
        (fun ch member => inLine ch (List.mem_cons_of_mem _ member)), puts_puts]
    rfl

end Loops

section Turns

variable {s : Scan} {p text rest ended : List UInt8} {ch : UInt8} {turns : Nat}

theorem lexanLoop_end (atEnd : AtEnd p) : lexanLoop (turns + 1) p s = some (some s) := by
  unfold lexanLoop
  rw [if_pos atEnd]

theorem lexanLoop_full (full : shellMaxtok ≤ s.ntok) (notEnd : ¬ AtEnd p) :
    lexanLoop (turns + 1) p s = some none := by
  unfold lexanLoop
  rw [if_neg notEnd, if_pos full]

theorem not_atEnd_cons (inLine : ch ≠ 0 ∧ ch ≠ shNewline) : ¬ AtEnd (ch :: p) := by
  rintro (isNull | isNewline)
  · exact inLine.1 isNull
  · exact inLine.2 isNewline

theorem Blank.inLine (isBlank : Blank ch) : ch ≠ 0 ∧ ch ≠ shNewline := by
  rcases isBlank with rfl | rfl <;> decide

theorem skipBlanks_of_atEnd (atEnd : AtEnd p) : skipBlanks p = p := by
  cases p with
  | nil => rfl
  | cons ch p => exact if_neg fun isBlank => not_atEnd_cons (Blank.inLine isBlank) atEnd

/-- A blank before a token is not seen. -/
theorem lexanLoop_blank (room : s.ntok < shellMaxtok) (isBlank : Blank ch) :
    lexanLoop (turns + 1) (ch :: p) s = lexanLoop (turns + 1) p s := by
  have skips : skipBlanks (ch :: p) = skipBlanks p := if_pos isBlank
  conv_lhs => unfold lexanLoop
  rw [if_neg (not_atEnd_cons isBlank.inLine), if_neg (Nat.not_le_of_lt room), skips]
  by_cases atEnd : AtEnd p
  · dsimp only
    rw [skipBlanks_of_atEnd atEnd, if_pos atEnd, lexanLoop_end atEnd]
  · conv_rhs => unfold lexanLoop
    rw [if_neg atEnd, if_neg (Nat.not_le_of_lt room)]

/-- A turn of the loop at the first character of a token. -/
theorem lexanLoop_first (room : s.ntok < shellMaxtok) (notBlank : ¬ Blank ch) (inLine : ch ≠ 0 ∧ ch ≠ shNewline) :
    lexanLoop (turns + 1) (ch :: p) s =
      if ch = shAmper then lexanLoop turns p ((s.start shTokAmper).puts [ch]).finish
      else if ch = shLess then lexanLoop turns p ((s.start shTokLess).puts [ch]).finish
      else if ch = shGreater then lexanLoop turns p ((s.start shTokGreater).puts [ch]).finish
      else if ch = shSquote ∨ ch = shDquote then
        if (quotedLoop ch p (s.start shTokOther)).2.1 ≠ ch then some none
        else lexanLoop turns (quotedLoop ch p (s.start shTokOther)).1 (quotedLoop ch p (s.start shTokOther)).2.2.finish
      else
        if (wordLoop p ((s.start shTokOther).puts [ch])).1.headD 0 = shSquote ∨
            (wordLoop p ((s.start shTokOther).puts [ch])).1.headD 0 = shDquote ∨
            (wordLoop p ((s.start shTokOther).puts [ch])).1.headD 0 = shLess ∨
            (wordLoop p ((s.start shTokOther).puts [ch])).1.headD 0 = shGreater then some none
        else lexanLoop turns (wordLoop p ((s.start shTokOther).puts [ch])).1
          (wordLoop p ((s.start shTokOther).puts [ch])).2.finish := by
  have stays : skipBlanks (ch :: p) = ch :: p := if_neg notBlank
  have notEnd : ¬ AtEnd (ch :: p) := not_atEnd_cons inLine
  conv_lhs => unfold lexanLoop
  rw [if_neg notEnd, if_neg (Nat.not_le_of_lt room), stays]
  dsimp only
  rw [if_neg notEnd]
  rfl

theorem lexanLoop_quoted (room : s.ntok < shellMaxtok) (isQuote : Quote ch) (other : ch ∉ text)
    (inLine : ∀ other ∈ text, other ≠ 0 ∧ other ≠ shNewline) :
    lexanLoop (turns + 1) (ch :: (text ++ ch :: rest)) s =
      lexanLoop turns rest ((s.start shTokOther).puts text).finish := by
  have looped := @quotedLoop_eq (s.start shTokOther) text rest ch other inLine
  rcases isQuote with rfl | rfl <;>
    rw [lexanLoop_first room (by rintro (same | same) <;> cases same) (by decide), looped] <;> rfl

theorem lexanLoop_unterminated (room : s.ntok < shellMaxtok) (isQuote : Quote ch) (other : ch ∉ text)
    (inLine : ∀ other ∈ text, other ≠ 0 ∧ other ≠ shNewline) (atEnd : AtEnd ended) :
    lexanLoop (turns + 1) (ch :: (text ++ ended)) s = some none := by
  have looped := @quotedLoop_unterminated (s.start shTokOther) text ended ch isQuote other inLine atEnd
  rcases isQuote with rfl | rfl <;>
    rw [lexanLoop_first room (by rintro (same | same) <;> cases same) (by decide)] <;> exact if_pos looped

/-- A word is read up to what stops it. -/
theorem lexanLoop_word (room : s.ntok < shellMaxtok) (ordinary : ∀ other ∈ ch :: text, Ordinary other)
    (inLine : ∀ other ∈ ch :: text, other ≠ 0 ∧ other ≠ shNewline) (stops : StopsWord rest) :
    lexanLoop (turns + 1) (ch :: (text ++ rest)) s =
      if rest.headD 0 = shSquote ∨ rest.headD 0 = shDquote ∨ rest.headD 0 = shLess ∨ rest.headD 0 = shGreater then
        some none
      else lexanLoop turns rest ((s.start shTokOther).puts (ch :: text)).finish := by
  obtain ⟨notBlank, notQuote, notAmper, notLess, notGreater⟩ := ordinary ch List.mem_cons_self
  have looped := @wordLoop_eq ((s.start shTokOther).puts [ch]) text rest
    (fun other member => ordinary other (List.mem_cons_of_mem _ member))
    (fun other member => inLine other (List.mem_cons_of_mem _ member)) stops
  have isWord : ¬ (ch = shSquote ∨ ch = shDquote) := notQuote
  rw [lexanLoop_first room notBlank (inLine ch List.mem_cons_self), if_neg notAmper, if_neg notLess, if_neg notGreater,
    if_neg isWord, looped, puts_puts]
  rfl

end Turns

section Runs

variable {line rest ended : List UInt8} {tokens done : List Token} {ending : Ending} {ch : UInt8}

/-- The tokens of a line that was read fit, and no blanks follow the last one that fits. -/
def Fits (line : List UInt8) (tokens : List Token) (ending : Ending) (before : Nat) : Prop :=
  ending = .complete ∧ before + tokens.length ≤ shellMaxtok ∧
    ¬ (before + tokens.length = shellMaxtok ∧ TrailingBlank line)

/-- The loop ends with the tokens where they fit, and with an error otherwise. -/
def Finishes (line : List UInt8) (tokens : List Token) (ending : Ending) (done : List Token)
    (outcome : Option (Option Scan)) : Prop :=
  Fits line tokens ending done.length ∧ (∃ s, outcome = some (some s) ∧ s.Has (done ++ tokens)) ∨
    ¬ Fits line tokens ending done.length ∧ outcome = some none

theorem trailingBlank_append (first : List UInt8) (solid : ∀ ch ∈ first.getLast?, ¬ Blank ch) :
    TrailingBlank (first ++ rest) ↔ TrailingBlank rest := by
  unfold TrailingBlank
  rw [List.getLast?_append]
  cases last : rest.getLast? with
  | none =>
    rw [Option.none_or]
    constructor
    · rintro ⟨ch, member, isBlank⟩
      exact absurd isBlank (solid ch member)
    · rintro ⟨ch, member, _⟩
      cases member
  | some ch => rfl

/-- A line with nothing but blanks has them behind everything else. -/
theorem Reads.trailingBlank (reads : Reads line tokens ending) (noTokens : tokens = []) (complete : ending = .complete)
    (nonempty : line ≠ []) : TrailingBlank line := by
  induction reads with
  | nil => exact absurd rfl nonempty
  | blank isBlank reads inductionHypothesis =>
    rename_i ch rest tokens ending
    cases rest with
    | nil => exact ⟨ch, rfl, isBlank⟩
    | cons second rest =>
      obtain ⟨last, isLast, lastBlank⟩ := inductionHypothesis noTokens complete (List.cons_ne_nil _ _)
      exact ⟨last, by rw [List.getLast?_cons_cons]; exact isLast, lastBlank⟩
  | amper => cases noTokens
  | less => cases noTokens
  | greater => cases noTokens
  | quoted => cases noTokens
  | unterminated => cases complete
  | word => cases noTokens
  | joined => cases complete

/-- A token was read, and the others follow. -/
theorem Finishes.cons {outcome : Option (Option Scan)} {token : Token}
    (finishes : Finishes rest tokens ending (done ++ [token]) outcome) (first : List UInt8)
    (solid : ∀ ch ∈ first.getLast?, ¬ Blank ch) : Finishes (first ++ rest) (token :: tokens) ending done outcome := by
  have sameBlank := @trailingBlank_append rest first solid
  have sameLength : done.length + (token :: tokens).length = (done ++ [token]).length + tokens.length := by
    rw [List.length_append, List.length_cons, List.length_singleton]
    lia
  have sameFit : Fits (first ++ rest) (token :: tokens) ending done.length ↔
      Fits rest tokens ending (done ++ [token]).length := by
    unfold Fits
    rw [sameLength, sameBlank]
  unfold Finishes at *
  rw [sameFit]
  rwa [List.append_assoc] at finishes

/-- Where the tokens are used up, whatever is left is an error. -/
theorem Finishes.of_room {s : Scan} {turns : Nat} (reads : Reads line tokens ending)
    (inLine : ∀ ch ∈ line, ch ≠ 0 ∧ ch ≠ shNewline) (has : s.Has done) (few : done.length ≤ shellMaxtok)
    (nonempty : line ≠ [])
    (room : s.ntok < shellMaxtok → Finishes line tokens ending done (lexanLoop (turns + 1) (line ++ ended) s)) :
    Finishes line tokens ending done (lexanLoop (turns + 1) (line ++ ended) s) := by
  rcases Nat.lt_or_ge s.ntok shellMaxtok with less | full
  · exact room less
  · have notEnd : ¬ AtEnd (line ++ ended) := by
      obtain ⟨ch, rest, rfl⟩ := List.exists_cons_of_ne_nil nonempty
      exact not_atEnd_cons (inLine ch List.mem_cons_self)
    have allUsed : done.length = shellMaxtok := by
      rw [has.ntok] at full
      lia
    refine Or.inr ⟨?_, lexanLoop_full full notEnd⟩
    rintro ⟨complete, all, notTrailing⟩
    have noTokens : tokens = [] := List.length_eq_zero_iff.mp (by lia)
    exact notTrailing ⟨by rw [noTokens]; exact allUsed, reads.trailingBlank noTokens complete nonempty⟩

theorem Ordinary.notBlank_getLast {text : List UInt8} (ordinary : ∀ other ∈ ch :: text, Ordinary other) :
    ∀ other ∈ (ch :: text).getLast?, ¬ Blank other :=
  fun other isLast => (ordinary other (List.mem_of_getLast? isLast)).1

theorem fits_blank (reads : Reads rest tokens ending) (room : done.length < shellMaxtok) :
    Fits (ch :: rest) tokens ending done.length ↔ Fits rest tokens ending done.length := by
  unfold Fits
  cases rest with
  | nil =>
    cases reads
    have notFull : done.length + ([] : List Token).length ≠ shellMaxtok := Nat.ne_of_lt room
    simp only [notFull, false_and]
  | cons second rest =>
    unfold TrailingBlank
    rw [List.getLast?_cons_cons]

/-- The loop finishes from every scan, with enough turns. -/
def Runs (ended line : List UInt8) (tokens : List Token) (ending : Ending) : Prop :=
  ∀ (done : List Token) (s : Scan) (turns : Nat), s.Has done → done.length ≤ shellMaxtok → line.length ≤ turns →
    Finishes line tokens ending done (lexanLoop (turns + 1) (line ++ ended) s)

/-- A turn that stores a token. -/
theorem Runs.token {first : List UInt8} {token : Token} (reads : Reads (first ++ rest) (token :: tokens) ending)
    (inLine : ∀ ch ∈ first ++ rest, ch ≠ 0 ∧ ch ≠ shNewline) (nonempty : first ≠ [])
    (solid : ∀ ch ∈ first.getLast?, ¬ Blank ch)
    (turn : ∀ (s : Scan) (turns : Nat), s.ntok < shellMaxtok → lexanLoop (turns + 1) (first ++ (rest ++ ended)) s =
      lexanLoop turns (rest ++ ended) ((s.start token.typ).puts token.text).finish)
    (others : Runs ended rest tokens ending) : Runs ended (first ++ rest) (token :: tokens) ending := by
  intro done s turns has few enough
  have long : 0 < first.length := List.length_pos_of_ne_nil nonempty
  rw [List.length_append] at enough
  refine Finishes.of_room reads inLine has few (by simp [nonempty]) fun room => ?_
  obtain ⟨left, rfl⟩ : ∃ left, turns = left + 1 := ⟨turns - 1, by lia⟩
  have roomLeft : (done ++ [token]).length ≤ shellMaxtok := by
    rw [List.length_append, ← has.ntok]
    exact room
  rw [List.append_assoc, turn s (left + 1) room]
  exact (others _ _ left (has.append token) roomLeft (by lia)).cons first solid

/-- A turn that ends with an error. -/
theorem Runs.error (reads : Reads line [] ending) (inLine : ∀ ch ∈ line, ch ≠ 0 ∧ ch ≠ shNewline) (nonempty : line ≠ [])
    (incomplete : ending ≠ .complete)
    (turn : ∀ (s : Scan) (turns : Nat), s.ntok < shellMaxtok → lexanLoop (turns + 1) (line ++ ended) s = some none) :
    Runs ended line [] ending :=
  fun _ s turns has few _ => Finishes.of_room reads inLine has few nonempty fun room =>
    Or.inr ⟨fun fits => incomplete fits.1, turn s turns room⟩

theorem Separates.stopsWord (separates : Separates rest) (atEnd : AtEnd ended) : StopsWord (rest ++ ended) ∧
    ¬ ((rest ++ ended).headD 0 = shSquote ∨ (rest ++ ended).headD 0 = shDquote ∨
      (rest ++ ended).headD 0 = shLess ∨ (rest ++ ended).headD 0 = shGreater) := by
  cases rest with
  | nil =>
    rw [List.nil_append]
    constructor
    · intro ch isFirst
      cases ended with
      | nil => cases isFirst
      | cons first ended =>
        cases isFirst
        rcases atEnd with isNull | isNewline
        · exact Or.inl isNull
        · exact Or.inr (Or.inl isNewline)
    · rcases atEnd with isNull | isNewline
      · rw [isNull]
        decide
      · rw [isNewline]
        decide
  | cons first rest =>
    have separating := separates first rfl
    refine ⟨fun ch isFirst => ?_, ?_⟩
    · cases isFirst
      refine Or.inr (Or.inr fun ordinary => ?_)
      rcases separating with isBlank | isAmper
      · exact ordinary.1 isBlank
      · exact ordinary.2.2.1 isAmper
    · change ¬ (first = shSquote ∨ first = shDquote ∨ first = shLess ∨ first = shGreater)
      rcases separating with (rfl | rfl) | rfl <;> decide

theorem Joins.stopsWord (joins : Joins rest) : StopsWord (rest ++ ended) ∧
    ((rest ++ ended).headD 0 = shSquote ∨ (rest ++ ended).headD 0 = shDquote ∨
      (rest ++ ended).headD 0 = shLess ∨ (rest ++ ended).headD 0 = shGreater) := by
  obtain ⟨first, isFirst, joined⟩ := joins
  obtain ⟨_, rfl⟩ : ∃ others, rest = first :: others := List.head?_eq_some_iff.mp isFirst
  constructor
  · intro ch isCh
    cases isCh
    refine Or.inr (Or.inr fun ordinary => ?_)
    rcases joined with isQuote | isLess | isGreater
    · exact ordinary.2.1 isQuote
    · exact ordinary.2.2.2.1 isLess
    · exact ordinary.2.2.2.2 isGreater
  · change first = shSquote ∨ first = shDquote ∨ first = shLess ∨ first = shGreater
    rcases joined with (isSquote | isDquote) | isLess | isGreater
    · exact Or.inl isSquote
    · exact Or.inr (Or.inl isDquote)
    · exact Or.inr (Or.inr (Or.inl isLess))
    · exact Or.inr (Or.inr (Or.inr isGreater))

theorem runs (reads : Reads line tokens ending) (inLine : ∀ ch ∈ line, ch ≠ 0 ∧ ch ≠ shNewline)
    (atEnd : AtEnd ended) : Runs ended line tokens ending := by
  induction reads with
  | nil =>
    intro done s turns has few _
    refine Or.inl ⟨⟨rfl, few, ?_⟩, s, lexanLoop_end atEnd, by rw [List.append_nil]; exact has⟩
    rintro ⟨_, ch, member, _⟩
    cases member
  | @blank ch rest tokens ending isBlank reads inductionHypothesis =>
    intro done s turns has few enough
    refine Finishes.of_room (reads.blank isBlank) inLine has few (List.cons_ne_nil _ _) fun room => ?_
    have finishes := inductionHypothesis (fun other member => inLine other (List.mem_cons_of_mem _ member))
      done s turns has few (by rw [List.length_cons] at enough; lia)
    rw [List.cons_append, lexanLoop_blank room isBlank]
    unfold Finishes at *
    rwa [fits_blank reads (by rw [← has.ntok]; exact room)]
  | @amper rest tokens ending reads inductionHypothesis =>
    refine @Runs.token _ _ _ _ [shAmper] .amper reads.amper inLine (List.cons_ne_nil _ _) ?_ ?_
      (inductionHypothesis fun other member => inLine other (List.mem_cons_of_mem _ member))
    · rintro ch ⟨⟩ (same | same) <;> cases same
    · exact fun s turns room => lexanLoop_first room (by rintro (same | same) <;> cases same) (by decide)
  | @less rest tokens ending reads inductionHypothesis =>
    refine @Runs.token _ _ _ _ [shLess] .less reads.less inLine (List.cons_ne_nil _ _) ?_ ?_
      (inductionHypothesis fun other member => inLine other (List.mem_cons_of_mem _ member))
    · rintro ch ⟨⟩ (same | same) <;> cases same
    · exact fun s turns room => lexanLoop_first room (by rintro (same | same) <;> cases same) (by decide)
  | @greater rest tokens ending reads inductionHypothesis =>
    refine @Runs.token _ _ _ _ [shGreater] .greater reads.greater inLine (List.cons_ne_nil _ _) ?_ ?_
      (inductionHypothesis fun other member => inLine other (List.mem_cons_of_mem _ member))
    · rintro ch ⟨⟩ (same | same) <;> cases same
    · exact fun s turns room => lexanLoop_first room (by rintro (same | same) <;> cases same) (by decide)
  | @quoted quote inside rest tokens ending isQuote other reads inductionHypothesis =>
    have whole : quote :: (inside ++ quote :: rest) = (quote :: (inside ++ [quote])) ++ rest := by simp
    have isReads := reads.quoted isQuote other
    rw [whole] at inLine isReads ⊢
    refine @Runs.token _ _ _ _ _ (.quoted inside) isReads inLine (List.cons_ne_nil _ _) ?_ ?_
      (inductionHypothesis fun other member => inLine other (List.mem_append_right _ member))
    · intro ch isLast isBlank
      rw [← List.cons_append, List.getLast?_concat] at isLast
      cases isLast
      rcases isQuote with rfl | rfl <;> rcases isBlank with same | same <;> cases same
    · intro s turns room
      have turn := @lexanLoop_quoted s inside (rest ++ ended) quote turns room isQuote other
        (fun other member => inLine other (by simp [member]))
      have shape : quote :: (inside ++ [quote]) ++ (rest ++ ended) = quote :: (inside ++ quote :: (rest ++ ended)) := by
        simp
      rw [shape]
      exact turn
  | @unterminated quote inside isQuote other =>
    refine Runs.error (.unterminated isQuote other) inLine (List.cons_ne_nil _ _) (by decide) fun s turns room => ?_
    exact lexanLoop_unterminated room isQuote other
      (fun other member => inLine other (List.mem_cons_of_mem _ member)) atEnd
  | @word ch text rest tokens ending ordinary separates reads inductionHypothesis =>
    have stops := separates.stopsWord atEnd
    refine @Runs.token _ _ _ _ (ch :: text) (.word (ch :: text)) (reads.word ordinary separates) inLine
      (List.cons_ne_nil _ _) (Ordinary.notBlank_getLast ordinary) ?_
      (inductionHypothesis fun other member => inLine other (List.mem_append_right (ch :: text) member))
    intro s turns room
    exact (lexanLoop_word room ordinary (fun other member => inLine other (List.mem_append_left rest member)) stops.1).trans
      (if_neg stops.2)
  | @joined ch text rest ordinary joins =>
    have stops := @Joins.stopsWord rest ended joins
    refine Runs.error (.joined ordinary joins) inLine (List.cons_ne_nil _ _) (by decide) fun s turns room => ?_
    have turn := @lexanLoop_word s text (rest ++ ended) ch turns room ordinary
      (fun other member => inLine other (List.mem_append_left rest member)) stops.1
    rw [if_pos stops.2] at turn
    simpa using turn

end Runs

section Lines

variable {line : List UInt8}

theorem characters_inLine : ∀ ch ∈ characters line, ch ≠ 0 ∧ ch ≠ shNewline := by
  intro ch member
  have holds := List.mem_takeWhile_imp member
  exact of_decide_eq_true holds

/-- A line consists of its characters and what its end follows. -/
theorem exists_ended (line : List UInt8) : ∃ ended, line = characters line ++ ended ∧ AtEnd ended := by
  refine ⟨line.dropWhile fun ch => ch ≠ 0 ∧ ch ≠ shNewline, (List.takeWhile_append_dropWhile).symm, ?_⟩
  cases isRest : line.dropWhile fun ch => ch ≠ 0 ∧ ch ≠ shNewline with
  | nil => exact Or.inl rfl
  | cons ch rest =>
    have stops := List.head?_dropWhile_not (fun ch => decide (ch ≠ 0 ∧ ch ≠ shNewline)) line
    rw [isRest] at stops
    have isEnd : ¬ (ch ≠ 0 ∧ ch ≠ shNewline) := of_decide_eq_false (by simpa using stops)
    by_cases isNull : ch = 0
    · exact Or.inl isNull
    · exact Or.inr (by_contra fun notNewline => isEnd ⟨isNull, notNewline⟩)

/-- Every line can be read. -/
theorem exists_reads (line : List UInt8) : ∃ tokens ending, Reads line tokens ending := by
  induction isLength : line.length using Nat.strong_induction_on generalizing line with
  | _ length inductionHypothesis =>
    cases line with
    | nil => exact ⟨[], .complete, .nil⟩
    | cons ch line =>
      rw [List.length_cons] at isLength
      obtain ⟨tokens, ending, reads⟩ := inductionHypothesis line.length (by omega) line rfl
      by_cases isBlank : Blank ch
      · exact ⟨tokens, ending, reads.blank isBlank⟩
      by_cases isAmper : ch = shAmper
      · exact isAmper ▸ ⟨.amper :: tokens, ending, reads.amper⟩
      by_cases isLess : ch = shLess
      · exact isLess ▸ ⟨.less :: tokens, ending, reads.less⟩
      by_cases isGreater : ch = shGreater
      · exact isGreater ▸ ⟨.greater :: tokens, ending, reads.greater⟩
      by_cases isQuote : Quote ch
      · by_cases closed : ch ∈ line
        · obtain ⟨inside, rest, rfl, other⟩ := List.eq_append_cons_of_mem closed
          rw [List.length_append, List.length_cons] at isLength
          obtain ⟨others, otherEnding, readsRest⟩ := inductionHypothesis rest.length (by omega) rest rfl
          exact ⟨.quoted inside :: others, otherEnding, readsRest.quoted isQuote other⟩
        · exact ⟨[], .unterminated, .unterminated isQuote closed⟩
      · obtain ⟨text, rest, rfl, areOrdinary, stops⟩ : ∃ text rest, line = text ++ rest ∧
            (∀ other ∈ text, Ordinary other) ∧ ∀ other ∈ rest.head?, ¬ Ordinary other := by
          refine ⟨line.takeWhile fun other => Ordinary other, line.dropWhile fun other => Ordinary other,
            List.takeWhile_append_dropWhile.symm, ?_, ?_⟩
          · intro other member
            have holds := List.mem_takeWhile_imp member
            exact of_decide_eq_true holds
          · intro other isFirst
            have stops := List.head?_dropWhile_not (fun other => decide (Ordinary other)) line
            rw [isFirst] at stops
            exact of_decide_eq_false (by simpa using stops)
        have ordinary : ∀ other ∈ ch :: text, Ordinary other := by
          intro other member
          rcases List.mem_cons.mp member with rfl | inside
          · exact ⟨isBlank, isQuote, isAmper, isLess, isGreater⟩
          · exact areOrdinary other inside
        by_cases separates : Separates rest
        · rw [List.length_append] at isLength
          obtain ⟨others, otherEnding, readsRest⟩ := inductionHypothesis rest.length (by omega) rest rfl
          exact ⟨.word (ch :: text) :: others, otherEnding, readsRest.word ordinary separates⟩
        · refine ⟨[], .joined, .joined ordinary ?_⟩
          unfold Separates at separates
          push Not at separates
          obtain ⟨first, isFirst, notBlank, notAmper⟩ := separates
          refine ⟨first, isFirst, ?_⟩
          by_contra notJoined
          rw [not_or, not_or] at notJoined
          exact stops first isFirst ⟨notBlank, notJoined.1, notAmper, notJoined.2.1, notJoined.2.2⟩

theorem lexan_finishes {tokens : List Token} {ending : Ending} (reads : Reads (characters line) tokens ending)
    (tokbuf : Memory) (tok : Nat → Nat) (toktyp : Nat → Int) :
    Finishes (characters line) tokens ending [] (lexan line tokbuf tok toktyp) := by
  obtain ⟨ended, isLine, atEnd⟩ := exists_ended line
  have empty : (⟨0, 0, tokbuf, tok, toktyp⟩ : Scan).Has [] := by
    refine ⟨rfl, rfl, ?_, ?_, ?_⟩
    · rintro k ⟨⟩
    · rintro i ⟨⟩
    · rintro i token ⟨⟩
  have short : (characters line).length ≤ line.length := (List.takeWhile_sublist _).length_le
  have finishes := runs reads characters_inLine atEnd [] _ line.length empty (Nat.zero_le _) short
  rw [← isLine] at finishes
  exact finishes

end Lines

/-- `lexan` reads a line by the language of the shell, whatever its arrays held before. -/
def LexesExactly (line : List UInt8) : Prop :=
  ∀ tokens ending tokbuf tok toktyp, Reads (characters line) tokens ending →
    Outcome tokens ending (lexan line tokbuf tok toktyp)

/-- A line is read by the language of the shell unless it has 32 tokens and blanks behind the last one. -/
theorem lexes_exactly_iff (line : List UInt8) : LexesExactly line ↔
    ¬ ∃ tokens, Reads (characters line) tokens .complete ∧ tokens.length = shellMaxtok ∧
      TrailingBlank (characters line) := by
  constructor
  · rintro exact_ ⟨tokens, reads, full, trailing⟩
    have outcome := exact_ tokens .complete (fun _ => 0) (fun _ => 0) (fun _ => 0) reads
    unfold Outcome at outcome
    rw [if_pos ⟨rfl, Nat.le_of_eq full⟩] at outcome
    obtain ⟨s, accepted, _⟩ := outcome
    rcases lexan_finishes reads (fun _ => 0) (fun _ => 0) (fun _ => 0) with ⟨fits, _⟩ | ⟨_, rejected⟩
    · exact fits.2.2 ⟨by rw [List.length_nil, Nat.zero_add]; exact full, trailing⟩
    · cases accepted.symm.trans rejected
  · intro condition tokens ending tokbuf tok toktyp reads
    unfold Outcome
    rcases lexan_finishes reads tokbuf tok toktyp with ⟨fits, s, accepted, has⟩ | ⟨notFits, rejected⟩
    · have few := fits.2.1
      rw [List.length_nil, Nat.zero_add] at few
      rw [List.nil_append] at has
      rw [if_pos ⟨fits.1, few⟩]
      exact ⟨s, accepted, has.ntok, fun i token isToken => ⟨has.holds isToken, has.toktyp i token isToken⟩⟩
    · rw [if_neg]
      · exact rejected
      · rintro ⟨complete, few⟩
        subst complete
        refine notFits ⟨rfl, by rw [List.length_nil, Nat.zero_add]; exact few, ?_⟩
        rintro ⟨full, trailing⟩
        rw [List.length_nil, Nat.zero_add] at full
        exact condition ⟨tokens, reads, full, trailing⟩

/-- A line of words of one letter, with a blank behind each. -/
def letters : Nat → List UInt8
  | 0 => []
  | count + 1 => 97 :: 32 :: letters count

theorem reads_letters (count : Nat) : Reads (letters count) (List.replicate count (.word [97])) .complete := by
  induction count with
  | zero => exact .nil
  | succ count inductionHypothesis =>
    refine @Reads.word 97 [] (32 :: letters count) _ _ ?_ ?_ (inductionHypothesis.blank (Or.inl rfl))
    · intro other member
      rw [List.mem_singleton.mp member]
      decide
    · rintro other ⟨⟩
      exact Or.inl (Or.inl rfl)

/-- Thirty-two words with a blank behind the last one are refused. -/
theorem thirtytwo_words_are_refused : ¬ LexesExactly (letters 32) := by
  intro exact_
  have isLine : characters (letters 32) = letters 32 := by decide
  have outcome := exact_ (List.replicate 32 (.word [97])) .complete (fun _ => 0) (fun _ => 0) (fun _ => 0)
    (by rw [isLine]; exact reads_letters 32)
  obtain ⟨s, accepted, _⟩ : ∃ s, lexan (letters 32) (fun _ => 0) (fun _ => 0) (fun _ => 0) = some (some s) ∧ _ := outcome
  have refused : (lexan (letters 32) (fun _ => 0) (fun _ => 0) (fun _ => 0)).map Option.isSome = some false := by
    decide +kernel
  rw [accepted] at refused
  cases refused

end Xinu.LineTokens
