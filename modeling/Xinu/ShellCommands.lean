import Xinu.LineTokens
import Xinu.WordMemory

/-!
# Commands of the shell

The shell reads the tokens of a line from the end: an `&`, up to two redirections, and the tokens of the
command itself. The length of the token buffer shrinks with the number of tokens, so that `addargs` copies
the arguments and nothing else to the stack of the new process, behind the vector of their addresses.
-/

namespace Xinu.ShellCommands

open CIntegers StoredBytes LineTokens

section Source

/-- The variables of `shell` that describe a command. A name is its place in the token buffer. -/
structure Parse where
  ntok : Nat
  tlen : Int
  inname : Option Nat
  outname : Option Nat
  backgnd : Bool

/-- The last token may be an `&`. -/
def ampersand (s : Scan) : Parse :=
  if s.toktyp (s.ntok - 1) = shTokAmper then ⟨s.ntok - 1, s.tbindex - 2, none, none, true⟩
  else ⟨s.ntok, s.tbindex, none, none, false⟩

/-- A redirection at the end. The second time, the name must not have been set before. -/
def redirection (s : Scan) (second : Bool) (p : Parse) : Option Parse :=
  if 3 ≤ p.ntok ∧ (s.toktyp (p.ntok - 2) = shTokLess ∨ s.toktyp (p.ntok - 2) = shTokGreater) then
    if s.toktyp (p.ntok - 1) ≠ shTokOther then none
    else if s.toktyp (p.ntok - 2) = shTokLess then
      if second = true ∧ p.inname ≠ none then none
      else some { p with ntok := p.ntok - 2, tlen := s.tok (p.ntok - 2), inname := some (s.tok (p.ntok - 1)) }
    else if second = true ∧ p.outname ≠ none then none
    else some { p with ntok := p.ntok - 2, tlen := s.tok (p.ntok - 2), outname := some (s.tok (p.ntok - 1)) }
  else some p

/-- The parsing part of `shell`. There is no command in a line without tokens. -/
def parse (s : Scan) : Option Parse :=
  if s.ntok = 0 then none
  else (redirection s false (ampersand s)).bind fun p => (redirection s true p).bind fun p =>
    if p.ntok = 0 ∨ ¬ ∀ i < p.ntok, s.toktyp i = shTokOther then none else some p

/-- The loop of `addargs` that stores the addresses of the arguments. -/
def storeArgs (argstr : Nat) (tok : Nat → Nat) : Nat → Nat → Nat → Memory → Memory
  | 0, _, _, memory => memory
  | left + 1, i, aptr, memory =>
    storeArgs argstr tok left (i + 1) (aptr + 4) (WordMemory.store memory aptr (UInt32.ofNat (argstr + tok i)))

/-- The vector of the arguments with a null pointer, and the copy of the strings behind it. -/
def copyArgs (argloc ntok : Nat) (tok : Nat → Nat) (tlen : Nat) (tokbuf memory : Memory) : Memory :=
  let argstr := argloc + 4 * (ntok + 1)
  let memory := storeArgs argstr tok ntok 0 argloc memory
  copy (WordMemory.store memory (argloc + 4 * ntok) 0) argstr tokbuf tlen

/-- The search for the dummy argument, word by word. -/
def findDummy (memory : Memory) (dummy : UInt32) : Nat → Nat → Option Nat
  | 0, _ => none
  | left + 1, search =>
    if WordMemory.load memory search = dummy then some search else findDummy memory dummy left (search + 4)

/-- `addargs` for a process with a certain stack, with what it returns. -/
def addargs (prstkbase prstklen prstkptr : Nat) (ntok : Int) (tok : Nat → Nat) (tlen : Int) (tokbuf : Memory)
    (dummy : UInt32) (memory : Memory) : Option Unit × Memory :=
  if ntok ≤ 0 ∨ tlen < 0 then (none, memory)
  else
    let argloc := (prstkbase - prstklen + 4 + 3) / 4 * 4
    let memory := copyArgs argloc ntok.toNat tok tlen.toNat tokbuf memory
    match findDummy memory dummy ((prstkbase - prstkptr + 3) / 4) prstkptr with
    | none => (none, memory)
    | some search => (some (), WordMemory.store memory search (UInt32.ofNat argloc))

end Source

section Grammar

/-- The tokens that names and arguments consist of. -/
def Plain (token : Token) : Prop := token.typ = shTokOther

/-- At most one input and one output, in either order. -/
inductive Redirected : List Token → Option Token → Option Token → Prop
  | none : Redirected [] .none .none
  | input {name} : Plain name → Redirected [.less, name] (some name) .none
  | output {name} : Plain name → Redirected [.greater, name] .none (some name)
  | inputOutput {name other} : Plain name → Plain other →
      Redirected [.less, name, .greater, other] (some name) (some other)
  | outputInput {name other} : Plain name → Plain other →
      Redirected [.greater, other, .less, name] (some name) (some other)

/-- A command with its arguments, the first of which is its name. -/
structure Command where
  args : List Token
  input : Option Token
  output : Option Token
  background : Bool

/-- The tokens of a command. -/
def Spells (tokens : List Token) (command : Command) : Prop :=
  command.args ≠ [] ∧ (∀ token ∈ command.args, Plain token) ∧
    ∃ redirected, Redirected redirected command.input command.output ∧
      tokens = command.args ++ redirected ++ if command.background = true then [.amper] else []

/-- The variables of `shell` describe a command. -/
structure Describes (s : Scan) (p : Parse) (command : Command) : Prop where
  ntok : p.ntok = command.args.length
  args : ∀ i token, command.args[i]? = some token → Holds s.tokbuf (s.tok i) (token.text ++ [0])
  inname : Option.Rel (fun place token => Holds s.tokbuf place (token.text ++ [0])) p.inname command.input
  outname : Option.Rel (fun place token => Holds s.tokbuf place (token.text ++ [0])) p.outname command.output
  backgnd : p.backgnd = command.background
  tlen : p.tlen = (contents command.args).length

/-- The arguments are found by their addresses, and nothing is stored behind them. -/
structure Passes (command : Command) (argloc : Nat) (before after : Memory) : Prop where
  args : ∀ i token, command.args[i]? = some token → ∃ place,
    WordMemory.load after (argloc + 4 * i) = UInt32.ofNat place ∧ Holds after place (token.text ++ [0])
  null : WordMemory.load after (argloc + 4 * command.args.length) = 0
  others : ∀ address, address < argloc ∨
    argloc + 4 * (command.args.length + 1) + (contents command.args).length ≤ address → after address = before address

end Grammar

section Parsing

variable {s : Scan} {tokens front : List Token} {name : Token} {input output : Option Nat} {background second : Bool}

/-- The variables for the first tokens of a line. -/
def at_ (front : List Token) (input output : Option Nat) (background : Bool) : Parse :=
  ⟨front.length, (contents front).length, input, output, background⟩

theorem getElem?_of_front (isPrefix : front <+: tokens) {i : Nat} {token : Token} (isToken : front[i]? = some token) :
    tokens[i]? = some token := by
  obtain ⟨rest, rfl⟩ := isPrefix
  rw [List.getElem?_append_left (List.getElem?_eq_some_iff.mp isToken).1, isToken]

theorem tok_of_front (has : s.Has tokens) (isPrefix : front <+: tokens) (less : front.length < tokens.length) :
    s.tok front.length = (contents front).length := by
  obtain ⟨rest, rfl⟩ := isPrefix
  rw [has.tok front.length less, List.take_left]

/-- The types of the last two tokens. -/
theorem last_types (has : s.Has tokens) {mark : Token} (isPrefix : front ++ [mark, name] <+: tokens) :
    s.toktyp ((front ++ [mark, name]).length - 2) = mark.typ ∧ s.toktyp ((front ++ [mark, name]).length - 1) = name.typ ∧
      s.tok ((front ++ [mark, name]).length - 2) = (contents front).length := by
  have first : (front ++ [mark, name]).length - 2 = front.length := by simp
  have last : (front ++ [mark, name]).length - 1 = front.length + 1 := by simp
  rw [first, last]
  refine ⟨has.toktyp _ _ (getElem?_of_front isPrefix (by simp)), has.toktyp _ _ (getElem?_of_front isPrefix (by simp)),
    tok_of_front has ((List.prefix_append front _).trans isPrefix) ?_⟩
  have short := isPrefix.length_le
  simp only [List.length_append, List.length_cons, List.length_nil] at short
  lia

theorem type_of_front (has : s.Has tokens) (isPrefix : front <+: tokens) {i : Nat} (inside : i < front.length) :
    s.toktyp i = (front.get ⟨i, inside⟩).typ :=
  has.toktyp i _ (getElem?_of_front isPrefix (List.getElem?_eq_getElem inside))

/-- Without a redirection at the end, nothing is changed. -/
theorem redirection_plain (has : s.Has tokens) (isPrefix : front <+: tokens) (plain : ∀ token ∈ front, Plain token) :
    redirection s second (at_ front input output background) = some (at_ front input output background) := by
  apply if_neg
  rintro ⟨long, special⟩
  have inside : front.length - 2 < front.length := by
    change 3 ≤ front.length at long
    omega
  have isOther : s.toktyp (front.length - 2) = shTokOther :=
    (type_of_front has isPrefix inside).trans (plain _ (List.get_mem front ⟨_, inside⟩))
  rcases special with isLess | isGreater
  · exact absurd (isOther.symm.trans isLess) (by decide)
  · exact absurd (isOther.symm.trans isGreater) (by decide)

/-- A name with a mark before it is taken off, where it was not set before. -/
theorem redirection_less (has : s.Has tokens) (isPrefix : front ++ [.less, name] <+: tokens) (nonempty : front ≠ [])
    (plain : Plain name) (free : second = true → input = none) :
    redirection s second (at_ (front ++ [.less, name]) input output background) =
      some (at_ front (some (s.tok ((front ++ [.less, name]).length - 1))) output background) := by
  obtain ⟨isLess, isName, place⟩ := last_types has isPrefix
  change _ = shTokLess at isLess
  have long : 3 ≤ (front ++ [Token.less, name]).length := by
    have := List.length_pos_of_ne_nil nonempty
    rw [List.length_append]
    change 3 ≤ front.length + 2
    lia
  unfold redirection at_
  dsimp only
  rw [if_pos ⟨long, Or.inl isLess⟩, if_neg (not_not_intro (isName.trans plain)), if_pos isLess,
    if_neg (fun set => set.2 (free set.1)), place]
  simp

theorem redirection_greater (has : s.Has tokens) (isPrefix : front ++ [.greater, name] <+: tokens) (nonempty : front ≠ [])
    (plain : Plain name) (free : second = true → output = none) :
    redirection s second (at_ (front ++ [.greater, name]) input output background) =
      some (at_ front input (some (s.tok ((front ++ [.greater, name]).length - 1))) background) := by
  obtain ⟨isGreater, isName, place⟩ := last_types has isPrefix
  have long : 3 ≤ (front ++ [Token.greater, name]).length := by
    have := List.length_pos_of_ne_nil nonempty
    rw [List.length_append]
    change 3 ≤ front.length + 2
    omega
  have notLess : s.toktyp ((front ++ [Token.greater, name]).length - 2) ≠ shTokLess := by
    rw [isGreater]
    decide
  unfold redirection at_
  dsimp only
  rw [if_pos ⟨long, Or.inr isGreater⟩, if_neg (not_not_intro (isName.trans plain)), if_neg notLess,
    if_neg (fun set => set.2 (free set.1)), place]
  simp

theorem exists_last_two (long : 2 ≤ front.length) : ∃ rest mark name, front = rest ++ [mark, name] := by
  have nonempty : front ≠ [] := List.ne_nil_of_length_pos (by omega)
  obtain ⟨others, name, rfl⟩ : ∃ others name, front = others ++ [name] :=
    ⟨_, _, (List.dropLast_append_getLast nonempty).symm⟩
  rw [List.length_append, List.length_singleton] at long
  have stillNonempty : others ≠ [] := List.ne_nil_of_length_pos (by omega)
  refine ⟨others.dropLast, others.getLast stillNonempty, name, ?_⟩
  conv_lhs => rw [← List.dropLast_append_getLast stillNonempty]
  rw [List.append_assoc]
  rfl

/-- Whatever is taken off is a mark and a name. -/
theorem redirection_cases (has : s.Has tokens) (isPrefix : front <+: tokens) {q : Parse}
    (accepted : redirection s second (at_ front input output background) = some q) :
    q = at_ front input output background ∨
      (∃ rest name place, front = rest ++ [.less, name] ∧ Plain name ∧ (second = true → input = none) ∧
        q = at_ rest (some place) output background) ∨
      ∃ rest name place, front = rest ++ [.greater, name] ∧ Plain name ∧ (second = true → output = none) ∧
        q = at_ rest input (some place) background := by
  by_cases condition : 3 ≤ front.length ∧
      (s.toktyp (front.length - 2) = shTokLess ∨ s.toktyp (front.length - 2) = shTokGreater)
  · obtain ⟨rest, mark, name, rfl⟩ := @exists_last_two front (by omega)
    obtain ⟨isMark, isName, _⟩ := last_types has isPrefix
    have nonempty : rest ≠ [] := by
      rintro rfl
      have tooLong : 3 ≤ 2 := condition.1
      omega
    have opened := accepted
    unfold redirection at_ at opened
    dsimp only at opened
    rw [if_pos condition] at opened
    have plain : Plain name := by
      by_contra notPlain
      rw [if_pos (by rw [isName]; exact notPlain)] at opened
      cases opened
    rw [if_neg (not_not_intro (isName.trans plain)), isMark] at opened
    rw [isMark] at condition
    cases mark with
    | less =>
      have free : second = true → input = none := by
        intro isSecond
        by_contra set
        rw [if_pos (by decide : Token.less.typ = shTokLess), if_pos ⟨isSecond, set⟩] at opened
        cases opened
      rw [redirection_less has isPrefix nonempty plain free] at accepted
      exact Or.inr (Or.inl ⟨rest, name, _, rfl, plain, free, (Option.some.inj accepted).symm⟩)
    | greater =>
      have free : second = true → output = none := by
        intro isSecond
        by_contra set
        rw [if_neg (by decide : Token.greater.typ ≠ shTokLess), if_pos ⟨isSecond, set⟩] at opened
        cases opened
      rw [redirection_greater has isPrefix nonempty plain free] at accepted
      exact Or.inr (Or.inr ⟨rest, name, _, rfl, plain, free, (Option.some.inj accepted).symm⟩)
    | amper => exact absurd condition.2 (by decide)
    | quoted inside => exact absurd condition.2 (by change ¬ (shTokOther = _ ∨ shTokOther = _); decide)
    | word text => exact absurd condition.2 (by change ¬ (shTokOther = _ ∨ shTokOther = _); decide)
  · left
    unfold redirection at_ at accepted
    dsimp only at accepted
    rw [if_neg condition] at accepted
    exact (Option.some.inj accepted).symm

/-- The `&` at the end is taken off. -/
theorem ampersand_append (has : s.Has (front ++ [.amper])) : ampersand s = at_ front none none true := by
  have isAmper : s.toktyp (s.ntok - 1) = shTokAmper := by
    have last : s.ntok - 1 = front.length := by rw [has.ntok]; simp
    rw [last]
    exact has.toktyp front.length .amper (by simp)
  have length : (s.tbindex : Int) - 2 = (contents front).length := by
    rw [has.tlen, contents_append, List.length_append]
    change ((contents front).length + 2 : Nat) - (2 : Int) = _
    lia
  unfold ampersand at_
  rw [if_pos isAmper, length, has.ntok]
  simp

theorem ampersand_plain (has : s.Has tokens) (nonempty : tokens ≠ []) (notAmper : tokens.getLast nonempty ≠ .amper) :
    ampersand s = at_ tokens none none false := by
  have isLast := has.toktyp (tokens.length - 1) (tokens.getLast nonempty)
    (by rw [← List.getLast?_eq_getElem?, List.getLast?_eq_some_getLast])
  have notType : s.toktyp (s.ntok - 1) ≠ shTokAmper := by
    rw [has.ntok, isLast]
    cases isToken : tokens.getLast nonempty with
    | amper => exact absurd isToken notAmper
    | less => decide
    | greater => decide
    | quoted inside => exact (by decide : shTokOther ≠ shTokAmper)
    | word text => exact (by decide : shTokOther ≠ shTokAmper)
  unfold ampersand at_
  rw [if_neg notType, has.ntok, has.tlen]

/-- The rest of the tokens is the command itself. -/
theorem plain_iff (has : s.Has tokens) (isPrefix : front <+: tokens) :
    (front.length = 0 ∨ ¬ ∀ i < front.length, s.toktyp i = shTokOther) ↔
      ¬ (front ≠ [] ∧ ∀ token ∈ front, Plain token) := by
  have types : (∀ i < front.length, s.toktyp i = shTokOther) ↔ ∀ token ∈ front, Plain token := by
    constructor
    · intro others token member
      obtain ⟨i, inside, rfl⟩ := List.getElem_of_mem member
      exact (type_of_front has isPrefix inside).symm.trans (others i inside)
    · intro plain i inside
      exact (type_of_front has isPrefix inside).trans (plain _ (List.get_mem front ⟨i, inside⟩))
  rw [types, List.length_eq_zero_iff]
  tauto

theorem name_holds (has : s.Has tokens) {mark : Token} (isPrefix : front ++ [mark, name] <+: tokens) :
    Holds s.tokbuf (s.tok ((front ++ [mark, name]).length - 1)) (name.text ++ [0]) :=
  has.holds (getElem?_of_front isPrefix (by simp))

/-- The steps of the parser, put together. -/
theorem parse_eq (has : s.Has tokens) {args : List Token} (isPrefix : args <+: tokens) (nonempty : args ≠ [])
    (plain : ∀ token ∈ args, Plain token) {q : Parse} (first : redirection s false (ampersand s) = some q)
    (then_ : redirection s true q = some (at_ args input output background)) :
    parse s = some (at_ args input output background) := by
  have someTokens : s.ntok ≠ 0 := by
    rw [has.ntok]
    exact fun none_ => nonempty (List.prefix_nil.mp (List.length_eq_zero_iff.mp none_ ▸ isPrefix))
  unfold parse
  rw [if_neg someTokens, first, Option.bind_some, then_, Option.bind_some]
  apply if_neg
  change ¬ (args.length = 0 ∨ ¬ ∀ i < args.length, s.toktyp i = shTokOther)
  rw [plain_iff has isPrefix, not_not]
  exact ⟨nonempty, plain⟩

theorem describes_at (has : s.Has tokens) {command : Command} (isPrefix : command.args <+: tokens)
    (isInput : Option.Rel (fun place token => Holds s.tokbuf place (token.text ++ [0])) input command.input)
    (isOutput : Option.Rel (fun place token => Holds s.tokbuf place (token.text ++ [0])) output command.output) :
    Describes s (at_ command.args input output command.background) command :=
  ⟨rfl, fun _ _ isToken => has.holds (getElem?_of_front isPrefix isToken), isInput, isOutput, rfl, rfl⟩

end Parsing

section Commands

variable {s : Scan} {tokens : List Token} {command : Command}

theorem Redirected.last_plain {redirected args : List Token} {input output : Option Token}
    (isRedirected : Redirected redirected input output) (plain : ∀ token ∈ args, Plain token)
    (nonempty : args ++ redirected ≠ []) : Plain ((args ++ redirected).getLast nonempty) := by
  cases isRedirected with
  | none =>
    simp only [List.append_nil] at nonempty ⊢
    exact plain _ (List.getLast_mem nonempty)
  | input isPlain => simpa using isPlain
  | output isPlain => simpa using isPlain
  | inputOutput _ isPlain => simpa using isPlain
  | outputInput isPlain _ => simpa using isPlain

theorem parse_of_spells (has : s.Has tokens) (spells : Spells tokens command) :
    ∃ p, parse s = some p ∧ Describes s p command := by
  obtain ⟨args, input, output, background⟩ := command
  obtain ⟨nonempty, plain, redirected, isRedirected, isTokens⟩ := spells
  dsimp only at *
  have isPrefix : args ++ redirected <+: tokens := isTokens ▸ List.prefix_append _ _
  have argsPrefix : args <+: tokens := (List.prefix_append args redirected).trans isPrefix
  have start : ampersand s = at_ (args ++ redirected) none none background := by
    cases background with
    | true =>
      apply ampersand_append
      rwa [isTokens] at has
    | false =>
      rw [if_neg (by decide), List.append_nil] at isTokens
      have stillNonempty : args ++ redirected ≠ [] := fun none_ => nonempty (List.append_eq_nil_iff.mp none_).1
      subst isTokens
      refine ampersand_plain has stillNonempty fun isAmper => ?_
      have lastPlain := isRedirected.last_plain plain stillNonempty
      rw [isAmper] at lastPlain
      exact absurd lastPlain (by decide : ¬ (shTokAmper = shTokOther))
  -- the redirections are taken off from the end
  cases isRedirected with
  | none =>
    rw [List.append_nil] at start
    have stays := fun second => @redirection_plain s tokens args none none background second has argsPrefix plain
    exact ⟨_, parse_eq has argsPrefix nonempty plain (start ▸ stays false) (stays true),
      @describes_at s tokens none none has ⟨args, none, none, background⟩ argsPrefix .none .none⟩
  | @input name isPlain =>
    have taken := @redirection_less s tokens args name none none background false has isPrefix nonempty isPlain
      (fun second => by cases second)
    exact ⟨_, parse_eq has argsPrefix nonempty plain (start ▸ taken) (redirection_plain has argsPrefix plain),
      @describes_at s tokens _ none has ⟨args, some name, none, background⟩ argsPrefix
        (.some (name_holds has isPrefix)) .none⟩
  | @output name isPlain =>
    have taken := @redirection_greater s tokens args name none none background false has isPrefix nonempty isPlain
      (fun second => by cases second)
    exact ⟨_, parse_eq has argsPrefix nonempty plain (start ▸ taken) (redirection_plain has argsPrefix plain),
      @describes_at s tokens none _ has ⟨args, none, some name, background⟩ argsPrefix .none
        (.some (name_holds has isPrefix))⟩
  | @inputOutput name other isPlain otherPlain =>
    have split_ : args ++ [Token.less, name, Token.greater, other] =
        (args ++ [Token.less, name]) ++ [Token.greater, other] := by simp
    rw [split_] at isPrefix start
    have innerPrefix := (List.prefix_append _ _).trans isPrefix
    have taken := @redirection_greater s tokens (args ++ [.less, name]) other none none background false has isPrefix
      (by simp) otherPlain (fun second => by cases second)
    have takenNext := @redirection_less s tokens args name none
      (some (s.tok ((args ++ [.less, name] ++ [.greater, other]).length - 1))) background true has innerPrefix nonempty
      isPlain (fun _ => rfl)
    exact ⟨_, parse_eq has argsPrefix nonempty plain (start ▸ taken) takenNext,
      @describes_at s tokens _ _ has ⟨args, some name, some other, background⟩ argsPrefix
        (.some (name_holds has innerPrefix)) (.some (name_holds has isPrefix))⟩
  | @outputInput name other isPlain otherPlain =>
    have split_ : args ++ [Token.greater, other, Token.less, name] =
        (args ++ [Token.greater, other]) ++ [Token.less, name] := by simp
    rw [split_] at isPrefix start
    have innerPrefix := (List.prefix_append _ _).trans isPrefix
    have taken := @redirection_less s tokens (args ++ [.greater, other]) name none none background false has isPrefix
      (by simp) isPlain (fun second => by cases second)
    have takenNext := @redirection_greater s tokens args other
      (some (s.tok ((args ++ [.greater, other] ++ [.less, name]).length - 1))) none background true has innerPrefix
      nonempty otherPlain (fun _ => rfl)
    exact ⟨_, parse_eq has argsPrefix nonempty plain (start ▸ taken) takenNext,
      @describes_at s tokens _ _ has ⟨args, some name, some other, background⟩ argsPrefix
        (.some (name_holds has isPrefix)) (.some (name_holds has innerPrefix))⟩

/-- The tokens before an `&` at the end. -/
theorem ampersand_cases (has : s.Has tokens) (nonempty : tokens ≠ []) : ∃ front background,
    tokens = front ++ (if background = true then [.amper] else []) ∧ ampersand s = at_ front none none background := by
  by_cases isAmper : tokens.getLast nonempty = .amper
  · have isTokens := (List.dropLast_append_getLast nonempty).symm
    rw [isAmper] at isTokens
    rw [isTokens] at has
    exact ⟨tokens.dropLast, true, isTokens, ampersand_append has⟩
  · exact ⟨tokens, false, (List.append_nil _).symm, ampersand_plain has nonempty isAmper⟩

/-- Whatever is accepted spells a command. -/
theorem spells_of_parse (has : s.Has tokens) {p : Parse} (accepted : parse s = some p) :
    ∃ command, Spells tokens command := by
  have nonempty : tokens ≠ [] := by
    rintro rfl
    unfold parse at accepted
    have noTokens : s.ntok = 0 := has.ntok
    rw [if_pos noTokens] at accepted
    cases accepted
  obtain ⟨front, background, isTokens, start⟩ := ampersand_cases has nonempty
  unfold parse at accepted
  rw [if_neg (by rw [has.ntok]; exact fun none_ => nonempty (List.length_eq_zero_iff.mp none_)), start] at accepted
  obtain ⟨first, isFirst, accepted⟩ := Option.bind_eq_some_iff.mp accepted
  obtain ⟨second, isSecond, accepted⟩ := Option.bind_eq_some_iff.mp accepted
  have isPrefix : front <+: tokens := isTokens ▸ List.prefix_append _ _
  -- what is left is the command itself
  have rest : ∀ args input output, args <+: tokens → second = at_ args input output background →
      args ≠ [] ∧ ∀ token ∈ args, Plain token := by
    rintro args input output argsPrefix rfl
    by_contra notPlain
    have refused := (plain_iff has argsPrefix).mpr notPlain
    cases (if_pos refused).symm.trans accepted
  rcases redirection_cases has isPrefix isFirst with
    rfl | ⟨others, name, place, rfl, isPlain, _, rfl⟩ | ⟨others, name, place, rfl, isPlain, _, rfl⟩
  · rcases redirection_cases has isPrefix isSecond with
      isAt | ⟨args, name, place, rfl, isPlain, _, isAt⟩ | ⟨args, name, place, rfl, isPlain, _, isAt⟩
    · obtain ⟨argsNonempty, plain⟩ := rest _ _ _ isPrefix isAt
      exact ⟨⟨front, none, none, background⟩, argsNonempty, plain, [], .none, by simpa using isTokens⟩
    · obtain ⟨argsNonempty, plain⟩ := rest _ _ _ ((List.prefix_append _ _).trans isPrefix) isAt
      exact ⟨⟨args, some name, none, background⟩, argsNonempty, plain, _, .input isPlain, isTokens⟩
    · obtain ⟨argsNonempty, plain⟩ := rest _ _ _ ((List.prefix_append _ _).trans isPrefix) isAt
      exact ⟨⟨args, none, some name, background⟩, argsNonempty, plain, _, .output isPlain, isTokens⟩
  · have innerPrefix := (List.prefix_append _ _).trans isPrefix
    rcases redirection_cases has innerPrefix isSecond with
      isAt | ⟨args, other, _, rfl, otherPlain, free, isAt⟩ | ⟨args, other, _, rfl, otherPlain, _, isAt⟩
    · obtain ⟨argsNonempty, plain⟩ := rest _ _ _ innerPrefix isAt
      exact ⟨⟨others, some name, none, background⟩, argsNonempty, plain, _, .input isPlain, isTokens⟩
    · cases free rfl
    · obtain ⟨argsNonempty, plain⟩ := rest _ _ _ ((List.prefix_append _ _).trans innerPrefix) isAt
      exact ⟨⟨args, some name, some other, background⟩, argsNonempty, plain, _, .outputInput isPlain otherPlain,
        by simpa using isTokens⟩
  · have innerPrefix := (List.prefix_append _ _).trans isPrefix
    rcases redirection_cases has innerPrefix isSecond with
      isAt | ⟨args, other, _, rfl, otherPlain, _, isAt⟩ | ⟨args, other, _, rfl, otherPlain, free, isAt⟩
    · obtain ⟨argsNonempty, plain⟩ := rest _ _ _ innerPrefix isAt
      exact ⟨⟨others, none, some name, background⟩, argsNonempty, plain, _, .output isPlain, isTokens⟩
    · obtain ⟨argsNonempty, plain⟩ := rest _ _ _ ((List.prefix_append _ _).trans innerPrefix) isAt
      exact ⟨⟨args, some other, some name, background⟩, argsNonempty, plain, _, .inputOutput otherPlain isPlain,
        by simpa using isTokens⟩
    · cases free rfl

end Commands

section Arguments

variable {argstr left i aptr address : Nat} {tok : Nat → Nat} {memory : Memory}

theorem storeArgs_outside (outside : address < aptr ∨ aptr + 4 * left ≤ address) :
    storeArgs argstr tok left i aptr memory address = memory address := by
  induction left generalizing i aptr memory with
  | zero => rfl
  | succ left inductionHypothesis =>
    unfold storeArgs
    rw [inductionHypothesis (by lia), WordMemory.store_outside (by lia)]

theorem load_storeArgs {j : Nat} (inside : j < left) :
    WordMemory.load (storeArgs argstr tok left i aptr memory) (aptr + 4 * j) = UInt32.ofNat (argstr + tok (i + j)) := by
  induction left generalizing i aptr memory j with
  | zero => omega
  | succ left inductionHypothesis =>
    unfold storeArgs
    cases j with
    | zero =>
      have kept : WordMemory.load (storeArgs argstr tok left (i + 1) (aptr + 4)
          (WordMemory.store memory aptr (UInt32.ofNat (argstr + tok i)))) (aptr + 4 * 0) =
          WordMemory.load (WordMemory.store memory aptr (UInt32.ofNat (argstr + tok i))) (aptr + 4 * 0) :=
        WordMemory.load_congr fun k below => storeArgs_outside (by omega)
      rw [kept]
      exact WordMemory.load_store_same
    | succ j =>
      have next := @inductionHypothesis (i + 1) (aptr + 4) (WordMemory.store memory aptr (UInt32.ofNat (argstr + tok i)))
        j (by omega)
      have place : aptr + 4 * (j + 1) = aptr + 4 + 4 * j := by lia
      have index : i + (j + 1) = i + 1 + j := by lia
      rw [place, next, index]

/-- `addargs` passes the arguments of a command, and nothing of its redirections. -/
theorem passes_copyArgs {s : Scan} {tokens : List Token} {command : Command} (has : s.Has tokens)
    (argsPrefix : command.args <+: tokens) (argloc : Nat) : Passes command argloc memory
      (copyArgs argloc command.args.length s.tok (contents command.args).length s.tokbuf memory) := by
  have whole : Holds s.tokbuf 0 (contents command.args) := by
    obtain ⟨rest, rfl⟩ := argsPrefix
    have holds := has.tokbuf
    rw [contents_append] at holds
    exact (holds_append.mp holds).1
  constructor
  · intro i token isToken
    have inside := (List.getElem?_eq_some_iff.mp isToken).1
    refine ⟨argloc + 4 * (command.args.length + 1) + s.tok i, ?_, ?_⟩
    · have kept : ∀ k < 4, copyArgs argloc command.args.length s.tok (contents command.args).length s.tokbuf memory
          (argloc + 4 * i + k) = storeArgs (argloc + 4 * (command.args.length + 1)) s.tok command.args.length 0 argloc
            memory (argloc + 4 * i + k) := by
        intro k below
        unfold copyArgs
        rw [copy_outside _ _ _ _ _ (by lia), WordMemory.store_outside (by lia)]
      have loaded := @load_storeArgs (argloc + 4 * (command.args.length + 1)) command.args.length 0 argloc s.tok memory
        i inside
      rw [Nat.zero_add] at loaded
      rw [WordMemory.load_congr kept, loaded]
    · have isTok := has.tok i (Nat.lt_of_lt_of_le inside argsPrefix.length_le)
      have sameTake : tokens.take i = command.args.take i := by
        obtain ⟨rest, rfl⟩ := argsPrefix
        exact List.take_append_of_le_length (Nat.le_of_lt inside)
      rw [sameTake] at isTok
      have room : s.tok i + (token.text ++ [0]).length ≤ (contents command.args).length := by
        have split_ : command.args = command.args.take i ++ (token :: command.args.drop (i + 1)) := by
          rw [← (List.getElem?_eq_some_iff.mp isToken).2, List.cons_getElem_drop_succ, List.take_append_drop]
        have first : contents (token :: command.args.drop (i + 1)) =
            (token.text ++ [0]) ++ contents (command.args.drop (i + 1)) := List.flatMap_cons
        have whole : contents command.args = contents (command.args.take i) ++
            ((token.text ++ [0]) ++ contents (command.args.drop (i + 1))) := by
          conv_lhs => rw [split_]
          rw [contents_append, first]
        rw [whole, isTok]
        simp only [List.length_append]
        lia
      intro k below
      rw [Nat.add_assoc]
      exact (copy_inside _ _ _ _ _ (by lia)).trans (has.holds (getElem?_of_front argsPrefix isToken) k below)
  · have kept : ∀ k < 4, copyArgs argloc command.args.length s.tok (contents command.args).length s.tokbuf memory
        (argloc + 4 * command.args.length + k) = WordMemory.store (storeArgs (argloc + 4 * (command.args.length + 1))
          s.tok command.args.length 0 argloc memory) (argloc + 4 * command.args.length) 0
          (argloc + 4 * command.args.length + k) := by
      intro k below
      exact copy_outside _ _ _ _ _ (by lia)
    rw [WordMemory.load_congr kept, WordMemory.load_store_same]
  · intro address outside
    unfold copyArgs
    rw [copy_outside _ _ _ _ _ (by omega), WordMemory.store_outside (by lia), storeArgs_outside (by lia)]

theorem findDummy_ge {dummy : UInt32} {search found : Nat} (isFound : findDummy memory dummy left search = some found) :
    search ≤ found := by
  induction left generalizing search with
  | zero => cases isFound
  | succ left inductionHypothesis =>
    unfold findDummy at isFound
    split at isFound
    · cases isFound
      exact Nat.le_refl _
    · have next := inductionHypothesis isFound
      omega

/-- The word that is replaced at the end lies in the part of the stack that is in use. -/
theorem addargs_below {prstkbase prstklen prstkptr ntok tlen : Nat} {tokbuf : Memory} {dummy : UInt32} (someArgs : 0 < ntok)
    (below : address < prstkptr) :
    (addargs prstkbase prstklen prstkptr ntok tok tlen tokbuf dummy memory).2 address =
      copyArgs ((prstkbase - prstklen + 4 + 3) / 4 * 4) ntok tok tlen tokbuf memory address := by
  unfold addargs
  rw [if_neg (by lia)]
  dsimp only
  rw [Int.toNat_natCast, Int.toNat_natCast]
  split
  · rfl
  · rename_i search isFound
    have behind := findDummy_ge isFound
    exact WordMemory.store_outside (Or.inl (by lia))

end Arguments

/-- The shell accepts just the commands of its grammar, and describes and passes them as they are written. -/
theorem commands_are_parsed {line : List UInt8} {tokbuf : Memory} {tok : Nat → Nat} {toktyp : Nat → Int}
    {tokens : List Token} {ending : Ending} {s : Scan} (reads : Reads (characters line) tokens ending)
    (lexed : lexan line tokbuf tok toktyp = some (some s)) :
    ((parse s).isSome = true ↔ ∃ command, Spells tokens command) ∧
      ∀ command, Spells tokens command → ∃ p, parse s = some p ∧ Describes s p command ∧
        ∀ argloc memory, Passes command argloc memory (copyArgs argloc p.ntok s.tok p.tlen.toNat s.tokbuf memory) := by
  have has : s.Has tokens := by
    rcases lexan_finishes reads tokbuf tok toktyp with ⟨_, other, accepted, has⟩ | ⟨_, rejected⟩
    · cases lexed.symm.trans accepted
      exact has
    · cases lexed.symm.trans rejected
  constructor
  · constructor
    · intro accepted
      obtain ⟨p, isParse⟩ := Option.isSome_iff_exists.mp accepted
      exact spells_of_parse has isParse
    · rintro ⟨command, spells⟩
      obtain ⟨p, isParse, _⟩ := parse_of_spells has spells
      exact Option.isSome_of_eq_some isParse
  · intro command spells
    obtain ⟨p, isParse, describes⟩ := parse_of_spells has spells
    refine ⟨p, isParse, describes, fun argloc memory => ?_⟩
    have argsPrefix : command.args <+: tokens := by
      obtain ⟨_, _, redirected, _, rfl⟩ := spells
      exact (List.prefix_append _ _).trans (List.prefix_append _ _)
    rw [describes.ntok, describes.tlen, Int.toNat_natCast]
    exact passes_copyArgs has argsPrefix argloc

/-- A command that reads a file in the background. -/
theorem command_in_background : ∃ s p,
    lexan [97, 32, 60, 98, 38] (fun _ => 0) (fun _ => 0) (fun _ => 0) = some (some s) ∧ parse s = some p ∧
      Describes s p ⟨[.word [97]], some (.word [98]), none, true⟩ := by
  have reads : Reads (characters [97, 32, 60, 98, 38]) [.word [97], .less, .word [98], .amper] .complete := by
    have name : ∀ other ∈ [(98 : UInt8)], Ordinary other := by
      intro other member
      rw [List.mem_singleton.mp member]
      decide
    have command : ∀ other ∈ [(97 : UInt8)], Ordinary other := by
      intro other member
      rw [List.mem_singleton.mp member]
      decide
    refine @Reads.word 97 [] [32, 60, 98, 38] _ _ command ?_ (.blank (Or.inl rfl) (.less
      (@Reads.word 98 [] [38] _ _ name ?_ (.amper .nil))))
    · rintro ch ⟨⟩
      exact Or.inl (Or.inl rfl)
    · rintro ch ⟨⟩
      exact Or.inr rfl
  have spells : Spells [.word [97], .less, .word [98], .amper] ⟨[.word [97]], some (.word [98]), none, true⟩ := by
    refine ⟨List.cons_ne_nil _ _, ?_, _, .input rfl, rfl⟩
    intro token member
    rw [List.mem_singleton.mp member]
    rfl
  have isLexed : (lexan [97, 32, 60, 98, 38] (fun _ => 0) (fun _ => 0) (fun _ => 0)).map Option.isSome = some true := by
    decide +kernel
  obtain ⟨outcome, lexed, accepted⟩ := Option.map_eq_some_iff.mp isLexed
  obtain ⟨s, rfl⟩ := Option.isSome_iff_exists.mp accepted
  obtain ⟨p, isParse, describes, _⟩ := (commands_are_parsed reads lexed).2 _ spells
  exact ⟨s, p, lexed, isParse, describes⟩

end Xinu.ShellCommands
