import Xinu.DnsNames

/-!
# Bounds of DNS responses

The counts, the lengths and the pointers of a response are taken as they come. A pointer that is followed
loses its mark, so that every name ends or leaves the 512 bytes of the response. Nothing keeps it from
leaving them, or from being longer than `rname`.
-/

namespace Xinu.DnsBounds

open CIntegers NetworkOrder StoredBytes
open DnsNames (dot)

section Source

/-- Why a call has no result: it has no turns left, or it is outside the response or outside `rname`. -/
inductive Stop
  | turns
  | outside
deriving DecidableEq

/-- `dns_getrname` with some room in `rname`. Places are counted from the start of the response. -/
def dnsGetrname : Nat → Nat → Nat → Memory → Except Stop (List UInt8 × Nat × Memory)
  | 0, _, _, _ => .error .turns
  | turns + 1, room, son, memory =>
    if 512 ≤ son then .error .outside
    else if memory son = 0 then if room = 0 then .error .outside else .ok ([], son + 1, memory)
    else if (memory son).toNat ≤ 63 then
      let llen := (memory son).toNat
      if 512 < son + 1 + llen ∨ room < llen + 1 then .error .outside
      else (dnsGetrname turns (room - (llen + 1)) (son + 1 + llen) memory).map fun rest =>
        (bytesAt memory (son + 1) llen ++ dot :: rest.1, rest.2)
    else if 512 ≤ son + 1 then .error .outside
    else
      let memory := store memory son [memory son &&& 0x3f]
      let offset := (memory son).toNat * 256 + (memory (son + 1)).toNat
      (dnsGetrname turns room offset memory).map fun rest => (rest.1, son + 2, rest.2.2)

/-- The loop of `dns_geta` over the name of a question. -/
def skipName (memory : Memory) : Nat → Nat → Except Stop Nat
  | 0, _ => .error .turns
  | turns + 1, dptr =>
    if 512 ≤ dptr then .error .outside
    else if memory dptr = 0 then .ok (dptr + 1)
    else if 63 < (memory dptr).toNat then .ok (dptr + 2)
    else skipName memory turns (dptr + (1 + (memory dptr).toNat))

/-- The loop over the questions. -/
def skipQuestions (memory : Memory) (turns : Nat) : Nat → Nat → Except Stop Nat
  | 0, dptr => .ok dptr
  | qdcount + 1, dptr =>
    (skipName memory turns dptr).bind fun dptr => skipQuestions memory turns qdcount (dptr + (2 + 2))

/-- The loop over the answers. The type of an answer is read where its owner begins with the name, and the
address where the type is that of an address. -/
def answerLoop (turns : Nat) (dname : CString) : Nat → Nat → Memory → Except Stop (Option Nat)
  | 0, _, _ => .ok none
  | ancount + 1, dptr, memory =>
    (dnsGetrname turns 256 dptr memory).bind fun named =>
      let begins := strncmp (named.1 ++ [0]) (dname.chars ++ [0]) dname.chars.length = 0
      let dptr := named.2.1
      let memory := named.2.2
      if begins ∧ 512 < dptr + 2 then .error .outside
      else if begins ∧ ntohs memory dptr = 1 then if 512 < dptr + 14 then .error .outside else .ok (some (dptr + 10))
      else if 512 < dptr + 10 then .error .outside
      else answerLoop turns dname ancount (dptr + 8 + (2 + (ntohs memory (dptr + 8)).toNat)) memory

/-- `dns_geta` for a response: the place of the address. -/
def dnsGeta (turns : Nat) (dname : CString) (memory : Memory) : Except Stop (Option Nat) :=
  (skipQuestions memory turns (ntohs memory 4).toNat 12).bind fun dptr =>
    answerLoop turns dname (ntohs memory 6).toNat dptr memory

/-- A response is parsed to some end, inside the response and inside `rname`. -/
def InBounds (dname : CString) (memory : Memory) : Prop := ∃ turns result, dnsGeta turns dname memory = .ok result

end Source

section Grammar

/-- The response after some of its pointers were followed. -/
def followed (memory : Memory) (used : List Nat) : Memory :=
  fun place => if place ∈ used then memory place &&& 0x3f else memory place

/-- A name inside the response, after some pointers were followed: its text, the place behind it, and the
pointers that were followed with those of the name. -/
inductive NameIn (memory : Memory) : List Nat → Nat → List UInt8 → Nat → List Nat → Prop
  | root {used place} : place < 512 → followed memory used place = 0 → NameIn memory used place [] (place + 1) used
  | label {used place llen text behind after} : (followed memory used place).toNat = llen → 1 ≤ llen → llen ≤ 63 →
      place + 1 + llen ≤ 512 → NameIn memory used (place + 1 + llen) text behind after →
      NameIn memory used place (bytesAt (followed memory used) (place + 1) llen ++ dot :: text) behind after
  | pointer {used place text behind after} : 64 ≤ (followed memory used place).toNat → place + 1 < 512 →
      NameIn memory (place :: used)
        ((followed memory used place).toNat % 64 * 256 + (followed memory used (place + 1)).toNat) text behind after →
      NameIn memory used place text (place + 2) after

/-- The name of a question, up to its end or to its first pointer. -/
inductive SkippedIn (memory : Memory) : Nat → Nat → Prop
  | root {place} : place < 512 → memory place = 0 → SkippedIn memory place (place + 1)
  | label {place behind} : place < 512 → 1 ≤ (memory place).toNat → (memory place).toNat ≤ 63 →
      SkippedIn memory (place + 1 + (memory place).toNat) behind → SkippedIn memory place behind
  | pointer {place} : place < 512 → 64 ≤ (memory place).toNat → SkippedIn memory place (place + 2)

/-- Questions one behind the other, up to some place. -/
inductive QuestionsIn (memory : Memory) : Nat → Nat → Nat → Prop
  | nil {place} : QuestionsIn memory place 0 place
  | cons {place behind count last} : SkippedIn memory place behind → QuestionsIn memory (behind + 4) count last →
      QuestionsIn memory place (count + 1) last

/-- The owner of an address begins with a name. -/
def Begins (memory : Memory) (dname : CString) (text : List UInt8) (fields : Nat) : Prop :=
  dname.chars.isPrefixOf text = true ∧ ntohs memory fields = 1

/-- Answers inside the response, up to the first address whose owner begins with a name. No owner is longer
than `rname`. -/
inductive AnswersIn (memory : Memory) (dname : CString) : List Nat → Nat → Nat → Prop
  | nil {used place} : AnswersIn memory dname used place 0
  | address {used place text fields after count} : NameIn memory used place text fields after → text.length < 256 →
      Begins (followed memory after) dname text fields → fields + 14 ≤ 512 →
      AnswersIn memory dname used place (count + 1)
  | other {used place text fields after count} : NameIn memory used place text fields after → text.length < 256 →
      ¬ Begins (followed memory after) dname text fields → fields + 10 ≤ 512 →
      AnswersIn memory dname after (fields + 10 + (ntohs (followed memory after) (fields + 8)).toNat) count →
      AnswersIn memory dname used place (count + 1)

/-- What is read of a response lies in it. -/
def Fits (dname : CString) (memory : Memory) : Prop :=
  ∃ place, QuestionsIn memory 12 (ntohs memory 4).toNat place ∧ AnswersIn memory dname [] place (ntohs memory 6).toNat

end Grammar

section Settling

variable {α β : Type} {f : Nat → Except Stop α}

/-- With enough turns a call has an end that more turns do not change. -/
def Settles (f : Nat → Except Stop α) : Prop :=
  ∃ need result, result ≠ .error .turns ∧ ∀ turns, need ≤ turns → f turns = result

theorem bind_eq_ok {call : Except Stop α} {rest : α → Except Stop β} {b : β} (isOk : call.bind rest = .ok b) :
    ∃ a, call = .ok a ∧ rest a = .ok b := by
  cases call with
  | error stop => cases isOk
  | ok a => exact ⟨a, rfl, isOk⟩

theorem map_eq_ok {call : Except Stop α} {g : α → β} {b : β} (isOk : call.map g = .ok b) :
    ∃ a, call = .ok a ∧ g a = b := by
  cases call with
  | error stop => cases isOk
  | ok a => exact ⟨a, rfl, Except.ok.inj isOk⟩

theorem settles_outside : Settles fun _ => (.error .outside : Except Stop α) :=
  ⟨0, _, fun isError => Stop.noConfusion (Except.error.inj isError), fun _ _ => rfl⟩

theorem settles_ok (a : α) : Settles fun _ => .ok a := by
  refine ⟨0, .ok a, fun isError => ?_, fun _ _ => rfl⟩
  cases isError

theorem Settles.next {g : Nat → Except Stop α} (settles : Settles g) (step : ∀ turns, f (turns + 1) = g turns) :
    Settles f := by
  obtain ⟨need, result, isEnd, same⟩ := settles
  refine ⟨need + 1, result, isEnd, fun turns enough => ?_⟩
  obtain ⟨left, rfl⟩ : ∃ left, turns = left + 1 := ⟨turns - 1, by lia⟩
  rw [step]
  exact same left (by omega)

theorem Settles.map (settles : Settles f) (g : α → β) : Settles fun turns => (f turns).map g := by
  obtain ⟨need, result, isEnd, same⟩ := settles
  refine ⟨need, result.map g, fun isError => isEnd ?_, fun turns enough => congrArg _ (same turns enough)⟩
  cases result with
  | error stop => exact congrArg _ (Except.error.inj isError)
  | ok a => cases isError

theorem Settles.bind {g : α → Nat → Except Stop β} (settles : Settles f) (rest : ∀ a, Settles (g a)) :
    Settles fun turns => (f turns).bind fun a => g a turns := by
  obtain ⟨need, result, isEnd, same⟩ := settles
  cases result with
  | error stop =>
    refine ⟨need, .error stop, fun isError => isEnd (congrArg _ (Except.error.inj isError)), fun turns enough => ?_⟩
    dsimp only
    rw [same turns enough]
    rfl
  | ok a =>
    obtain ⟨others, last, isLast, sameRest⟩ := rest a
    refine ⟨max need others, last, isLast, fun turns enough => ?_⟩
    dsimp only
    rw [same turns (by lia)]
    exact sameRest turns (by lia)

end Settling

section Ending

variable {memory : Memory} {dname : CString}

/-- Every pointer that is followed leaves one fewer, and every label leads on. -/
theorem dnsGetrname_settles {left : List Nat} (marked : ∀ place < 512, 64 ≤ (memory place).toNat → place ∈ left)
    (room son : Nat) : Settles fun turns => dnsGetrname turns room son memory := by
  obtain ⟨pointers, isCount⟩ : ∃ pointers, left.length = pointers := ⟨_, rfl⟩
  induction pointers using Nat.strong_induction_on generalizing memory left room son with
  | h pointers fewer =>
    obtain ⟨steps, reaches⟩ : ∃ steps, 512 ≤ son + steps := ⟨512, Nat.le_add_left _ _⟩
    induction steps generalizing room son with
    | zero =>
      refine settles_outside.next fun turns => ?_
      unfold dnsGetrname
      rw [if_pos (by omega)]
    | succ steps further =>
      by_cases outside : 512 ≤ son
      · refine settles_outside.next fun turns => ?_
        unfold dnsGetrname
        rw [if_pos outside]
      by_cases isEnd : memory son = 0
      · by_cases full : room = 0
        · refine settles_outside.next fun turns => ?_
          unfold dnsGetrname
          rw [if_neg outside, if_pos isEnd, if_pos full]
        · refine (settles_ok ([], son + 1, memory)).next fun turns => ?_
          unfold dnsGetrname
          rw [if_neg outside, if_pos isEnd, if_neg full]
      have positive : 0 < (memory son).toNat :=
        Nat.pos_of_ne_zero fun zero => isEnd (UInt8.toNat_inj.mp zero)
      by_cases isLabel : (memory son).toNat ≤ 63
      · by_cases unfit : 512 < son + 1 + (memory son).toNat ∨ room < (memory son).toNat + 1
        · refine settles_outside.next fun turns => ?_
          unfold dnsGetrname
          dsimp only
          rw [if_neg outside, if_neg isEnd, if_pos isLabel, if_pos unfit]
        · have settles := further (room - ((memory son).toNat + 1)) (son + 1 + (memory son).toNat) (by lia)
          refine (settles.map fun rest => (bytesAt memory (son + 1) (memory son).toNat ++ dot :: rest.1, rest.2)).next
            fun turns => ?_
          conv_lhs => unfold dnsGetrname
          dsimp only
          rw [if_neg outside, if_neg isEnd, if_pos isLabel, if_neg unfit]
      by_cases cut : 512 ≤ son + 1
      · refine settles_outside.next fun turns => ?_
        unfold dnsGetrname
        rw [if_neg outside, if_neg isEnd, if_neg isLabel, if_pos cut]
      · have isPointer : son ∈ left := marked son (by lia) (by lia)
        obtain ⟨unmarked, isUnmarked⟩ : ∃ unmarked, store memory son [memory son &&& 0x3f] = unmarked := ⟨_, rfl⟩
        have stillMarked : ∀ place < 512, 64 ≤ (unmarked place).toNat → place ∈ left.erase son := by
          subst isUnmarked
          intro place inside isMarked
          by_cases same : place = son
          · subst same
            have cleared : store memory place [memory place &&& 0x3f] place = memory place &&& 0x3f :=
              holds_store 0 Nat.one_pos
            have small : (memory place &&& 0x3f).toNat ≤ 63 := by
              rw [UInt8.toNat_and]
              exact Nat.and_le_right
            rw [cleared] at isMarked
            lia
          · have kept : store memory son [memory son &&& 0x3f] place = memory place :=
              store_outside (by rw [List.length_singleton]; lia)
            rw [kept] at isMarked
            exact (List.mem_erase_of_ne same).mpr (marked place inside isMarked)
        have less : (left.erase son).length < pointers := by
          rw [List.length_erase_of_mem isPointer, isCount]
          have some_ := List.length_pos_of_mem isPointer
          omega
        have settles := fewer _ less stillMarked room ((unmarked son).toNat * 256 + (unmarked (son + 1)).toNat) rfl
        refine (settles.map fun rest => (rest.1, son + 2, rest.2.2)).next fun turns => ?_
        conv_lhs => unfold dnsGetrname
        dsimp only
        rw [if_neg outside, if_neg isEnd, if_neg isLabel, if_neg cut, isUnmarked]

theorem skipName_settles (memory : Memory) (dptr : Nat) : Settles fun turns => skipName memory turns dptr := by
  obtain ⟨steps, reaches⟩ : ∃ steps, 512 ≤ dptr + steps := ⟨512, Nat.le_add_left _ _⟩
  induction steps generalizing dptr with
  | zero =>
    refine settles_outside.next fun turns => ?_
    unfold skipName
    rw [if_pos (by omega)]
  | succ steps further =>
    by_cases outside : 512 ≤ dptr
    · refine settles_outside.next fun turns => ?_
      unfold skipName
      rw [if_pos outside]
    by_cases isEnd : memory dptr = 0
    · refine (settles_ok (dptr + 1)).next fun turns => ?_
      unfold skipName
      rw [if_neg outside, if_pos isEnd]
    by_cases isPointer : 63 < (memory dptr).toNat
    · refine (settles_ok (dptr + 2)).next fun turns => ?_
      unfold skipName
      rw [if_neg outside, if_neg isEnd, if_pos isPointer]
    · refine (further (dptr + (1 + (memory dptr).toNat)) (by lia)).next fun turns => ?_
      conv_lhs => unfold skipName
      rw [if_neg outside, if_neg isEnd, if_neg isPointer]

theorem skipQuestions_settles (memory : Memory) (qdcount dptr : Nat) :
    Settles fun turns => skipQuestions memory turns qdcount dptr := by
  induction qdcount generalizing dptr with
  | zero => exact settles_ok dptr
  | succ qdcount inductionHypothesis =>
    exact (skipName_settles memory dptr).bind fun behind => inductionHypothesis (behind + (2 + 2))

theorem answerLoop_settles (dname : CString) (ancount dptr : Nat) (memory : Memory) :
    Settles fun turns => answerLoop turns dname ancount dptr memory := by
  induction ancount generalizing dptr memory with
  | zero => exact settles_ok none
  | succ ancount inductionHypothesis =>
    have settles := @dnsGetrname_settles memory (List.range 512) (fun place inside _ => List.mem_range.mpr inside) 256 dptr
    refine settles.bind fun named => ?_
    dsimp only
    split
    · exact settles_outside
    split
    · split
      · exact settles_outside
      · exact settles_ok _
    split
    · exact settles_outside
    · exact inductionHypothesis _ _

/-- Every response is parsed to some end, which may be outside. -/
theorem dnsGeta_settles (dname : CString) (memory : Memory) : Settles fun turns => dnsGeta turns dname memory :=
  (skipQuestions_settles memory _ _).bind fun dptr => answerLoop_settles dname _ dptr memory

end Ending

section Parsing

variable {memory current : Memory} {dname : CString} {used after : List Nat} {text : List UInt8}
variable {place behind count last : Nat}

theorem followed_nil : followed memory [] = memory := by
  funext place
  exact if_neg List.not_mem_nil

/-- A pointer that is followed loses its mark. -/
theorem store_followed :
    store (followed memory used) place [followed memory used place &&& 0x3f] = followed memory (place :: used) := by
  funext other
  by_cases same : other = place
  · subst same
    have stored : store (followed memory used) other [followed memory used other &&& 0x3f] other =
        followed memory used other &&& 0x3f := holds_store 0 Nat.one_pos
    have isFollowed : followed memory (other :: used) other = memory other &&& 0x3f := if_pos List.mem_cons_self
    rw [stored, isFollowed]
    unfold followed
    split
    · rw [UInt8.and_assoc]
      rfl
    · rfl
  · rw [store_outside (by rw [List.length_singleton]; lia)]
    unfold followed
    simp only [List.mem_cons, same, false_or]

/-- A byte without its mark. -/
theorem toNat_masked (byte : UInt8) : (byte &&& 0x3f).toNat = byte.toNat % 64 := by
  have mask : (0x3f : UInt8).toNat = 2 ^ 6 - 1 := by decide
  rw [UInt8.toNat_and, mask, Nat.and_two_pow_sub_one_eq_mod]

/-- The place a pointer leads to. -/
theorem offset_followed :
    (followed memory (place :: used) place).toNat * 256 + (followed memory (place :: used) (place + 1)).toNat =
      (followed memory used place).toNat % 64 * 256 + (followed memory used (place + 1)).toNat := by
  rw [← store_followed]
  have high : store (followed memory used) place [followed memory used place &&& 0x3f] place =
      followed memory used place &&& 0x3f := holds_store 0 Nat.one_pos
  have low : store (followed memory used) place [followed memory used place &&& 0x3f] (place + 1) =
      followed memory used (place + 1) := store_outside (Or.inr (Nat.le_refl _))
  rw [high, low, toNat_masked]

theorem NameIn.inside (name : NameIn memory used place text behind after) : place < 512 := by
  cases name with
  | root inside isEnd => exact inside
  | label isLength some_ few inside name => lia
  | pointer marked inside name => omega

/-- A name inside the response is read where `rname` has room for it. -/
theorem NameIn.decodes (name : NameIn memory used place text behind after) {room : Nat} (fits : text.length < room) :
    ∃ need, ∀ turns, need ≤ turns →
      dnsGetrname turns room place (followed memory used) = .ok (text, behind, followed memory after) := by
  induction name generalizing room with
  | root inside isEnd =>
    refine ⟨1, fun turns enough => ?_⟩
    obtain ⟨left, rfl⟩ : ∃ left, turns = left + 1 := ⟨turns - 1, by lia⟩
    unfold dnsGetrname
    rw [if_neg (by omega), if_pos isEnd, if_neg (by omega)]
  | @label used place llen text behind after isLength some_ few inside name inductionHypothesis =>
    rw [List.length_append, length_bytesAt, List.length_cons] at fits
    obtain ⟨need, decodes⟩ := @inductionHypothesis (room - (llen + 1)) (by omega)
    refine ⟨need + 1, fun turns enough => ?_⟩
    obtain ⟨left, rfl⟩ : ∃ left, turns = left + 1 := ⟨turns - 1, by lia⟩
    have notEnd : followed memory used place ≠ 0 := by
      intro isEnd
      rw [isEnd] at isLength
      exact absurd isLength (by change 0 ≠ llen; lia)
    unfold dnsGetrname
    dsimp only
    rw [if_neg (by lia), if_neg notEnd, isLength, if_pos few, if_neg (by lia), decodes left (by lia)]
    rfl
  | @pointer used place text behind after marked inside name inductionHypothesis =>
    obtain ⟨need, decodes⟩ := inductionHypothesis fits
    refine ⟨need + 1, fun turns enough => ?_⟩
    obtain ⟨left, rfl⟩ : ∃ left, turns = left + 1 := ⟨turns - 1, by lia⟩
    have notEnd : followed memory used place ≠ 0 := by
      intro isEnd
      rw [isEnd] at marked
      exact absurd marked (by decide)
    unfold dnsGetrname
    dsimp only
    rw [if_neg (by lia), if_neg notEnd, if_neg (by omega), if_neg (by lia), store_followed, offset_followed,
      decodes left (by lia)]
    rfl

/-- What is read is a name inside the response, and `rname` has room for it. -/
theorem nameIn_of_ok {turns room : Nat}
    (isRead : dnsGetrname turns room place (followed memory used) = .ok (text, behind, current)) :
    ∃ after, current = followed memory after ∧ NameIn memory used place text behind after ∧ text.length < room := by
  induction turns generalizing used room place text behind with
  | zero => cases isRead
  | succ turns inductionHypothesis =>
    unfold dnsGetrname at isRead
    dsimp only at isRead
    split at isRead
    · cases isRead
    rename_i inside
    split at isRead
    · rename_i isEnd
      split at isRead
      · cases isRead
      · cases isRead
        exact ⟨used, rfl, .root (by omega) isEnd, by rw [List.length_nil]; lia⟩
    rename_i notEnd
    have positive : 0 < (followed memory used place).toNat :=
      Nat.pos_of_ne_zero fun zero => notEnd (UInt8.toNat_inj.mp zero)
    split at isRead
    · rename_i few
      split at isRead
      · cases isRead
      · rename_i fits
        obtain ⟨⟨rest, next, final⟩, isRest, same⟩ := map_eq_ok isRead
        cases same
        obtain ⟨after, isAfter, name, short⟩ := inductionHypothesis isRest
        refine ⟨after, isAfter, .label rfl positive few (by omega) name, ?_⟩
        rw [List.length_append, length_bytesAt, List.length_cons]
        dsimp only
        omega
    · split at isRead
      · cases isRead
      · rename_i notFew cut
        obtain ⟨⟨rest, next, final⟩, isRest, same⟩ := map_eq_ok isRead
        cases same
        rw [store_followed, offset_followed] at isRest
        obtain ⟨after, isAfter, name, short⟩ := inductionHypothesis isRest
        exact ⟨after, isAfter, .pointer (by omega) (by omega) name, short⟩

theorem SkippedIn.skips (skipped : SkippedIn memory place behind) :
    ∃ need, ∀ turns, need ≤ turns → skipName memory turns place = .ok behind := by
  induction skipped with
  | root inside isEnd =>
    refine ⟨1, fun turns enough => ?_⟩
    obtain ⟨left, rfl⟩ : ∃ left, turns = left + 1 := ⟨turns - 1, by lia⟩
    unfold skipName
    rw [if_neg (by omega), if_pos isEnd]
  | @label place behind inside some_ few skipped inductionHypothesis =>
    obtain ⟨need, skips⟩ := inductionHypothesis
    refine ⟨need + 1, fun turns enough => ?_⟩
    obtain ⟨left, rfl⟩ : ∃ left, turns = left + 1 := ⟨turns - 1, by lia⟩
    have notEnd : memory place ≠ 0 := by
      intro isEnd
      rw [isEnd] at some_
      exact absurd some_ (by decide)
    unfold skipName
    rw [if_neg (by omega), if_neg notEnd, if_neg (by omega), ← Nat.add_assoc]
    exact skips left (by lia)
  | @pointer place inside marked =>
    refine ⟨1, fun turns enough => ?_⟩
    obtain ⟨left, rfl⟩ : ∃ left, turns = left + 1 := ⟨turns - 1, by lia⟩
    have notEnd : memory place ≠ 0 := by
      intro isEnd
      rw [isEnd] at marked
      exact absurd marked (by decide)
    unfold skipName
    rw [if_neg (by omega), if_neg notEnd, if_pos (by omega)]

theorem skippedIn_of_ok {turns : Nat} (isSkipped : skipName memory turns place = .ok behind) :
    SkippedIn memory place behind := by
  induction turns generalizing place with
  | zero => cases isSkipped
  | succ turns inductionHypothesis =>
    unfold skipName at isSkipped
    split at isSkipped
    · cases isSkipped
    rename_i inside
    split at isSkipped
    · rename_i isEnd
      cases isSkipped
      exact .root (by omega) isEnd
    rename_i notEnd
    have positive : 0 < (memory place).toNat := Nat.pos_of_ne_zero fun zero => notEnd (UInt8.toNat_inj.mp zero)
    split at isSkipped
    · cases isSkipped
      exact .pointer (by omega) (by omega)
    · rw [← Nat.add_assoc] at isSkipped
      exact .label (by omega) positive (by omega) (inductionHypothesis isSkipped)

theorem QuestionsIn.skips (questions : QuestionsIn memory place count last) :
    ∃ need, ∀ turns, need ≤ turns → skipQuestions memory turns count place = .ok last := by
  induction questions with
  | nil => exact ⟨0, fun _ _ => rfl⟩
  | cons skipped questions inductionHypothesis =>
    obtain ⟨first, skips⟩ := skipped.skips
    obtain ⟨others, skipsOthers⟩ := inductionHypothesis
    refine ⟨max first others, fun turns enough => ?_⟩
    unfold skipQuestions
    rw [skips turns (by omega)]
    exact skipsOthers turns (by omega)

theorem questionsIn_of_ok {turns : Nat} (isSkipped : skipQuestions memory turns count place = .ok last) :
    QuestionsIn memory place count last := by
  induction count generalizing place with
  | zero =>
    cases isSkipped
    exact .nil
  | succ count inductionHypothesis =>
    obtain ⟨behind, isFirst, isRest⟩ := bind_eq_ok isSkipped
    exact .cons (skippedIn_of_ok isFirst) (inductionHypothesis isRest)

/-- The comparison and the type that are made for an answer. -/
theorem begins_iff {fields : Nat} : Begins current dname text fields ↔
    strncmp (text ++ [0]) (dname.chars ++ [0]) dname.chars.length = 0 ∧ ntohs current fields = 1 := by
  rw [DnsNames.strncmp_eq_zero_iff text dname.terminated]
  rfl

theorem AnswersIn.parses (answers : AnswersIn memory dname used place count) :
    ∃ need result, ∀ turns, need ≤ turns → answerLoop turns dname count place (followed memory used) = .ok result := by
  induction answers with
  | nil => exact ⟨0, none, fun _ _ => rfl⟩
  | @address used place text fields after count name short begins inside =>
    obtain ⟨need, decodes⟩ := name.decodes short
    refine ⟨need, some (fields + 10), fun turns enough => ?_⟩
    unfold answerLoop
    rw [decodes turns enough]
    change (if _ then _ else _) = _
    dsimp only
    rw [if_neg (by lia), if_pos (begins_iff.mp begins), if_neg (by omega)]
  | @other used place text fields after count name short unlike inside answers inductionHypothesis =>
    obtain ⟨need, decodes⟩ := name.decodes short
    obtain ⟨others, result, parses⟩ := inductionHypothesis
    refine ⟨max need others, result, fun turns enough => ?_⟩
    have next : fields + 8 + (2 + (ntohs (followed memory after) (fields + 8)).toNat) =
        fields + 10 + (ntohs (followed memory after) (fields + 8)).toNat := by lia
    unfold answerLoop
    rw [decodes turns (by lia)]
    change (if _ then _ else _) = _
    dsimp only
    rw [if_neg (by lia), if_neg (fun both => unlike (begins_iff.mpr both)), if_neg (by omega), next]
    exact parses turns (by lia)

theorem answersIn_of_ok {turns : Nat} {result : Option Nat}
    (isParsed : answerLoop turns dname count place (followed memory used) = .ok result) :
    AnswersIn memory dname used place count := by
  induction count generalizing used place with
  | zero => exact .nil
  | succ count inductionHypothesis =>
    obtain ⟨⟨text, fields, current⟩, isName, isRest⟩ := bind_eq_ok isParsed
    obtain ⟨after, rfl, name, short⟩ := nameIn_of_ok isName
    dsimp only at isRest
    split at isRest
    · cases isRest
    rename_i typeInside
    split at isRest
    · rename_i begins
      split at isRest
      · cases isRest
      · exact .address name short (begins_iff.mpr begins) (by omega)
    · rename_i unlike
      split at isRest
      · cases isRest
      · have next : fields + 8 + (2 + (ntohs (followed memory after) (fields + 8)).toNat) =
            fields + 10 + (ntohs (followed memory after) (fields + 8)).toNat := by lia
        rw [next] at isRest
        exact .other name short (fun begins => unlike (begins_iff.mp begins)) (by omega) (inductionHypothesis isRest)

theorem inBounds_iff (dname : CString) (memory : Memory) : InBounds dname memory ↔ Fits dname memory := by
  constructor
  · rintro ⟨turns, result, isParsed⟩
    obtain ⟨place, isSkipped, isRest⟩ := bind_eq_ok isParsed
    rw [← @followed_nil memory] at isRest
    exact ⟨place, questionsIn_of_ok isSkipped, answersIn_of_ok isRest⟩
  · rintro ⟨place, questions, answers⟩
    obtain ⟨first, skips⟩ := questions.skips
    obtain ⟨others, result, parses⟩ := answers.parses
    rw [followed_nil] at parses
    refine ⟨max first others, result, ?_⟩
    unfold dnsGeta
    rw [skips _ (by lia)]
    exact parses _ (by lia)

/-- Every response is parsed to some end, and inside the response and `rname` just when it fits. -/
theorem responses_stay_in_bounds_iff (dname : CString) (memory : Memory) :
    Settles (fun turns => dnsGeta turns dname memory) ∧ (InBounds dname memory ↔ Fits dname memory) :=
  ⟨dnsGeta_settles dname memory, inBounds_iff dname memory⟩

/-- A response with one answer, whose owner is a pointer behind the response. -/
def strayResponse : Memory := store (fun _ => 0) 6 [0, 1, 0, 0, 0, 0, 255, 255]

theorem stray_pointer_is_followed : ¬ InBounds ⟨[97], by decide⟩ strayResponse := by
  intro inBounds
  obtain ⟨place, questions, answers⟩ := (inBounds_iff _ _).mp inBounds
  have isCount : (ntohs strayResponse 4).toNat = 0 := by decide
  have isOne : (ntohs strayResponse 6).toNat = 1 := by decide
  have isPointer : (followed strayResponse [] 12).toNat = 255 := by decide
  have isFar : (followed strayResponse [] 12).toNat % 64 * 256 + (followed strayResponse [] (12 + 1)).toNat = 16383 := by
    decide
  rw [isCount] at questions
  rw [isOne] at answers
  cases questions
  obtain ⟨text, fields, after, name⟩ : ∃ text fields after, NameIn strayResponse [] 12 text fields after := by
    cases answers with
    | address name => exact ⟨_, _, _, name⟩
    | other name => exact ⟨_, _, _, name⟩
  cases name with
  | root inside isEnd =>
    rw [isEnd] at isPointer
    exact absurd isPointer (by decide)
  | label isLength some_ few =>
    rw [isPointer] at isLength
    lia
  | pointer marked inside target =>
    rw [isFar] at target
    exact absurd target.inside (by decide)

end Parsing

section Agreement

variable {memory : Memory} {dname : CString} {turns : Nat}

/-- Inside its bounds `dns_getrname` reads what it reads without them. -/
theorem dnsGetrname_agrees {room son : Nat} {read : List UInt8 × Nat × Memory}
    (isRead : dnsGetrname turns room son memory = .ok read) : DnsNames.dnsGetrname 0 turns son memory = some read := by
  induction turns generalizing room son memory read with
  | zero => cases isRead
  | succ turns inductionHypothesis =>
    unfold dnsGetrname at isRead
    dsimp only at isRead
    unfold DnsNames.dnsGetrname
    dsimp only
    split at isRead
    · cases isRead
    split at isRead
    · rename_i isEnd
      rw [if_pos isEnd]
      split at isRead
      · cases isRead
      · cases isRead
        rfl
    rename_i notEnd
    rw [if_neg notEnd]
    split at isRead
    · rename_i few
      rw [if_pos few]
      split at isRead
      · cases isRead
      · obtain ⟨rest, isRest, rfl⟩ := map_eq_ok isRead
        rw [inductionHypothesis isRest]
        rfl
    · rename_i notFew
      rw [if_neg notFew]
      split at isRead
      · cases isRead
      · obtain ⟨rest, isRest, rfl⟩ := map_eq_ok isRead
        rw [Nat.zero_add, inductionHypothesis isRest]
        rfl

theorem skipName_agrees {dptr behind : Nat} (isSkipped : skipName memory turns dptr = .ok behind) :
    DnsNames.skipName memory turns dptr = some behind := by
  induction turns generalizing dptr with
  | zero => cases isSkipped
  | succ turns inductionHypothesis =>
    unfold skipName at isSkipped
    unfold DnsNames.skipName
    split at isSkipped
    · cases isSkipped
    split at isSkipped
    · rename_i isEnd
      cases isSkipped
      exact if_pos isEnd
    rename_i notEnd
    rw [if_neg notEnd]
    split at isSkipped
    · rename_i marked
      cases isSkipped
      exact if_pos marked
    · rename_i unmarked
      rw [if_neg unmarked]
      exact inductionHypothesis isSkipped

theorem skipQuestions_agrees {qdcount dptr behind : Nat}
    (isSkipped : skipQuestions memory turns qdcount dptr = .ok behind) :
    DnsNames.skipQuestions memory turns qdcount dptr = some behind := by
  induction qdcount generalizing dptr with
  | zero =>
    cases isSkipped
    rfl
  | succ qdcount inductionHypothesis =>
    obtain ⟨next, isFirst, isRest⟩ := bind_eq_ok isSkipped
    unfold DnsNames.skipQuestions
    rw [skipName_agrees isFirst]
    exact inductionHypothesis isRest

theorem answerLoop_agrees {ancount dptr : Nat} {result : Option Nat}
    (isParsed : answerLoop turns dname ancount dptr memory = .ok result) :
    DnsNames.answerLoop 0 turns dname ancount dptr memory = some result := by
  induction ancount generalizing dptr memory with
  | zero =>
    cases isParsed
    rfl
  | succ ancount inductionHypothesis =>
    obtain ⟨named, isName, isRest⟩ := bind_eq_ok isParsed
    unfold DnsNames.answerLoop
    rw [dnsGetrname_agrees isName, Option.bind_some]
    dsimp only at isRest
    split at isRest
    · cases isRest
    split at isRest
    · rename_i begins
      split at isRest
      · cases isRest
      · cases isRest
        exact if_pos begins
    · rename_i unlike
      split at isRest
      · cases isRest
      · rw [if_neg unlike]
        exact inductionHypothesis isRest

/-- A response that is parsed in its bounds is parsed as it is without them. -/
theorem dnsGeta_agrees {result : Option Nat} (isParsed : dnsGeta turns dname memory = .ok result) :
    DnsNames.dnsGeta 0 turns dname memory = some result := by
  obtain ⟨place, isSkipped, isRest⟩ := bind_eq_ok isParsed
  unfold DnsNames.dnsGeta
  rw [Nat.zero_add, Nat.zero_add, Nat.zero_add, skipQuestions_agrees isSkipped]
  exact answerLoop_agrees isRest

end Agreement

end Xinu.DnsBounds
