import Xinu.DnsNames

/-!
# Answers to DNS queries

A response has questions and answers, each with the name of its owner. A name ends with a length zero or
with a pointer to a name before it. Where no owner runs through a pointer that an owner before it has used,
`dns_geta` takes the first address whose owner begins with the name that is looked for.
-/

namespace Xinu.DnsAnswers

open CIntegers NetworkOrder StoredBytes DnsNames

section Responses

def IsLabel (label : List UInt8) : Prop := 1 ≤ label.length ∧ label.length ≤ 63 ∧ 0 ∉ label ∧ dot ∉ label

/-- A name of a packet: its labels, the places of its pointers and of all its bytes, and the place behind it.
A pointer leads to a name before it. -/
inductive NameAt (memory : Memory) (sop : Nat) : Nat → List (List UInt8) → List Nat → List Nat → Nat → Prop
  | root {place} : memory place = 0 → NameAt memory sop place [] [] [place] (place + 1)
  | label {place label labels pointers places behind} : IsLabel label →
      Holds memory place (UInt8.ofNat label.length :: label) →
      NameAt memory sop (place + 1 + label.length) labels pointers places behind →
      NameAt memory sop place (label :: labels) pointers (List.range' place (1 + label.length) ++ places) behind
  | pointer {place labels pointers places behind} : 192 ≤ (memory place).toNat →
      NameAt memory sop (sop + (((memory place).toNat - 192) * 256 + (memory (place + 1)).toNat)) labels pointers places
        behind →
      behind ≤ place → NameAt memory sop place labels (place :: pointers) (place :: (place + 1) :: places) (place + 2)

/-- An answer: its owner, and the place of the fields behind it. -/
structure Answer where
  place : Nat
  owner : List (List UInt8)
  pointers : List Nat
  places : List Nat
  fields : Nat
deriving DecidableEq

/-- Questions one behind the other, up to some place. -/
inductive QuestionsAt (memory : Memory) (sop : Nat) : Nat → Nat → Nat → Prop
  | nil {place} : QuestionsAt memory sop place 0 place
  | cons {place labels pointers places behind count last} : NameAt memory sop place labels pointers places behind →
      QuestionsAt memory sop (behind + 4) count last → QuestionsAt memory sop place (count + 1) last

/-- Answers one behind the other. The last field before the data is their length. -/
inductive AnswersAt (memory : Memory) (sop : Nat) : Nat → List Answer → Prop
  | nil {place} : AnswersAt memory sop place []
  | cons {a others} : NameAt memory sop a.place a.owner a.pointers a.places a.fields →
      AnswersAt memory sop (a.fields + 10 + (ntohs memory (a.fields + 8)).toNat) others →
      AnswersAt memory sop a.place (a :: others)

/-- A response with certain answers. -/
structure Response (memory : Memory) (sop : Nat) (answers : List Answer) : Prop where
  sections : ∃ first, QuestionsAt memory sop (sop + 12) (ntohs memory (sop + 4)).toNat first ∧
    AnswersAt memory sop first answers
  ancount : (ntohs memory (sop + 6)).toNat = answers.length

def IsAddress (memory : Memory) (a : Answer) : Prop := ntohs memory a.fields = 1

/-- The owner of an address begins with a name. -/
def Begins (memory : Memory) (dname : CString) (a : Answer) : Prop :=
  IsAddress memory a ∧ dname.chars.isPrefixOf (spelled a.owner) = true

instance (memory : Memory) (dname : CString) (a : Answer) : Decidable (Begins memory dname a) :=
  inferInstanceAs (Decidable (ntohs memory a.fields = 1 ∧ dname.chars.isPrefixOf (spelled a.owner) = true))

def Owns (a : Answer) (dname : CString) : Prop := [dot].intercalate a.owner = dname.chars

/-- An address that is returned is the one of an answer whose owner is the name that is looked for. -/
def ReturnsOwned (memory : Memory) (sop : Nat) (answers : List Answer) (dname : CString) : Prop :=
  ∀ turns place, dnsGeta sop turns dname memory = some (some place) →
    ∃ a ∈ answers, IsAddress memory a ∧ place = a.fields + 10 ∧ Owns a dname

/-- Up to the first address whose owner begins with the name, every owner fits into `rname`, and none runs through
a pointer that an owner before it has used. -/
def Readable (memory : Memory) (dname : CString) : List Nat → List Answer → Prop
  | _, [] => True
  | used, a :: others =>
    (∀ pointer ∈ used, pointer ∉ a.places) ∧ (spelled a.owner).length < 256 ∧
      (Begins memory dname a ∨ Readable memory dname (a.pointers ++ used) others)

end Responses

section Names

variable {memory current : Memory} {sop place behind : Nat} {labels : List (List UInt8)} {pointers places used : List Nat}

theorem NameAt.bounds (name : NameAt memory sop place labels pointers places behind) :
    place < behind ∧ (∀ byte ∈ places, byte < behind) ∧ ∀ pointer ∈ pointers, pointer ∈ places := by
  induction name with
  | root isEnd =>
    refine ⟨Nat.lt_succ_self _, fun byte member => ?_, fun pointer member => absurd member List.not_mem_nil⟩
    rw [List.mem_singleton.mp member]
    exact Nat.lt_succ_self _
  | label isLabel holds name inductionHypothesis =>
    obtain ⟨less, bytes, subset⟩ := inductionHypothesis
    refine ⟨by omega, fun byte member => ?_, fun pointer member => List.mem_append_right _ (subset pointer member)⟩
    rcases List.mem_append.mp member with own | later
    · have range := List.mem_range'_1.mp own
      lia
    · exact bytes byte later
  | pointer marked name before inductionHypothesis =>
    obtain ⟨less, bytes, subset⟩ := inductionHypothesis
    refine ⟨by omega, fun byte member => ?_, fun pointer member => ?_⟩
    · rcases List.mem_cons.mp member with rfl | member
      · omega
      · rcases List.mem_cons.mp member with rfl | later
        · omega
        · have bound := bytes byte later
          lia
    · rcases List.mem_cons.mp member with rfl | later
      · exact List.mem_cons_self
      · exact List.mem_cons_of_mem _ (List.mem_cons_of_mem _ (subset pointer later))

theorem length_of_isLabel {label : List UInt8} (isLabel : IsLabel label) :
    (UInt8.ofNat label.length).toNat = label.length ∧ UInt8.ofNat label.length ≠ 0 := by
  have length : (UInt8.ofNat label.length).toNat = label.length :=
    UInt8.toNat_ofNat_of_lt' (by have size : UInt8.size = 256 := rfl; have few := isLabel.2.1; omega)
  refine ⟨length, fun zero => ?_⟩
  rw [zero] at length
  have some_ := isLabel.1
  change 0 = label.length at length
  omega

/-- The offset of a pointer without its mark. -/
theorem toNat_unmarked {byte : UInt8} (marked : 192 ≤ byte.toNat) : (byte &&& 0x3f).toNat = byte.toNat - 192 := by
  have bound := UInt8.toNat_lt byte
  have mask : (0x3f : UInt8).toNat = 2 ^ 6 - 1 := by decide
  rw [UInt8.toNat_and, mask, Nat.and_two_pow_sub_one_eq_mod]
  lia

/-- A name is spelled as it is, where none of its bytes was changed. Its pointers lose their marks. -/
theorem dnsGetrname_nameAt (name : NameAt memory sop place labels pointers places behind)
    (same : ∀ byte, byte ∉ used → current byte = memory byte) (fresh : ∀ pointer ∈ used, pointer ∉ places) :
    ∃ need after, (∀ byte, byte ∉ pointers ++ used → after byte = memory byte) ∧
      ∀ turns, dnsGetrname sop turns place current =
        if need ≤ turns then some (spelled labels, behind, after) else none := by
  induction name generalizing current used with
  | @root place isEnd =>
    refine ⟨1, current, same, fun turns => ?_⟩
    have isNull : current place = 0 := (same place fun member => fresh place member List.mem_cons_self).trans isEnd
    cases turns with
    | zero => rfl
    | succ turns =>
      rw [if_pos (by lia)]
      unfold dnsGetrname
      dsimp only
      rw [if_pos isNull]
      rfl
  | @label place label labels pointers places behind isLabel holds name inductionHypothesis =>
    have own : ∀ k < 1 + label.length, current (place + k) = memory (place + k) := fun k inside =>
      same _ fun member => fresh _ member (List.mem_append_left _ (List.mem_range'_1.mpr (by lia)))
    obtain ⟨need, after, kept, decodes⟩ := inductionHypothesis same fun pointer member isByte =>
      fresh pointer member (List.mem_append_right _ isByte)
    obtain ⟨isByte, isText⟩ := holds_cons.mp holds
    obtain ⟨length, notNull⟩ := length_of_isLabel isLabel
    have isLength : current place = UInt8.ofNat label.length := (own 0 (by lia)).trans isByte
    have text : bytesAt current (place + 1) label.length = label := by
      have isOwn : Holds current (place + 1) label := fun k inside => by
        rw [Nat.add_assoc, own (1 + k) (by omega), ← Nat.add_assoc]
        exact isText k inside
      rw [bytesAt_eq isOwn (Nat.le_refl _), List.take_length]
    have spell : label ++ dot :: spelled labels = spelled (label :: labels) := by
      unfold spelled
      rw [List.flatMap_cons, List.append_assoc]
      rfl
    refine ⟨need + 1, after, kept, fun turns => ?_⟩
    cases turns with
    | zero => rfl
    | succ turns =>
      unfold dnsGetrname
      dsimp only
      rw [isLength, if_neg notNull, length, if_pos isLabel.2.1, decodes, text]
      by_cases enough : need ≤ turns
      · rw [if_pos enough, if_pos (by lia), Option.map_some, spell]
      · rw [if_neg enough, if_neg (by lia)]
        rfl
  | @pointer place labels pointers places behind marked name before inductionHypothesis =>
    obtain ⟨_, bytes, _⟩ := name.bounds
    have isByte : current place = memory place := same place fun member => fresh place member List.mem_cons_self
    have isLow : current (place + 1) = memory (place + 1) :=
      same _ fun member => fresh _ member (List.mem_cons_of_mem _ List.mem_cons_self)
    have unmarked : ∀ byte, byte ∉ place :: used → store current place [memory place &&& 0x3f] byte = memory byte := by
      intro byte other
      rw [List.mem_cons, not_or] at other
      rw [store_outside (by rw [List.length_singleton]; lia), same byte other.2]
    have innerFresh : ∀ pointer ∈ place :: used, pointer ∉ places := by
      intro pointer member isInner
      rcases List.mem_cons.mp member with rfl | isUsed
      · have bound := bytes pointer isInner
        lia
      · exact fresh pointer isUsed (List.mem_cons_of_mem _ (List.mem_cons_of_mem _ isInner))
    obtain ⟨need, after, kept, decodes⟩ := inductionHypothesis unmarked innerFresh
    have isHigh : store current place [memory place &&& 0x3f] place = memory place &&& 0x3f := holds_store 0 Nat.one_pos
    have isOffset : store current place [memory place &&& 0x3f] (place + 1) = memory (place + 1) :=
      (store_outside (Or.inr (Nat.le_refl _))).trans isLow
    refine ⟨need + 1, after, fun byte other => kept byte fun member => other ?_, fun turns => ?_⟩
    · rcases List.mem_append.mp member with isPointer | isUsed
      · exact List.mem_append_left _ (List.mem_cons_of_mem _ isPointer)
      · rcases List.mem_cons.mp isUsed with rfl | isUsed
        · exact List.mem_append_left _ List.mem_cons_self
        · exact List.mem_append_right _ isUsed
    · cases turns with
      | zero => rfl
      | succ turns =>
        have notNull : memory place ≠ 0 := by
          intro zero
          rw [zero] at marked
          exact absurd marked (by decide)
        unfold dnsGetrname
        dsimp only
        rw [isByte, if_neg notNull, if_neg (by omega), isHigh, isOffset, toNat_unmarked marked, decodes]
        by_cases enough : need ≤ turns
        · rw [if_pos enough, if_pos (by lia), Option.map_some]
        · rw [if_neg enough, if_neg (by lia)]
          rfl

theorem skipName_nameAt (name : NameAt memory sop place labels pointers places behind) :
    ∃ need, ∀ turns, skipName memory turns place = if need ≤ turns then some behind else none := by
  induction name with
  | @root place isEnd =>
    refine ⟨1, fun turns => ?_⟩
    cases turns with
    | zero => rfl
    | succ turns =>
      unfold skipName
      rw [if_pos isEnd, if_pos (by omega)]
  | @label place label labels pointers places behind isLabel holds name inductionHypothesis =>
    obtain ⟨need, skips⟩ := inductionHypothesis
    obtain ⟨isByte, _⟩ := holds_cons.mp holds
    obtain ⟨length, notNull⟩ := length_of_isLabel isLabel
    have few := isLabel.2.1
    refine ⟨need + 1, fun turns => ?_⟩
    cases turns with
    | zero => rfl
    | succ turns =>
      unfold skipName
      rw [isByte, if_neg notNull, length, if_neg (by lia), ← Nat.add_assoc, skips]
      exact if_congr (by lia) rfl rfl
  | @pointer place labels pointers places behind marked name before _ =>
    refine ⟨1, fun turns => ?_⟩
    cases turns with
    | zero => rfl
    | succ turns =>
      have notNull : memory place ≠ 0 := by
        intro zero
        rw [zero] at marked
        exact absurd marked (by decide)
      unfold skipName
      rw [if_neg notNull, if_pos (by omega), if_pos (by lia)]

end Names

section Answers

variable {memory current : Memory} {sop place last count : Nat} {dname : CString} {answers : List Answer}
variable {used : List Nat}

theorem skipQuestions_questionsAt (questions : QuestionsAt memory sop place count last) :
    ∃ need, ∀ turns, skipQuestions memory turns count place = if need ≤ turns then some last else none := by
  induction questions with
  | nil => exact ⟨0, fun turns => (if_pos (Nat.zero_le turns)).symm⟩
  | cons name questions inductionHypothesis =>
    obtain ⟨first, skips⟩ := skipName_nameAt name
    obtain ⟨others, skipsOthers⟩ := inductionHypothesis
    refine ⟨max first others, fun turns => ?_⟩
    unfold skipQuestions
    rw [skips]
    by_cases enough : first ≤ turns
    · rw [if_pos enough, Option.bind_some, skipsOthers]
      exact if_congr (by lia) rfl rfl
    · rw [if_neg enough, if_neg (by lia), Option.bind_none]

/-- The first address whose owner begins with the name is taken. -/
theorem answerLoop_answersAt (answersAt : AnswersAt memory sop place answers)
    (readable : Readable memory dname used answers) (same : ∀ byte, byte ∉ used → current byte = memory byte)
    (before : ∀ pointer ∈ used, pointer < place) :
    ∃ need, ∀ turns, answerLoop sop turns dname answers.length place current =
      if need ≤ turns then some ((answers.find? (Begins memory dname)).map fun a => a.fields + 10) else none := by
  induction answersAt generalizing current used with
  | nil => exact ⟨0, fun turns => (if_pos (Nat.zero_le turns)).symm⟩
  | @cons a others name answersAt inductionHypothesis =>
    obtain ⟨fresh, _, later⟩ := readable
    obtain ⟨less, bytes, subset⟩ := name.bounds
    obtain ⟨first, after, kept, decodes⟩ := dnsGetrname_nameAt name same fresh
    have behind : ∀ pointer ∈ a.pointers ++ used, pointer < a.fields := by
      intro pointer member
      rcases List.mem_append.mp member with own | earlier
      · exact bytes pointer (subset pointer own)
      · exact lt_trans (before pointer earlier) less
    have sameField : ∀ offset, ntohs after (a.fields + offset) = ntohs memory (a.fields + offset) := fun offset =>
      ntohs_congr fun k _ => kept _ fun member => absurd (behind _ member) (by lia)
    have isBegun : strncmp (spelled a.owner ++ [0]) (dname.chars ++ [0]) dname.chars.length = 0 ∧
        ntohs after a.fields = 1 ↔ Begins memory dname a := by
      have sameType : ntohs after a.fields = ntohs memory a.fields := sameField 0
      rw [strncmp_eq_zero_iff _ dname.terminated, sameType, and_comm]
      rfl
    by_cases begun : Begins memory dname a
    · have found : (a :: others).find? (Begins memory dname) = some a := List.find?_cons_of_pos (decide_eq_true begun)
      refine ⟨first, fun turns => ?_⟩
      rw [found, List.length_cons]
      unfold answerLoop
      rw [decodes]
      by_cases enough : first ≤ turns
      · rw [if_pos enough, if_pos enough, Option.bind_some, if_pos (isBegun.mpr begun)]
        rfl
      · rw [if_neg enough, if_neg enough, Option.bind_none]
    · obtain ⟨rest, decodesRest⟩ := inductionHypothesis (later.resolve_left begun) kept fun pointer member => by
        have bound := behind pointer member
        lia
      have found : (a :: others).find? (Begins memory dname) = others.find? (Begins memory dname) :=
        List.find?_cons_of_neg (by rw [decide_eq_true_eq]; exact begun)
      refine ⟨max first rest, fun turns => ?_⟩
      rw [found, List.length_cons]
      unfold answerLoop
      rw [decodes]
      by_cases enough : first ≤ turns
      · rw [if_pos enough, Option.bind_some, if_neg (fun both => begun (isBegun.mp both)), sameField 8]
        have next : a.fields + 8 + (2 + (ntohs memory (a.fields + 8)).toNat) =
            a.fields + 10 + (ntohs memory (a.fields + 8)).toNat := by lia
        rw [next, decodesRest]
        exact if_congr (by lia) rfl rfl
      · rw [if_neg enough, if_neg (by lia), Option.bind_none]

theorem dnsGeta_response (response : Response memory sop answers) (readable : Readable memory dname [] answers) :
    ∃ need, ∀ turns, dnsGeta sop turns dname memory =
      if need ≤ turns then some ((answers.find? (Begins memory dname)).map fun a => a.fields + 10) else none := by
  obtain ⟨place, questions, answersAt⟩ := response.sections
  obtain ⟨first, skips⟩ := skipQuestions_questionsAt questions
  obtain ⟨rest, answered⟩ := answerLoop_answersAt answersAt readable (fun _ _ => rfl)
    (fun pointer member => absurd member List.not_mem_nil)
  refine ⟨max first rest, fun turns => ?_⟩
  unfold dnsGeta
  rw [skips, response.ancount]
  by_cases enough : first ≤ turns
  · rw [if_pos enough, Option.bind_some, answered]
    exact if_congr (by omega) rfl rfl
  · rw [if_neg enough, if_neg (by omega), Option.bind_none]

theorem AnswersAt.place_le {a : Answer} (answersAt : AnswersAt memory sop place answers) (member : a ∈ answers) :
    place < a.fields := by
  induction answersAt with
  | nil => exact absurd member List.not_mem_nil
  | cons name answersAt inductionHypothesis =>
    have less := name.bounds.1
    rcases List.mem_cons.mp member with rfl | later
    · exact less
    · have bound := inductionHypothesis later
      lia

/-- The place of its fields tells an answer from the others. -/
theorem AnswersAt.unique {a b : Answer} (answersAt : AnswersAt memory sop place answers) (isFirst : a ∈ answers)
    (isSecond : b ∈ answers) (same : a.fields = b.fields) : a = b := by
  induction answersAt with
  | nil => exact absurd isFirst List.not_mem_nil
  | cons name answersAt inductionHypothesis =>
    rcases List.mem_cons.mp isFirst with rfl | laterFirst
    · rcases List.mem_cons.mp isSecond with rfl | laterSecond
      · rfl
      · have bound := answersAt.place_le laterSecond
        omega
    · rcases List.mem_cons.mp isSecond with rfl | laterSecond
      · have bound := answersAt.place_le laterFirst
        omega
      · exact inductionHypothesis laterFirst laterSecond

/-- An address is the one of the name that is looked for just when the first owner that begins with the name is
the name itself. -/
theorem returnsOwned_iff (response : Response memory sop answers) (readable : Readable memory dname [] answers) :
    ReturnsOwned memory sop answers dname ↔ ∀ a, answers.find? (Begins memory dname) = some a → Owns a dname := by
  obtain ⟨need, isResult⟩ := dnsGeta_response response readable
  constructor
  · intro owned a isFirst
    have returned : dnsGeta sop need dname memory = some (some (a.fields + 10)) := by
      rw [isResult, if_pos (Nat.le_refl _), isFirst]
      rfl
    obtain ⟨b, member, _, samePlace, owns⟩ := owned need _ returned
    obtain ⟨place, _, answersAt⟩ := response.sections
    rw [answersAt.unique (List.mem_of_find?_eq_some isFirst) member (by lia)]
    exact owns
  · intro owned turns place returned
    rw [isResult] at returned
    split at returned
    · obtain ⟨a, isFirst, samePlace⟩ := Option.map_eq_some_iff.mp (Option.some.inj returned)
      have holds := List.find?_some isFirst
      have begun : Begins memory dname a := of_decide_eq_true holds
      exact ⟨a, List.mem_of_find?_eq_some isFirst, begun.1, samePlace.symm, owned a isFirst⟩
    · cases returned

/-- A name is read back just where its labels have 1 to 63 characters, or where it is refused. An address that is
returned for it is its own just where the first owner that begins with it is the name itself. -/
theorem names_survive_iff (response : Response memory sop answers) (readable : Readable memory dname [] answers) :
    (RoundTrips dname ↔
        512 ≤ dname.chars.length ∨ ∀ label ∈ labelsOf dname, 1 ≤ label.length ∧ label.length ≤ 63) ∧
      (ReturnsOwned memory sop answers dname ↔
        ∀ a, answers.find? (Begins memory dname) = some a → Owns a dname) :=
  ⟨roundTrips_iff dname, returnsOwned_iff response readable⟩

/-- A response with a question for `ab`, and with an address whose owner is a pointer to the question. -/
def reply : Memory :=
  store (fun _ => 0) 0 [0, 0, 0, 0, 0, 1, 0, 1, 0, 0, 0, 0, 2, 97, 98, 0, 0, 1, 0, 1, 192, 12, 0, 1, 0, 1, 0, 0, 0, 0,
    0, 4, 10, 0, 0, 1]

def replyAnswer : Answer := ⟨20, [[97, 98]], [20], 20 :: 21 :: (List.range' 12 3 ++ [15]), 22⟩

theorem name_in_reply : NameAt reply 0 12 [[97, 98]] [] (List.range' 12 3 ++ [15]) 16 :=
  .label ⟨by decide, by decide, by decide, by decide⟩ (by unfold Holds; decide) (.root (by decide))

theorem owner_in_reply : NameAt reply 0 20 [[97, 98]] [20] (20 :: 21 :: (List.range' 12 3 ++ [15])) 22 :=
  .pointer (by decide) name_in_reply (by decide)

theorem reply_response : Response reply 0 [replyAnswer] :=
  ⟨⟨20, .cons name_in_reply .nil, @AnswersAt.cons reply 0 replyAnswer [] owner_in_reply .nil⟩, by decide⟩

theorem reply_readable (dname : CString) : Readable reply dname [] [replyAnswer] :=
  ⟨fun _ member => absurd member List.not_mem_nil, by decide, Or.inr trivial⟩

theorem address_of_ab_is_returned :
    RoundTrips ⟨[97, 98], by decide⟩ ∧ ReturnsOwned reply 0 [replyAnswer] ⟨[97, 98], by decide⟩ := by
  obtain ⟨trips, owned⟩ := @names_survive_iff _ _ ⟨[97, 98], by decide⟩ _ reply_response (reply_readable _)
  refine ⟨trips.mpr (Or.inr (by decide)), owned.mpr fun a isFirst => ?_⟩
  have isAnswer : [replyAnswer].find? (Begins reply ⟨[97, 98], by decide⟩) = some replyAnswer := by decide
  cases isAnswer.symm.trans isFirst
  rfl

/-- A label of 64 characters is read as a pointer, and the address of `ab` is taken for the one of `a`. -/
theorem address_of_ab_is_returned_for_a :
    ¬ RoundTrips ⟨List.replicate 64 97, by decide⟩ ∧
      Response reply 0 [replyAnswer] ∧ ¬ ReturnsOwned reply 0 [replyAnswer] ⟨[97], by decide⟩ := by
  refine ⟨fun trips => ?_, reply_response, fun owned => ?_⟩
  · have short := (roundTrips_iff _).mp trips
    revert short
    decide
  · have isAnswer : [replyAnswer].find? (Begins reply ⟨[97], by decide⟩) = some replyAnswer := by decide
    have owns := (returnsOwned_iff reply_response (reply_readable _)).mp owned replyAnswer isAnswer
    revert owns
    unfold Owns
    decide

end Answers

end Xinu.DnsAnswers
