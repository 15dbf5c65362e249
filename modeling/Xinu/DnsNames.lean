import Xinu.CStrings
import Xinu.NetworkOrder
import Xinu.StoredBytes

/-!
# Names in DNS messages

A name is a sequence of labels, each behind its length, up to a length zero. `dns_bldq` encodes the labels
of a dotted name. A length above 63 is a pointer to another name, so that a label must not be longer. A
pointer that `dns_getrname` follows is turned into its offset, and is not a pointer for the names behind it.
`dns_geta` compares the owner of an answer with as many characters as the name has that is looked for.
-/

namespace Xinu.DnsNames

open CIntegers NetworkOrder StoredBytes

section Source

def dot : UInt8 := 46

/-- The loop of `dns_bldq`: the place behind the labels and the length of the question, or none for `SYSERR`. -/
def bldqLoop : List UInt8 → Nat → Nat → Nat → Memory → Option (Nat × Nat × Memory)
  | [], data, _, qlen, memory => some (data, qlen, memory)
  | ch :: dname, data, llptr, qlen, memory =>
    if 512 ≤ qlen then none
    else if ch ≠ dot then
      let memory := store memory data [ch]
      bldqLoop dname (data + 1) llptr (qlen + 1) (store memory llptr [memory llptr + 1])
    else bldqLoop dname (data + 1) data (qlen + 1) (store memory data [0])

/-- `dns_bldq`: the length of the question, and the memory with it. -/
def dnsBldq (dname : CString) (data : Nat) (memory : Memory) : Option (Nat × Memory) :=
  (bldqLoop dname.chars (data + 1) data 1 (store memory data [0])).map fun built =>
    (built.2.1 + 1 + 2 + 2, htons (htons (store built.2.2 built.1 [0]) (built.1 + 1) 1) (built.1 + 3) 1)

/-- `dns_getrname` for a name at some place of a packet: the text, the place behind the name, and the memory,
where the pointers that were followed have lost their mark. The text is not held to the size of `rname`. -/
def dnsGetrname (sop : Nat) : Nat → Nat → Memory → Option (List UInt8 × Nat × Memory)
  | 0, _, _ => none
  | turns + 1, son, memory =>
    let llen := memory son
    if llen = 0 then some ([], son + 1, memory)
    else if llen.toNat ≤ 63 then
      (dnsGetrname sop turns (son + 1 + llen.toNat) memory).map fun rest =>
        (bytesAt memory (son + 1) llen.toNat ++ dot :: rest.1, rest.2)
    else
      let memory := store memory son [llen &&& 0x3f]
      let offset := (memory son).toNat * 256 + (memory (son + 1)).toNat
      (dnsGetrname sop turns (sop + offset) memory).map fun rest => (rest.1, son + 2, rest.2.2)

/-- The loop of `dns_geta` over the name of a question. -/
def skipName (memory : Memory) : Nat → Nat → Option Nat
  | 0, _ => none
  | turns + 1, dptr =>
    if memory dptr = 0 then some (dptr + 1)
    else if 63 < (memory dptr).toNat then some (dptr + 2)
    else skipName memory turns (dptr + (1 + (memory dptr).toNat))

/-- The loop over the questions. -/
def skipQuestions (memory : Memory) (turns : Nat) : Nat → Nat → Option Nat
  | 0, dptr => some dptr
  | qdcount + 1, dptr => (skipName memory turns dptr).bind fun dptr => skipQuestions memory turns qdcount (dptr + (2 + 2))

/-- The loop over the answers: the place of the address, or none for `SYSERR`. -/
def answerLoop (sop turns : Nat) (dname : CString) : Nat → Nat → Memory → Option (Option Nat)
  | 0, _, _ => some none
  | ancount + 1, dptr, memory =>
    (dnsGetrname sop turns dptr memory).bind fun named =>
      if strncmp (named.1 ++ [0]) (dname.chars ++ [0]) dname.chars.length = 0 ∧ ntohs named.2.2 named.2.1 = 1 then
        some (some (named.2.1 + 10))
      else answerLoop sop turns dname ancount (named.2.1 + 8 + (2 + (ntohs named.2.2 (named.2.1 + 8)).toNat)) named.2.2

/-- `dns_geta` for a packet at some place, where every name has some number of turns: the place of the address. -/
def dnsGeta (sop turns : Nat) (dname : CString) (memory : Memory) : Option (Option Nat) :=
  (skipQuestions memory turns (ntohs memory (sop + 4)).toNat (sop + 12)).bind fun dptr =>
    answerLoop sop turns dname (ntohs memory (sop + 6)).toNat dptr memory

end Source

section Names

/-- The labels of a dotted name. -/
def labelsOf (dname : CString) : List (List UInt8) := dname.chars.splitOn dot

/-- The text of labels, with a dot behind each. -/
def spelled (labels : List (List UInt8)) : List UInt8 := labels.flatMap fun label => label ++ [dot]

/-- Labels behind their lengths. -/
def lengthed (labels : List (List UInt8)) : List UInt8 :=
  labels.flatMap fun label => UInt8.ofNat label.length :: label

/-- The question that is built of a name is read as its labels, up to the type of the question. -/
def RoundTrips (dname : CString) : Prop :=
  ∀ sop memory qlen built, dnsBldq dname (sop + 12) memory = some (qlen, built) →
    ∃ turns after, dnsGetrname sop turns (sop + 12) built =
      some (spelled (labelsOf dname), sop + 12 + (qlen - 4), after)

end Names

section Comparison

/-- The comparison with as many characters as the name has. -/
theorem strncmp_eq_zero_iff (text : List UInt8) {chars : List UInt8} (terminated : 0 ∉ chars) :
    strncmp (text ++ [0]) (chars ++ [0]) chars.length = 0 ↔ chars.isPrefixOf text = true := by
  rw [List.isPrefixOf_iff_prefix]
  induction chars generalizing text with
  | nil => exact iff_of_true (by simp [strncmp]) List.nil_prefix
  | cons c chars inductionHypothesis =>
    rw [List.mem_cons, not_or] at terminated
    have notNull : c ≠ 0 := Ne.symm terminated.1
    cases text with
    | nil =>
      have different := byte_difference 0 c terminated.1
      change (if 0 = c then _ else _ : Int) = 0 ↔ _
      rw [if_neg terminated.1]
      exact iff_of_false different (by rw [List.prefix_nil]; exact List.cons_ne_nil _ _)
    | cons a text =>
      change (if a = c then if a = 0 then 0 else strncmp (text ++ [0]) (chars ++ [0]) chars.length else _ : Int) = 0 ↔ _
      rw [List.cons_prefix_cons]
      by_cases same : a = c
      · subst same
        rw [if_pos rfl, if_neg notNull, inductionHypothesis text terminated.2]
        exact (and_iff_right rfl).symm
      · rw [if_neg same]
        exact iff_of_false (byte_difference a c same) fun both => same both.1.symm

end Comparison

section Building

variable {memory after : Memory} {done : List (List UInt8)} {cur rest : List UInt8} {base data llptr qlen d q : Nat}

theorem lengthed_append (others : List (List UInt8)) : lengthed (done ++ others) = lengthed done ++ lengthed others :=
  List.flatMap_append

theorem lengthed_cons (label : List UInt8) (labels : List (List UInt8)) :
    lengthed (label :: labels) = UInt8.ofNat label.length :: (label ++ lengthed labels) :=
  List.flatMap_cons

theorem lengthed_singleton (label : List UInt8) : lengthed [label] = UInt8.ofNat label.length :: label := by
  rw [lengthed_cons]
  exact congrArg _ (List.append_nil label)

/-- The loop fails just when a character is left at length 512. -/
theorem bldqLoop_eq_none_iff : bldqLoop rest data llptr qlen memory = none ↔ rest ≠ [] ∧ 512 < qlen + rest.length := by
  induction rest generalizing data llptr qlen memory with
  | nil => simp [bldqLoop]
  | cons ch rest inductionHypothesis =>
    unfold bldqLoop
    by_cases full : 512 ≤ qlen
    · rw [if_pos full]
      simp only [List.length_cons, true_iff]
      exact ⟨List.cons_ne_nil _ _, by omega⟩
    · have others : rest ≠ [] ∧ 512 < qlen + 1 + rest.length ↔ ch :: rest ≠ [] ∧ 512 < qlen + (ch :: rest).length := by
        rw [List.length_cons]
        constructor
        · rintro ⟨_, long⟩
          exact ⟨List.cons_ne_nil _ _, by omega⟩
        · rintro ⟨_, long⟩
          refine ⟨?_, by omega⟩
          rintro rfl
          rw [List.length_nil] at long
          omega
      rw [if_neg full, ← others]
      split <;> exact inductionHypothesis

/-- The loop stores the labels behind their lengths. -/
theorem bldqLoop_spec (noDot : dot ∉ cur) (holds : Holds memory base (lengthed done ++ UInt8.ofNat cur.length :: cur))
    (isLength : llptr = base + (lengthed done).length) (isData : data = llptr + 1 + cur.length)
    (built : bldqLoop rest data llptr qlen memory = some (d, q, after)) :
    Holds after base (lengthed (done ++ (cur ++ rest).splitOn dot)) ∧
      d = base + (lengthed (done ++ (cur ++ rest).splitOn dot)).length ∧ d = data + rest.length ∧ q = qlen + rest.length := by
  induction rest generalizing cur done data llptr qlen memory with
  | nil =>
    cases built
    rw [List.append_nil, List.splitOn_eq_singleton noDot, lengthed_append, lengthed_singleton, List.length_append,
      List.length_cons]
    exact ⟨holds, by lia, rfl, rfl⟩
  | cons ch rest inductionHypothesis =>
    unfold bldqLoop at built
    split at built
    · cases built
    · split at built
      · rename_i _ notDot
        have inner : cur ++ ch :: rest = (cur ++ [ch]) ++ rest := by simp
        have stillNoDot : dot ∉ cur ++ [ch] := by
          rw [List.mem_append, List.mem_singleton, not_or]
          exact ⟨noDot, Ne.symm notDot⟩
        have added : Holds (store (store memory data [ch]) llptr [store memory data [ch] llptr + 1]) base
            (lengthed done ++ UInt8.ofNat (cur ++ [ch]).length :: (cur ++ [ch])) := by
          obtain ⟨before, behind⟩ := holds_append.mp holds
          rw [← isLength] at behind
          obtain ⟨isByte, isCur⟩ := holds_cons.mp behind
          have kept : store memory data [ch] llptr = memory llptr := store_outside (Or.inl (by omega))
          have oneMore : UInt8.ofNat (cur ++ [ch]).length = memory llptr + 1 := by
            rw [isByte, List.length_append]
            exact UInt8.ofNat_add _ _
          rw [holds_append, ← isLength, holds_cons, holds_append, ← isData, kept, oneMore]
          refine ⟨(before.store (Or.inl ?_)).store (Or.inl ?_), ?_, (isCur.store (Or.inl ?_)).store (Or.inr ?_), ?_⟩
          · rw [isData, isLength]
            omega
          · rw [isLength]
          · exact holds_store 0 Nat.one_pos
          · rw [isData]
          · exact Nat.le_refl _
          · exact holds_store.store (Or.inr (by rw [isData, List.length_singleton]; omega))
        rw [inner]
        obtain ⟨stored, isEnd, fromData, isQlen⟩ := inductionHypothesis stillNoDot added isLength
          (by rw [List.length_append, List.length_singleton, isData]; omega) built
        rw [List.length_cons]
        exact ⟨stored, isEnd, by omega, by omega⟩
      · rename_i _ isDot
        have isDot : ch = dot := not_not.mp isDot
        subst isDot
        have closed : Holds (store memory data [0]) base
            (lengthed (done ++ [cur]) ++ UInt8.ofNat ([] : List UInt8).length :: []) := by
          rw [lengthed_append, lengthed_singleton, holds_append, List.length_append, List.length_cons]
          refine ⟨holds.store (Or.inl ?_), ?_⟩
          · rw [List.length_append, List.length_cons]
            omega
          · have place : base + ((lengthed done).length + (cur.length + 1)) = data := by omega
            rw [place]
            exact holds_store
        have isNext : data = base + (lengthed (done ++ [cur])).length := by
          rw [lengthed_append, lengthed_singleton, List.length_append, List.length_cons]
          omega
        have labels : done ++ (cur ++ dot :: rest).splitOn dot = (done ++ [cur]) ++ ([] ++ rest).splitOn dot := by
          rw [List.splitOn_append_cons_of_beq cur rest (beq_self_eq_true dot), List.splitOn_eq_singleton noDot]
          simp
        rw [labels]
        obtain ⟨stored, isEnd, fromData, isQlen⟩ := inductionHypothesis List.not_mem_nil closed isNext rfl built
        rw [List.length_nil] at fromData
        rw [List.length_cons]
        exact ⟨stored, isEnd, by lia, by omega⟩

/-- A question has the name with its end, and its length is that of the name and four more bytes. -/
theorem dnsBldq_spec {dname : CString} {built : Memory} (isBuilt : dnsBldq dname data memory = some (qlen, built)) :
    Holds built data (lengthed (labelsOf dname) ++ [0]) ∧ qlen = (lengthed (labelsOf dname)).length + 1 + 4 := by
  obtain ⟨⟨d, q, after⟩, isLoop, same⟩ := Option.map_eq_some_iff.mp isBuilt
  cases same
  have start : Holds (store memory data [0]) data (lengthed [] ++ UInt8.ofNat ([] : List UInt8).length :: []) := holds_store
  obtain ⟨stored, isEnd, fromData, isQlen⟩ := bldqLoop_spec List.not_mem_nil start rfl rfl isLoop
  rw [List.nil_append, List.nil_append] at stored isEnd
  change Holds after data (lengthed (labelsOf dname)) at stored
  change d = data + (lengthed (labelsOf dname)).length at isEnd
  change d = data + 1 + dname.chars.length at fromData
  refine ⟨?_, ?_⟩
  rotate_left
  · dsimp only
    lia
  have withEnd : Holds (store after d [0]) data (lengthed (labelsOf dname) ++ [0]) := by
    rw [holds_append, ← isEnd]
    exact ⟨stored.store (Or.inl (by omega)), holds_store⟩
  intro k inside
  rw [List.length_append, List.length_singleton] at inside
  unfold htons
  rw [copy_outside _ _ _ _ _ (by omega), copy_outside _ _ _ _ _ (by omega)]
  exact withEnd k (by rw [List.length_append, List.length_singleton]; exact inside)

theorem dnsBldq_isSome_iff {dname : CString} : (dnsBldq dname data memory).isSome = true ↔ dname.chars.length < 512 := by
  unfold dnsBldq
  rw [Option.isSome_map, Option.isSome_iff_ne_none, ne_eq, bldqLoop_eq_none_iff]
  constructor
  · intro accepted
    by_contra long
    exact accepted ⟨List.ne_nil_of_length_pos (by omega), by omega⟩
  · rintro short ⟨_, long⟩
    omega

end Building

section RoundTrip

variable {memory after : Memory} {labels : List (List UInt8)} {sop son : Nat}

/-- A name is read back where all labels have 1 to 63 characters. -/
theorem dnsGetrname_lengthed (short : ∀ label ∈ labels, 1 ≤ label.length ∧ label.length ≤ 63)
    (holds : Holds memory son (lengthed labels ++ [0])) :
    dnsGetrname sop (labels.length + 1) son memory =
      some (spelled labels, son + ((lengthed labels).length + 1), memory) := by
  induction labels generalizing son with
  | nil =>
    have isEnd : memory son = 0 := holds 0 Nat.one_pos
    unfold dnsGetrname
    dsimp only
    rw [if_pos isEnd]
    rfl
  | cons label labels inductionHypothesis =>
    obtain ⟨some_, few⟩ := short label List.mem_cons_self
    rw [lengthed_cons, List.cons_append, List.append_assoc] at holds
    obtain ⟨isByte, rest⟩ := holds_cons.mp holds
    obtain ⟨isLabel, rest⟩ := holds_append.mp rest
    have length : (memory son).toNat = label.length := by
      rw [isByte]
      exact UInt8.toNat_ofNat_of_lt' (by have size : UInt8.size = 256 := rfl; lia)
    have notEnd : memory son ≠ 0 := by
      intro zero
      rw [zero] at length
      exact absurd length (by change 0 ≠ label.length; lia)
    have text : bytesAt memory (son + 1) label.length = label := by
      rw [bytesAt_eq isLabel (Nat.le_refl _), List.take_length]
    have others := inductionHypothesis (fun other member => short other (List.mem_cons_of_mem _ member)) rest
    rw [List.length_cons]
    conv_lhs => unfold dnsGetrname
    dsimp only
    rw [if_neg notEnd, length, if_pos few, others, Option.map_some, text, lengthed_cons, List.length_cons,
      List.length_append]
    have spell : label ++ dot :: spelled labels = spelled (label :: labels) := by
      unfold spelled
      rw [List.flatMap_cons, List.append_assoc]
      rfl
    have places : son + 1 + label.length + ((lengthed labels).length + 1) =
        son + (label.length + (lengthed labels).length + 1 + 1) := by lia
    rw [spell, places]

/-- With another label a name is not read back, whatever its length is taken for. -/
theorem dnsGetrname_ne (noDots : ∀ label ∈ labels, dot ∉ label)
    (unfit : ¬ ∀ label ∈ labels, 1 ≤ label.length ∧ label.length ≤ 63)
    (holds : Holds memory son (lengthed labels ++ [0])) (turns : Nat) :
    dnsGetrname sop turns son memory ≠ some (spelled labels, son + ((lengthed labels).length + 1), after) := by
  intro isRead
  induction labels generalizing son turns with
  | nil => exact unfit fun label member => absurd member List.not_mem_nil
  | cons label labels inductionHypothesis =>
    cases turns with
    | zero => cases isRead
    | succ turns =>
      rw [lengthed_cons, List.length_cons, List.length_append] at isRead
      rw [lengthed_cons, List.cons_append, List.append_assoc] at holds
      obtain ⟨isByte, rest⟩ := holds_cons.mp holds
      obtain ⟨isLabel, rest⟩ := holds_append.mp rest
      have spell : spelled (label :: labels) = label ++ dot :: spelled labels := by
        unfold spelled
        rw [List.flatMap_cons, List.append_assoc]
        rfl
      rw [spell] at isRead
      unfold dnsGetrname at isRead
      dsimp only at isRead
      split at isRead
      · -- a length zero ends the name
        have places := congrArg (fun result => result.map fun read => read.2.1) isRead
        simp only [Option.map_some, Option.some_inj] at places
        lia
      · split at isRead
        · rename_i notEnd few
          obtain ⟨⟨text, place, last⟩, isRest, same⟩ := Option.map_eq_some_iff.mp isRead
          obtain ⟨sameText, samePlace⟩ := Prod.mk.inj same
          by_cases fits : label.length ≤ 63
          · have length : (memory son).toNat = label.length := by
              rw [isByte]
              exact UInt8.toNat_ofNat_of_lt' (by have size : UInt8.size = 256 := rfl; lia)
            have own : bytesAt memory (son + 1) label.length = label := by
              rw [bytesAt_eq isLabel (Nat.le_refl _), List.take_length]
            rw [length, own] at sameText
            rw [length] at isRest
            have sameRest := List.cons.inj (List.append_cancel_left sameText)
            cases samePlace
            have positive : 1 ≤ label.length := by
              by_contra zero
              exact notEnd (by rw [isByte, Nat.eq_zero_of_not_pos zero]; rfl)
            refine inductionHypothesis (fun other member => noDots other (List.mem_cons_of_mem _ member)) ?_ rest turns ?_
            · intro others
              apply unfit
              intro other member
              rcases List.mem_cons.mp member with rfl | later
              · exact ⟨positive, fits⟩
              · exact others other later
            · rw [isRest]
              refine congrArg some (Prod.ext sameRest.2 (Prod.ext ?_ rfl))
              dsimp only
              lia
          · -- the first character that is taken for a dot is one of the label
            have less : (memory son).toNat < label.length := by omega
            have sameAt := congrArg (fun list : List UInt8 => list[(memory son).toNat]?) sameText
            dsimp only at sameAt
            rw [List.getElem?_append_right (by rw [length_bytesAt]), length_bytesAt, Nat.sub_self,
              List.getElem?_append_left less] at sameAt
            have isDot : dot ∈ label := List.mem_of_getElem? sameAt.symm
            exact noDots label List.mem_cons_self isDot
        · -- a pointer ends the name, too
          rename_i _ notFew
          obtain ⟨⟨text, place, last⟩, _, same⟩ := Option.map_eq_some_iff.mp isRead
          have samePlace := congrArg (fun read : List UInt8 × Nat × Memory => read.2.1) same
          dsimp only at samePlace
          have long : 64 ≤ label.length := by
            by_contra few
            have length : (memory son).toNat = label.length := by
              rw [isByte]
              exact UInt8.toNat_ofNat_of_lt' (by have size : UInt8.size = 256 := rfl; lia)
            lia
          lia

theorem dot_notMem_splitOn (text : List UInt8) : ∀ label ∈ text.splitOn dot, dot ∉ label := by
  induction text with
  | nil =>
    intro label member
    rw [List.splitOn_nil, List.mem_singleton] at member
    rw [member]
    exact List.not_mem_nil
  | cons ch text inductionHypothesis =>
    rw [List.splitOn_cons_eq_if_modifyHead]
    split
    · intro label member
      rcases List.mem_cons.mp member with rfl | later
      · exact List.not_mem_nil
      · exact inductionHypothesis label later
    · rename_i notDot
      obtain ⟨first, others, isSplit⟩ := List.exists_cons_of_ne_nil (List.splitOn_ne_nil dot text)
      rw [isSplit] at inductionHypothesis ⊢
      intro label member
      rcases List.mem_cons.mp member with rfl | later
      · rw [List.mem_cons, not_or]
        exact ⟨fun same => notDot (beq_iff_eq.mpr same.symm), inductionHypothesis first List.mem_cons_self⟩
      · exact inductionHypothesis label (List.mem_cons_of_mem _ later)

/-- The names that are read back are those with labels of 1 to 63 characters. -/
theorem roundTrips_iff (dname : CString) :
    RoundTrips dname ↔ 512 ≤ dname.chars.length ∨ ∀ label ∈ labelsOf dname, 1 ≤ label.length ∧ label.length ≤ 63 := by
  constructor
  · intro trips
    by_contra unfit
    rw [not_or] at unfit
    obtain ⟨qlen, built, isBuilt⟩ : ∃ qlen built, dnsBldq dname (0 + 12) (fun _ => 0) = some (qlen, built) := by
      obtain ⟨built, isBuilt⟩ := Option.isSome_iff_exists.mp
        ((@dnsBldq_isSome_iff (fun _ => 0) (0 + 12) dname).mpr (by omega))
      exact ⟨built.1, built.2, isBuilt⟩
    obtain ⟨turns, after, isRead⟩ := trips 0 (fun _ => 0) qlen built isBuilt
    obtain ⟨holds, isQlen⟩ := dnsBldq_spec isBuilt
    have length : qlen - 4 = (lengthed (labelsOf dname)).length + 1 := by lia
    rw [length] at isRead
    exact dnsGetrname_ne (dot_notMem_splitOn dname.chars) unfit.2 holds turns isRead
  · rintro (long | short) sop memory qlen built isBuilt
    · have accepted := dnsBldq_isSome_iff.mp (Option.isSome_of_eq_some isBuilt)
      omega
    · obtain ⟨holds, isQlen⟩ := dnsBldq_spec isBuilt
      have length : qlen - 4 = (lengthed (labelsOf dname)).length + 1 := by omega
      rw [length]
      exact ⟨_, _, dnsGetrname_lengthed short holds⟩

end RoundTrip

end Xinu.DnsNames
