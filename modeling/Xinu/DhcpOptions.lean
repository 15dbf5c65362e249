import Xinu.StoredBytes

/-!
# Options of DHCP messages

An option is a tag, a length and a value of this length. Pads, which are single bytes, may stand between
options, and an end tag stands behind them. `dump_dhcp_msg` passes over single bytes. The loop in
`getlocalip_boot` and `get_dhcp_option_value` take a pad for a tag with a length, so that they leave out the
option behind it, and an acknowledgement is recognised by the third byte, which need not be part of the
option that has the type of the message.
-/

namespace Xinu.DhcpOptions

open CIntegers StoredBytes

section Source

/-- The place of `dc_opt` in a message. -/
def optAt : Nat := 240

/-- The places at which the body of a loop over options runs. Some tags are passed over as single bytes. -/
def walk (single : UInt8 → Bool) (dmsg : Memory) (eom : Nat) : Nat → Nat → List Nat
  | 0, _ => []
  | turns + 1, place =>
    if place < eom then
      if single (dmsg place) = true then walk single dmsg eom turns (place + 1)
      else place :: walk single dmsg eom turns (place + 1 + ((dmsg (place + 1)).toNat + 1))
    else []

/-- The loops without single bytes, and the one of `dump_dhcp_msg`, for a message of some size. -/
def walkAll (dmsg : Memory) (size : Nat) : List Nat := walk (fun _ => false) dmsg (size - 1) size optAt

def walkOptions (dmsg : Memory) (size : Nat) : List Nat :=
  walk (fun tag => tag = 0 ∨ tag = 255) dmsg (size - 1) size optAt

/-- Bytes that are read of a message of some size. There are none behind its end. -/
def readAt (dmsg : Memory) (size place count : Nat) : Option (List UInt8) :=
  if place + count ≤ size then some (bytesAt dmsg place count) else none

/-- The message type, the address mask and the router that the loop of `getlocalip_boot` takes. -/
structure Taken where
  msgtype : Nat
  addrmask : UInt32
  routeraddr : UInt32

/-- The number of bytes that this loop takes of a value. -/
def takenCount (tag : UInt8) : Nat := if tag = 53 then 1 else if tag = 1 ∨ tag = 3 then 4 else 0

/-- A word in network order. -/
def word (bytes : List UInt8) : UInt32 := UInt32.ofNat (bytes.foldl (fun value byte => 256 * value + byte.toNat) 0)

/-- The body of the loop of `getlocalip_boot`. -/
def take (dmsg : Memory) (inlen : Nat) (t : Taken) (optptr : Nat) : Option Taken :=
  (readAt dmsg inlen (optptr + 2) (takenCount (dmsg optptr))).map fun value =>
    if dmsg optptr = 53 then { t with msgtype := (value.headD 0).toNat }
    else if dmsg optptr = 1 then { t with addrmask := word value }
    else if dmsg optptr = 3 then { t with routeraddr := word value }
    else t

/-- The loop of `getlocalip_boot`. -/
def optionLoop (dmsg : Memory) (inlen : Nat) : Option Taken := (walkAll dmsg inlen).foldlM (take dmsg inlen) ⟨0, 0, 0⟩

/-- `getlocalip_boot` takes a message for an acknowledgement, and not for an offer or for another message. -/
def Accepts (dmsg : Memory) (inlen : Nat) : Prop :=
  ∃ t, optionLoop dmsg inlen = some t ∧ t.msgtype ≠ 2 ∧ dmsg (optAt + 2) = 5

/-- `get_dhcp_option_value`: the place of the value. -/
def getDhcpOptionValue (dmsg : Memory) (dmsgSize : Nat) (optionKey : UInt8) : Option Nat :=
  ((walkAll dmsg dmsgSize).find? fun optTmp => dmsg optTmp = optionKey).map (· + 2)

/-- The length of a string, which is searched for its null up to some place. -/
def textLength (dmsg : Memory) : Nat → Nat → Option Nat
  | 0, _ => none
  | left + 1, place => if dmsg place = 0 then some 0 else (textLength dmsg left (place + 1)).map (· + 1)

/-- The number of bytes that `dump_dhcp_msg` prints of a value with some length, but for a string. -/
def shownCount (tag length : UInt8) : Nat :=
  if tag = 1 ∨ tag = 50 ∨ tag = 51 ∨ tag = 54 ∨ tag = 58 ∨ tag = 59 then 4
  else if tag = 53 then 1
  else if tag = 3 ∨ tag = 6 then 4 * (length.toNat / 4)
  else if tag = 15 ∨ tag = 43 ∨ tag = 55 then length.toNat
  else 0

/-- The bytes that `dump_dhcp_msg` prints of a value. The string of option 60 ends after 32 characters, but
its null is searched without a bound. -/
def shown (dmsg : Memory) (dmsgSize optTmp : Nat) : Option (List UInt8) :=
  if dmsg optTmp = 60 then
    (textLength dmsg (dmsgSize - (optTmp + 2)) (optTmp + 2)).map fun length => bytesAt dmsg (optTmp + 2) (min length 32)
  else readAt dmsg dmsgSize (optTmp + 2) (shownCount (dmsg optTmp) (dmsg (optTmp + 1)))

/-- `dump_dhcp_msg`: the tags of the options with what is printed of their values. -/
def dumpDhcpMsg (dmsg : Memory) (dmsgSize : Nat) : Option (List (UInt8 × List UInt8)) :=
  (walkOptions dmsg dmsgSize).mapM fun optTmp => (shown dmsg dmsgSize optTmp).map fun value => (dmsg optTmp, value)

end Source

section Grammar

/-- An option with its tag and its value. -/
structure DhcpOption where
  tag : UInt8
  value : List UInt8
  notSingle : tag ≠ 0 ∧ tag ≠ 255
  short : value.length < 256

/-- The parts of an option area before the end tag. -/
inductive Item
  | pad
  | option (o : DhcpOption)

def Item.bytes : Item → List UInt8
  | pad => [0]
  | option o => o.tag :: UInt8.ofNat o.value.length :: o.value

/-- The bytes of an option area with its end tag. -/
def area (items : List Item) : List UInt8 := items.flatMap Item.bytes ++ [255]

/-- The options with their places, where the area starts at some place. -/
def located : List Item → Nat → List (Nat × DhcpOption)
  | [], _ => []
  | .pad :: items, place => located items (place + 1)
  | .option o :: items, place => (place, o) :: located items (place + 2 + o.value.length)

/-- The length of a message with an option area. -/
def received (items : List Item) : Nat := optAt + (area items).length

/-- The value of the last option 53 of a message. -/
def messageType (items : List Item) : Option (List UInt8) :=
  (((located items optAt).filter fun found => found.2.tag = 53).getLast?).map fun found => found.2.value

/-- What is to be printed of an option. -/
def DhcpOption.shown (o : DhcpOption) : List UInt8 :=
  if o.tag = 60 then (o.value.takeWhile (· ≠ 0)).take 32
  else o.value.take (shownCount o.tag (UInt8.ofNat o.value.length))

/-- The three walks find the options of the grammar with their values, no read goes past the length of the
message, and an acknowledgement is a message of type five. -/
structure ReadsByGrammar (dmsg : Memory) (items : List Item) : Prop where
  loop : (walkAll dmsg (received items)).filter (fun place => dmsg place ≠ 0) = (located items optAt).map Prod.fst
  taken : ∀ place o, (place, o) ∈ located items optAt →
    readAt dmsg (received items) (place + 2) (takenCount o.tag) = some (o.value.take (takenCount o.tag))
  value : ∀ key, key ≠ 0 → key ≠ 255 → getDhcpOptionValue dmsg (received items) key =
    ((located items optAt).find? fun found => found.2.tag = key).map fun found => found.1 + 2
  dump : dumpDhcpMsg dmsg (received items) = some ((located items optAt).map fun found => (found.2.tag, found.2.shown))
  within : ∀ place, place ∈ walkAll dmsg (received items) ∨ place ∈ walkOptions dmsg (received items) →
    place + 1 < received items
  acknowledgement : Accepts dmsg (received items) ↔ messageType items = some [5]

/-- Pads before an option come in pairs. -/
def Paired : List Item → Prop
  | [] => True
  | .option _ :: items => Paired items
  | [.pad] => True
  | .pad :: .pad :: items => Paired items
  | .pad :: .option _ :: _ => False

/-- The value of an option has the bytes that are taken or shown of it. The string of option 60 has an end
where it is not printed up to its thirty-second character, and some null stands behind it. -/
def Complete (dmsg : Memory) (size place : Nat) (o : DhcpOption) : Prop :=
  (o.tag ∈ [1, 3, 50, 51, 54, 58, 59] → 4 ≤ o.value.length) ∧ (o.tag = 53 → 1 ≤ o.value.length) ∧
    (o.tag = 60 → (0 ∈ o.value ∨ 32 ≤ o.value.length ∨ dmsg (place + 2 + o.value.length) = 0) ∧
      ∃ null, place + 2 ≤ null ∧ null < size ∧ dmsg null = 0)

end Grammar

section Walks

variable {single : UInt8 → Bool} {dmsg : Memory} {eom place found : Nat} {items : List Item} {o : DhcpOption}

/-- The number of turns does not matter where it is enough. -/
theorem walk_enough (turns others : Nat) (enough : eom ≤ place + turns) (alsoEnough : eom ≤ place + others) :
    walk single dmsg eom turns place = walk single dmsg eom others place := by
  induction turns generalizing others place with
  | zero =>
    cases others with
    | zero => rfl
    | succ others =>
      unfold walk
      rw [if_neg (by omega)]
  | succ turns inductionHypothesis =>
    cases others with
    | zero =>
      unfold walk
      rw [if_neg (by omega)]
    | succ others =>
      unfold walk
      rw [inductionHypothesis others (by omega) (by lia), inductionHypothesis others (by lia) (by lia)]

theorem walk_end {turns : Nat} (atEnd : eom ≤ place) : walk single dmsg eom turns place = [] := by
  cases turns with
  | zero => rfl
  | succ turns =>
    unfold walk
    rw [if_neg (by omega)]

theorem walk_step {turns : Nat} (enough : eom ≤ place + turns) (inside : place < eom) :
    walk single dmsg eom turns place =
      if single (dmsg place) = true then walk single dmsg eom turns (place + 1)
      else place :: walk single dmsg eom turns (place + 1 + ((dmsg (place + 1)).toNat + 1)) := by
  obtain ⟨left, rfl⟩ : ∃ left, turns = left + 1 := ⟨turns - 1, by lia⟩
  conv_lhs => unfold walk
  rw [if_pos inside, walk_enough left (left + 1) (by omega) (by omega), walk_enough left (left + 1) (by lia) (by lia)]

theorem mem_walk {turns : Nat} (member : found ∈ walk single dmsg eom turns place) : place ≤ found ∧ found < eom := by
  induction turns generalizing place with
  | zero => cases member
  | succ turns inductionHypothesis =>
    unfold walk at member
    split at member
    · split at member
      · have bounds := inductionHypothesis member
        lia
      · rcases List.mem_cons.mp member with rfl | later
        · omega
        · have bounds := inductionHypothesis later
          lia
    · cases member

theorem area_pad : area (.pad :: items) = 0 :: area items := rfl

theorem area_option : area (.option o :: items) = Item.bytes (.option o) ++ area items := by
  unfold area
  rw [List.flatMap_cons, List.append_assoc]

theorem length_bytes : (Item.bytes (.option o)).length = 2 + o.value.length := by
  change o.value.length + 1 + 1 = _
  lia

/-- The bytes of an option in a message. -/
theorem option_bytes (holds : Holds dmsg place (Item.bytes (.option o))) :
    dmsg place = o.tag ∧ (dmsg (place + 1)).toNat = o.value.length ∧ Holds dmsg (place + 2) o.value := by
  have long := @length_bytes o
  refine ⟨holds 0 (by omega), ?_, ?_⟩
  · have isLength := holds 1 (by omega)
    have short := o.short
    rw [isLength]
    exact UInt8.toNat_ofNat_of_lt' short
  · intro k inside
    have isByte := holds (2 + k) (by omega)
    rw [← Nat.add_assoc, Nat.add_comm 2 k] at isByte
    exact isByte

theorem length_area_pos : 0 < (area items).length := by
  unfold area
  rw [List.length_append]
  exact Nat.succ_pos _

/-- Every option of the grammar lies in the message, before the end tag. -/
theorem located_spec (holds : Holds dmsg place (area items)) (isFound : (found, o) ∈ located items place) :
    Holds dmsg found (Item.bytes (.option o)) ∧ place ≤ found ∧
      found + 2 + o.value.length + 1 ≤ place + (area items).length := by
  induction items generalizing place with
  | nil => cases isFound
  | cons item items inductionHypothesis =>
    cases item with
    | pad =>
      rw [area_pad] at holds ⊢
      have spec := inductionHypothesis (holds_cons.mp holds).2 isFound
      rw [List.length_cons]
      exact ⟨spec.1, by omega, by lia⟩
    | option other =>
      rw [area_option] at holds ⊢
      rw [List.length_append, length_bytes]
      have parts := holds_append.mp holds
      rw [length_bytes, ← Nat.add_assoc] at parts
      rcases List.mem_cons.mp isFound with same | later
      · cases same
        have more := @length_area_pos items
        exact ⟨parts.1, Nat.le_refl _, by lia⟩
      · have spec := inductionHypothesis parts.2 later
        exact ⟨spec.1, by omega, by lia⟩

/-- The walk without single bytes finds the options where pads come in pairs. -/
theorem walk_paired {turns : Nat} (paired : Paired items) (holds : Holds dmsg place (area items))
    (isEnd : eom + 1 = place + (area items).length) (enough : eom ≤ place + turns) :
    (walk (fun _ => false) dmsg eom turns place).filter (fun found => dmsg found ≠ 0) =
      (located items place).map Prod.fst := by
  induction items using Paired.induct generalizing place with
  | case1 =>
    rw [walk_end (by change eom + 1 = place + 1 at isEnd; lia)]
    rfl
  | case2 o items inductionHypothesis =>
    rw [area_option] at holds isEnd
    rw [List.length_append, length_bytes] at isEnd
    have more := @length_area_pos items
    have parts := holds_append.mp holds
    rw [length_bytes, ← Nat.add_assoc] at parts
    obtain ⟨isTag, isLength, _⟩ := option_bytes parts.1
    have next : place + 1 + (o.value.length + 1) = place + 2 + o.value.length := by lia
    have found := inductionHypothesis paired parts.2 (by lia) (by lia)
    rw [walk_step enough (by lia), if_neg (by decide), isLength, next, List.filter_cons_of_pos, found]
    · rfl
    · rw [isTag]
      exact decide_eq_true o.notSingle.1
  | case3 =>
    rw [area_pad] at holds isEnd
    obtain ⟨isPad, rest⟩ := holds_cons.mp holds
    have isEndTag : dmsg (place + 1) = 255 := (holds_cons.mp rest).1
    change eom + 1 = place + 2 at isEnd
    rw [walk_step enough (by omega), if_neg (by decide), isEndTag, walk_end, List.filter_cons_of_neg]
    · rfl
    · rw [isPad]
      decide
    · change eom ≤ place + 1 + (255 + 1)
      lia
  | case4 items inductionHypothesis =>
    rw [area_pad, area_pad] at holds isEnd
    obtain ⟨isPad, rest⟩ := holds_cons.mp holds
    obtain ⟨isSecond, rest⟩ := holds_cons.mp rest
    simp only [List.length_cons] at isEnd
    have more := @length_area_pos items
    have found := inductionHypothesis paired rest (by lia) (by lia)
    rw [walk_step enough (by lia), if_neg (by decide), isSecond, List.filter_cons_of_neg]
    · exact found
    · rw [isPad]
      decide
  | case5 o items => exact paired.elim

/-- Otherwise it leaves out the option behind a single pad. -/
theorem walk_unpaired {turns : Nat} (unpaired : ¬ Paired items) (holds : Holds dmsg place (area items))
    (isEnd : eom + 1 = place + (area items).length) (enough : eom ≤ place + turns) :
    ∃ found ∈ (located items place).map Prod.fst, found ∉ walk (fun _ => false) dmsg eom turns place := by
  induction items using Paired.induct generalizing place with
  | case1 => exact absurd trivial unpaired
  | case2 o items inductionHypothesis =>
    rw [area_option] at holds isEnd
    rw [List.length_append, length_bytes] at isEnd
    have more := @length_area_pos items
    have parts := holds_append.mp holds
    rw [length_bytes, ← Nat.add_assoc] at parts
    obtain ⟨_, isLength, _⟩ := option_bytes parts.1
    have next : place + 1 + (o.value.length + 1) = place + 2 + o.value.length := by omega
    obtain ⟨found, isFound, left⟩ := inductionHypothesis unpaired parts.2 (by omega) (by omega)
    refine ⟨found, List.mem_cons_of_mem _ isFound, ?_⟩
    obtain ⟨⟨_, other⟩, isLocated, rfl⟩ := List.mem_map.mp isFound
    have behind := (located_spec parts.2 isLocated).2.1
    rw [walk_step enough (by lia), if_neg (by decide), isLength, next, List.mem_cons, not_or]
    exact ⟨by dsimp only; lia, left⟩
  | case3 => exact absurd trivial unpaired
  | case4 items inductionHypothesis =>
    rw [area_pad, area_pad] at holds isEnd
    obtain ⟨isPad, rest⟩ := holds_cons.mp holds
    obtain ⟨isSecond, rest⟩ := holds_cons.mp rest
    simp only [List.length_cons] at isEnd
    have more := @length_area_pos items
    obtain ⟨found, isFound, left⟩ := inductionHypothesis unpaired rest (by omega) (by omega)
    refine ⟨found, isFound, ?_⟩
    obtain ⟨⟨_, other⟩, isLocated, rfl⟩ := List.mem_map.mp isFound
    have behind := (located_spec rest isLocated).2.1
    rw [walk_step enough (by lia), if_neg (by decide), isSecond, List.mem_cons, not_or]
    exact ⟨by dsimp only; lia, left⟩
  | case5 o items =>
    rw [area_pad] at holds isEnd
    rw [area_option] at holds isEnd
    obtain ⟨_, rest⟩ := holds_cons.mp holds
    obtain ⟨isTag, _, _⟩ := option_bytes (holds_append.mp rest).1
    have notSingle : o.tag.toNat ≠ 0 := fun zero => o.notSingle.1 (UInt8.toNat_inj.mp zero)
    simp only [List.length_cons, List.length_append, length_bytes] at isEnd
    refine ⟨place + 1, List.mem_cons_self, fun member => ?_⟩
    rw [walk_step enough (by lia), if_neg (by decide), isTag, List.mem_cons] at member
    rcases member with same | later
    · omega
    · have bounds := mem_walk later
      lia

/-- The walk of `dump_dhcp_msg` finds the options with any pads. -/
theorem walk_single {turns : Nat} (holds : Holds dmsg place (area items))
    (isEnd : eom + 1 = place + (area items).length) (enough : eom ≤ place + turns) :
    walk (fun tag => tag = 0 ∨ tag = 255) dmsg eom turns place = (located items place).map Prod.fst := by
  induction items generalizing place with
  | nil =>
    rw [walk_end (by change eom + 1 = place + 1 at isEnd; omega)]
    rfl
  | cons item items inductionHypothesis =>
    have more := @length_area_pos items
    cases item with
    | pad =>
      rw [area_pad] at holds isEnd
      rw [List.length_cons] at isEnd
      obtain ⟨isPad, rest⟩ := holds_cons.mp holds
      rw [walk_step enough (by lia), isPad, if_pos (by decide)]
      exact inductionHypothesis rest (by lia) (by lia)
    | option o =>
      rw [area_option] at holds isEnd
      rw [List.length_append, length_bytes] at isEnd
      have parts := holds_append.mp holds
      rw [length_bytes, ← Nat.add_assoc] at parts
      obtain ⟨isTag, isLength, _⟩ := option_bytes parts.1
      have next : place + 1 + (o.value.length + 1) = place + 2 + o.value.length := by lia
      have notSingle : ¬ decide (o.tag = 0 ∨ o.tag = 255) = true := by
        rw [decide_eq_true_eq, not_or]
        exact o.notSingle
      rw [walk_step enough (by lia), isTag, if_neg notSingle, isLength, next,
        inductionHypothesis parts.2 (by lia) (by lia)]
      rfl

end Walks

section Values

variable {dmsg : Memory} {size place count : Nat} {value : List UInt8} {o : DhcpOption}

/-- A read takes bytes of the value just when the value has them. -/
theorem readAt_eq_iff (holds : Holds dmsg place value) (inside : place + value.length ≤ size) :
    readAt dmsg size place count = some (value.take count) ↔ count ≤ value.length := by
  constructor
  · intro isRead
    unfold readAt at isRead
    split at isRead
    · have length := congrArg List.length (Option.some.inj isRead)
      rw [length_bytesAt, List.length_take] at length
      lia
    · cases isRead
  · intro enough
    unfold readAt
    rw [if_pos (by lia), bytesAt_eq holds enough]

theorem textLength_cases (left : Nat) (place : Nat) :
    (textLength dmsg left place = none ∧ ∀ k < left, dmsg (place + k) ≠ 0) ∨
      ∃ length < left, textLength dmsg left place = some length ∧ dmsg (place + length) = 0 ∧
        ∀ k < length, dmsg (place + k) ≠ 0 := by
  induction left generalizing place with
  | zero => exact Or.inl ⟨rfl, fun k below => absurd below (Nat.not_lt_zero k)⟩
  | succ left inductionHypothesis =>
    unfold textLength
    by_cases isNull : dmsg place = 0
    · rw [if_pos isNull]
      exact Or.inr ⟨0, Nat.succ_pos _, rfl, isNull, fun k below => absurd below (Nat.not_lt_zero k)⟩
    · have first : ∀ k, (∀ j < k, dmsg (place + 1 + j) ≠ 0) → ∀ j < k + 1, dmsg (place + j) ≠ 0 := by
        intro k others j below
        cases j with
        | zero => exact isNull
        | succ j =>
          have other := others j (by omega)
          rwa [Nat.add_assoc, Nat.add_comm 1 j] at other
      rw [if_neg isNull]
      obtain ⟨isNone, others⟩ | ⟨length, below, isSome, null, others⟩ := inductionHypothesis (place + 1)
      · rw [isNone]
        exact Or.inl ⟨rfl, first left others⟩
      · rw [isSome]
        rw [Nat.add_assoc, Nat.add_comm 1 length] at null
        exact Or.inr ⟨length + 1, by omega, rfl, null, first length others⟩

/-- The text before the first null of a value. -/
theorem takeWhile_spec (value : List UInt8) : ∃ length ≤ value.length, value.takeWhile (· ≠ 0) = value.take length ∧
    (∀ k < length, value.getD k 0 ≠ 0) ∧ (length < value.length → value.getD length 0 = 0) ∧
      (0 ∈ value ↔ length < value.length) := by
  induction value with
  | nil => exact ⟨0, Nat.le_refl _, rfl, fun k below => absurd below (Nat.not_lt_zero k), fun less => absurd less (by decide),
      by decide⟩
  | cons byte value inductionHypothesis =>
    by_cases isNull : byte = 0
    · subst isNull
      exact ⟨0, Nat.zero_le _, rfl, fun k below => absurd below (Nat.not_lt_zero k), fun _ => rfl,
        iff_of_true List.mem_cons_self (Nat.succ_pos _)⟩
    · obtain ⟨length, bound, isText, others, null, hasNull⟩ := inductionHypothesis
      refine ⟨length + 1, Nat.succ_le_succ bound, ?_, ?_, ?_, ?_⟩
      · have first : decide (byte ≠ 0) = true := decide_eq_true isNull
        have split_ := @List.takeWhile_cons_of_pos _ (fun byte : UInt8 => decide (byte ≠ 0)) byte value first
        rw [split_, isText, List.take_succ_cons]
      · intro k below
        cases k with
        | zero => exact isNull
        | succ k => exact others k (Nat.lt_of_succ_lt_succ below)
      · exact fun less => null (Nat.lt_of_succ_lt_succ less)
      · rw [List.mem_cons, hasNull, List.length_cons]
        constructor
        · rintro (same | less)
          · exact absurd same.symm isNull
          · omega
        · exact fun less => Or.inr (by omega)

/-- A string is printed as it is just when it ends in its value, or where it is cut off, or right behind it. -/
theorem text_eq_iff (holds : Holds dmsg place value) (inside : place + value.length < size) :
    (textLength dmsg (size - place) place).map (fun length => bytesAt dmsg place (min length 32)) =
        some ((value.takeWhile (· ≠ 0)).take 32) ↔
      (0 ∈ value ∨ 32 ≤ value.length ∨ dmsg (place + value.length) = 0) ∧
        ∃ null, place ≤ null ∧ null < size ∧ dmsg null = 0 := by
  obtain ⟨isNone, others⟩ | ⟨length, below, isSome, null, others⟩ := @textLength_cases dmsg (size - place) place
  · rw [isNone]
    refine iff_of_false (fun same => by cases same) ?_
    rintro ⟨_, null, from_, to_, isNull⟩
    have notNull := others (null - place) (by lia)
    rw [Nat.add_sub_cancel' from_] at notNull
    exact notNull isNull
  · have hasNull : ∃ null, place ≤ null ∧ null < size ∧ dmsg null = 0 := ⟨place + length, by lia, by omega, null⟩
    obtain ⟨textEnd, bound, isText, beforeEnd, atEnd, mem⟩ := takeWhile_spec value
    rw [isSome, Option.map_some, Option.some_inj, and_iff_left hasNull, isText, List.take_take, mem]
    have notBefore : textEnd ≤ length := by
      by_contra less
      exact beforeEnd length (by lia) ((holds length (by lia)).symm.trans null)
    by_cases ends : textEnd < value.length
    · have same : length = textEnd := by
        by_contra differ
        exact others textEnd (by lia) ((holds textEnd ends).trans (atEnd ends))
      rw [same, bytesAt_eq holds (by lia), Nat.min_comm]
      exact iff_of_true rfl (Or.inl ends)
    · have whole : textEnd = value.length := by lia
      have isNull : dmsg (place + value.length) = 0 ↔ length = value.length := by
        constructor
        · intro zero
          by_contra differ
          exact others value.length (by lia) zero
        · rintro rfl
          exact null
      rw [whole, isNull]
      constructor
      · intro same
        have lengths := congrArg List.length same
        rw [length_bytesAt, List.length_take] at lengths
        lia
      · intro condition
        have enough : min length 32 = min 32 value.length := by lia
        rw [enough]
        exact bytesAt_eq holds (by lia)

end Values

section Agreement

variable {dmsg : Memory} {items : List Item} {place : Nat} {o : DhcpOption}

/-- The bytes that are taken or printed of a value are its own. -/
theorem complete_iff (holds : Holds dmsg optAt (area items)) (isFound : (place, o) ∈ located items optAt) :
    readAt dmsg (received items) (place + 2) (takenCount o.tag) = some (o.value.take (takenCount o.tag)) ∧
        shown dmsg (received items) place = some o.shown ↔ Complete dmsg (received items) place o := by
  obtain ⟨bytes, _, inside⟩ := located_spec holds isFound
  obtain ⟨isTag, isLength, isValue⟩ := option_bytes bytes
  have within : place + 2 + o.value.length < received items := inside
  have lengthByte : dmsg (place + 1) = UInt8.ofNat o.value.length := bytes 1 (by rw [length_bytes]; lia)
  have length : (UInt8.ofNat o.value.length).toNat = o.value.length := lengthByte ▸ isLength
  unfold shown DhcpOption.shown
  rw [readAt_eq_iff isValue (Nat.le_of_lt within), isTag, lengthByte]
  by_cases isString : o.tag = 60
  · rw [if_pos isString, if_pos isString, text_eq_iff isValue within]
    have nothing : takenCount o.tag = 0 := by rw [isString]; decide
    have noWord : o.tag ∉ [(1 : UInt8), 3, 50, 51, 54, 58, 59] := by rw [isString]; decide
    have noType : o.tag ≠ 53 := by rw [isString]; decide
    constructor
    · rintro ⟨_, text⟩
      exact ⟨fun isWord => absurd isWord noWord, fun isType => absurd isType noType, fun _ => text⟩
    · rintro ⟨_, _, text⟩
      exact ⟨by rw [nothing]; exact Nat.zero_le _, text isString⟩
  · rw [if_neg isString, if_neg isString, readAt_eq_iff isValue (Nat.le_of_lt within)]
    have quarter : 4 * (o.value.length / 4) ≤ o.value.length := Nat.mul_div_le _ _
    unfold Complete takenCount shownCount
    rw [length]
    simp only [isString, false_implies, and_true, List.mem_cons, List.not_mem_nil, or_false]
    revert quarter
    generalize o.value.length = count
    generalize o.tag = tag
    intro quarter
    by_cases isType : tag = 53
    · subst isType
      simp
    · by_cases isThree : tag = 3
      · subst isThree
        simp [quarter]
      · simp only [isType, isThree, if_false, false_implies, and_true, or_false, false_or]
        by_cases isWord : tag = 1 ∨ tag = 50 ∨ tag = 51 ∨ tag = 54 ∨ tag = 58 ∨ tag = 59
        · rw [if_pos isWord]
          simp only [isWord, forall_const]
          split <;> lia
        · rw [if_neg isWord]
          simp only [isWord, false_implies, iff_true]
          have notOne : tag ≠ 1 := fun same => isWord (Or.inl same)
          rw [if_neg notOne]
          split
          · exact ⟨Nat.zero_le _, quarter⟩
          · split
            · exact ⟨Nat.zero_le _, Nat.le_refl _⟩
            · exact ⟨Nat.zero_le _, Nat.zero_le _⟩

theorem tag_of_located (holds : Holds dmsg optAt (area items)) (isFound : (place, o) ∈ located items optAt) :
    dmsg place = o.tag :=
  (option_bytes (located_spec holds isFound).1).1

/-- The dump shows what is to be printed just when each value is its own. -/
theorem dump_iff (holds : Holds dmsg optAt (area items)) :
    dumpDhcpMsg dmsg (received items) = some ((located items optAt).map fun found => (found.2.tag, found.2.shown)) ↔
      ∀ place o, (place, o) ∈ located items optAt → shown dmsg (received items) place = some o.shown := by
  have walked : walkOptions dmsg (received items) = (located items optAt).map Prod.fst := by
    have more := @length_area_pos items
    exact walk_single holds (by unfold received; lia) (by unfold received; omega)
  have runs : ∀ list : List (Nat × DhcpOption), (∀ place o, (place, o) ∈ list → dmsg place = o.tag) →
      ((list.map Prod.fst).mapM (fun optTmp => (shown dmsg (received items) optTmp).map fun value => (dmsg optTmp, value)) =
          some (list.map fun found => (found.2.tag, found.2.shown)) ↔
        ∀ place o, (place, o) ∈ list → shown dmsg (received items) place = some o.shown) := by
    intro list tags
    induction list with
    | nil => exact iff_of_true rfl fun place o member => absurd member List.not_mem_nil
    | cons first list inductionHypothesis =>
      obtain ⟨firstPlace, firstOption⟩ := first
      have others := inductionHypothesis fun place o member => tags place o (List.mem_cons_of_mem _ member)
      have isTag := tags firstPlace firstOption List.mem_cons_self
      rw [List.map_cons, List.map_cons, List.mapM_cons]
      constructor
      · intro shows
        obtain ⟨head, isHead, shows⟩ := Option.bind_eq_some_iff.mp shows
        obtain ⟨tail, isTail, same⟩ := Option.bind_eq_some_iff.mp shows
        obtain ⟨rfl, rfl⟩ := List.cons.inj (Option.some.inj same)
        obtain ⟨value, isValue, isPair⟩ := Option.map_eq_some_iff.mp isHead
        obtain ⟨_, rfl⟩ := Prod.mk.inj isPair
        intro place o member
        rcases List.mem_cons.mp member with isFirst | later
        · cases isFirst
          exact isValue
        · exact others.mp isTail place o later
      · intro shows
        have isHead := shows firstPlace firstOption List.mem_cons_self
        have isTail := others.mpr fun place o member => shows place o (List.mem_cons_of_mem _ member)
        dsimp only at isHead isTail ⊢
        rw [isHead, isTail, isTag]
        rfl
  unfold dumpDhcpMsg
  rw [walked]
  exact runs _ fun place o => tag_of_located holds

/-- The first option with a tag is found by any walk that finds the options, and pads besides. -/
theorem value_of_loop (holds : Holds dmsg optAt (area items))
    (loop : (walkAll dmsg (received items)).filter (fun place => dmsg place ≠ 0) = (located items optAt).map Prod.fst)
    {key : UInt8} (notPad : key ≠ 0) : getDhcpOptionValue dmsg (received items) key =
      ((located items optAt).find? fun found => found.2.tag = key).map fun found => found.1 + 2 := by
  have filtered : (walkAll dmsg (received items)).find? (fun optTmp => dmsg optTmp = key) =
      ((located items optAt).map Prod.fst).find? fun optTmp => dmsg optTmp = key := by
    rw [← loop, List.find?_filter]
    congr 1
    funext optTmp
    by_cases isKey : dmsg optTmp = key
    · simp [isKey, notPad]
    · simp [isKey]
  have tags : ∀ found ∈ located items optAt, decide (dmsg found.1 = key) = decide (found.2.tag = key) :=
    fun found member => by rw [tag_of_located holds member]
  unfold getDhcpOptionValue
  rw [filtered, List.find?_map]
  have same : (located items optAt).find? ((fun optTmp => decide (dmsg optTmp = key)) ∘ Prod.fst) =
      (located items optAt).find? fun found => found.2.tag = key := by
    revert tags
    generalize located items optAt = list
    intro tags
    induction list with
    | nil => rfl
    | cons first list inductionHypothesis =>
      rw [List.find?_cons, List.find?_cons, Function.comp_apply, tags first List.mem_cons_self,
        inductionHypothesis fun found member => tags found (List.mem_cons_of_mem _ member)]
  rw [same, Option.map_map]
  rfl

theorem foldlM_take_filter (places : List Nat) (t : Taken) (size : Nat) (inside : ∀ place ∈ places, place + 2 ≤ size) :
    places.foldlM (take dmsg size) t = (places.filter fun place => dmsg place ≠ 0).foldlM (take dmsg size) t := by
  induction places generalizing t with
  | nil => rfl
  | cons place places inductionHypothesis =>
    have others := fun t => inductionHypothesis t fun other member => inside other (List.mem_cons_of_mem _ member)
    by_cases isPad : dmsg place = 0
    · have stays : take dmsg size t place = some t := by
        have nothing : takenCount (dmsg place) = 0 := by rw [isPad]; decide
        unfold take readAt
        rw [nothing, Nat.add_zero, if_pos (inside place List.mem_cons_self), isPad]
        rfl
      rw [List.filter_cons_of_neg (by simpa using isPad), List.foldlM_cons, stays]
      exact others t
    · rw [List.filter_cons_of_pos (by simpa using isPad), List.foldlM_cons, List.foldlM_cons]
      exact congrArg _ (funext others)

/-- The loop over options takes the message type from the last option 53. -/
theorem foldlM_take (list : List (Nat × DhcpOption)) (t : Taken) (size : Nat)
    (tags : ∀ place o, (place, o) ∈ list → dmsg place = o.tag)
    (taken : ∀ place o, (place, o) ∈ list →
      readAt dmsg size (place + 2) (takenCount o.tag) = some (o.value.take (takenCount o.tag))) :
    ∃ after, (list.map Prod.fst).foldlM (take dmsg size) t = some after ∧ after.msgtype =
      ((list.filter fun found => found.2.tag = 53).getLast?.map fun found => (found.2.value.headD 0).toNat).getD t.msgtype := by
  induction list generalizing t with
  | nil => exact ⟨t, rfl, rfl⟩
  | cons first list inductionHypothesis =>
    obtain ⟨place, o⟩ := first
    have others := fun t => inductionHypothesis t (fun place o member => tags place o (List.mem_cons_of_mem _ member))
      fun place o member => taken place o (List.mem_cons_of_mem _ member)
    have isTag := tags place o List.mem_cons_self
    have isRead := taken place o List.mem_cons_self
    rw [List.map_cons, List.foldlM_cons]
    unfold take
    dsimp only
    rw [isTag, isRead, Option.map_some]
    by_cases isType : o.tag = 53
    · obtain ⟨after, runs, isAfter⟩ := others { t with msgtype := ((o.value.take (takenCount o.tag)).headD 0).toNat }
      refine ⟨after, by rw [if_pos isType]; exact runs, ?_⟩
      have one : takenCount o.tag = 1 := by rw [isType]; decide
      have sameHead : (o.value.take 1).headD 0 = o.value.headD 0 := by cases o.value <;> rfl
      have front : ((place, o) :: list).filter (fun found => decide (found.2.tag = 53)) =
          (place, o) :: list.filter fun found => decide (found.2.tag = 53) :=
        List.filter_cons_of_pos (decide_eq_true isType)
      rw [isAfter, front, List.getLast?_cons, one, sameHead]
      cases (list.filter fun found => decide (found.2.tag = 53)).getLast? <;> rfl
    · have kept : ∃ next : Taken, next.msgtype = t.msgtype ∧ (if o.tag = 53 then
          { t with msgtype := ((o.value.take (takenCount o.tag)).headD 0).toNat }
          else if o.tag = 1 then { t with addrmask := word (o.value.take (takenCount o.tag)) }
          else if o.tag = 3 then { t with routeraddr := word (o.value.take (takenCount o.tag)) }
          else t) = next := by
        rw [if_neg isType]
        split
        · refine ⟨_, ?_, rfl⟩
          rfl
        · split
          · refine ⟨_, ?_, rfl⟩
            rfl
          · exact ⟨t, rfl, rfl⟩
      obtain ⟨next, isKept, isNext⟩ := kept
      obtain ⟨after, runs, isAfter⟩ := others next
      refine ⟨after, by rw [isNext]; exact runs, ?_⟩
      have front : ((place, o) :: list).filter (fun found => decide (found.2.tag = 53)) =
          list.filter fun found => decide (found.2.tag = 53) :=
        List.filter_cons_of_neg (by simpa using isType)
      rw [isAfter, isKept, front]

/-- The loop of `getlocalip_boot` takes the message type of the grammar. -/
theorem optionLoop_of_loop (holds : Holds dmsg optAt (area items))
    (loop : (walkAll dmsg (received items)).filter (fun place => dmsg place ≠ 0) = (located items optAt).map Prod.fst)
    (taken : ∀ place o, (place, o) ∈ located items optAt →
      readAt dmsg (received items) (place + 2) (takenCount o.tag) = some (o.value.take (takenCount o.tag))) :
    ∃ t, optionLoop dmsg (received items) = some t ∧
      t.msgtype = (((messageType items).bind List.head?).getD 0).toNat := by
  have inside : ∀ place ∈ walkAll dmsg (received items), place + 2 ≤ received items := by
    intro place member
    have bounds := mem_walk member
    omega
  obtain ⟨t, runs, isType⟩ := @foldlM_take dmsg (located items optAt) ⟨0, 0, 0⟩ (received items)
    (fun place o => tag_of_located holds) taken
  refine ⟨t, ?_, ?_⟩
  · unfold optionLoop
    rw [foldlM_take_filter _ _ _ inside, loop, runs]
  · rw [isType]
    unfold messageType
    cases ((located items optAt).filter fun found => decide (found.2.tag = 53)).getLast? with
    | none => rfl
    | some found =>
      change (found.2.value.headD 0).toNat = (found.2.value.head?.getD 0).toNat
      rw [List.headD_eq_head?_getD]

end Agreement

/-- The acknowledgement test agrees with option 53, by the third byte of the option area. -/
def AgreesOnType (dmsg : Memory) (items : List Item) : Prop :=
  (dmsg (optAt + 2) = 5 ∧ (messageType items).bind List.head? ≠ some 2) ↔ messageType items = some [5]

theorem short_type : ([5] : List UInt8).length < 256 := by decide

theorem tag_type : (53 : UInt8) ≠ 0 ∧ (53 : UInt8) ≠ 255 := by decide

/-- The type of an acknowledgement. -/
def typeFive : DhcpOption := ⟨53, [5], tag_type, short_type⟩

/-- A message with an option area. -/
def message (items : List Item) : Memory := fun place => if place < optAt then 0 else (area items).getD (place - optAt) 0

theorem holds_message (items : List Item) : Holds (message items) optAt (area items) := by
  intro k inside
  unfold message
  rw [if_neg (by lia), Nat.add_sub_cancel_left]

end Xinu.DhcpOptions
