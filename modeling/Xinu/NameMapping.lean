import Xinu.CStrings
import Xinu.StoredBytes

/-!
# The namespace

`mount` adds an entry to the name table: a prefix, its replacement and a device. `nammap` is to replace the
first prefix that matches, as long as the device of the entry is the namespace itself. The new name is
never copied back between two rounds, so that every round makes the same substitution. A name of 255
characters has length zero in `namrepl`, where the length is a `char`.
-/

namespace Xinu.NameMapping

open CIntegers StoredBytes

section Source

def syserr : Int := -1

/-- `NM_PRELEN`, `NM_REPLLEN`, `NM_MAXLEN`, `NNAMES` and `NDEVS`. -/
def nmPrelen : Int := 64

def nmRepllen : Int := 96

def nmMaxlen : Int := 256

def nnames : Nat := 40

def ndevs : Int := 13

def isbaddev (device : Int) : Prop := device < 0 ∨ ndevs ≤ device

instance (device : Int) : Decidable (isbaddev device) := inferInstanceAs (Decidable (_ ∨ _))

/-- `struct nmentry`. -/
structure NmEntry where
  nprefix : CString
  nreplace : CString
  ndevice : Int

/-- The loop of `namlen`: the length with the null, where it is found in `left` characters. -/
def namlenLoop : List UInt8 → Nat → Int → Int
  | _, 0, _ => syserr
  | [], _ + 1, i => i + 1
  | _ :: name, left + 1, i => namlenLoop name left (i + 1)

/-- `namlen`. -/
def namlen (name : List UInt8) (maxlen : Int) : Int := namlenLoop name maxlen.toNat 0

/-- The arguments of a call of `mount`. -/
structure MountCall where
  nprefix : CString
  nreplace : CString
  device : Int

/-- `mount`: the table and what is returned, with `OK` as one. -/
def mount (nametab : List NmEntry) (call : MountCall) : List NmEntry × Int :=
  let psiz := namlen call.nprefix.chars nmPrelen
  let rsiz := namlen call.nreplace.chars nmRepllen
  if psiz = syserr ∨ rsiz = syserr ∨ isbaddev call.device ∨ nnames ≤ nametab.length then
    (nametab, syserr)
  else (nametab ++ [⟨call.nprefix, call.nreplace, call.device⟩], 1)

/-- The table after some calls of `mount`. -/
def mounts (calls : List MountCall) : List NmEntry := calls.foldl (fun nametab call => (mount nametab call).1) []

/-- The comparison of a prefix with a name: the length of the prefix and what follows it in the name. -/
def comparePrefix : List UInt8 → List UInt8 → Int → Option (Int × List UInt8)
  | [], optr, plen => some (plen, optr)
  | _ :: _, [], _ => none
  | ch :: pptr, other :: optr, plen => if ch ≠ other then none else comparePrefix pptr optr (plen + 1)

/-- What `namrepl` does with an entry that matches. The length of the name is a `char`. -/
def replacePrefix (namptr : NmEntry) (name : List UInt8) (plen : Int) (optr : List UInt8) (newname : Memory) :
    Int × Memory :=
  let olen := namlen name nmMaxlen % 256
  let rlen := namlen namptr.nreplace.chars nmMaxlen - 1
  let remain := olen - plen
  if rlen + remain > nmMaxlen then (syserr, newname)
  else (namptr.ndevice,
    store newname 0 ((namptr.nreplace.chars ++ [0]).take rlen.toNat ++ (optr ++ [0]).take remain.toNat))

/-- `namrepl` for the entries from some place on. -/
def namrepl : List NmEntry → List UInt8 → Memory → Int × Memory
  | [], _, newname => (syserr, newname)
  | namptr :: rest, name, newname =>
    match comparePrefix namptr.nprefix.chars name 0 with
    | none => namrepl rest name newname
    | some (plen, optr) => replacePrefix namptr name plen optr newname

/-- `namcpy` into a buffer of some length. -/
def namcpy : List UInt8 → Nat → Option (List UInt8)
  | _, 0 => none
  | [], _ + 1 => some []
  | ch :: oldname, buflen + 1 => (namcpy oldname buflen).map (ch :: ·)

/-- The loop of `nammap`. Nothing reads the copy of the new name that it makes before it returns. -/
def nammapLoop (nametab : List NmEntry) (tmpname : List UInt8) (namdev : Int) : Nat → Memory → Int × Memory
  | 0, newname => (syserr, newname)
  | iter + 1, newname =>
    let mapped := namrepl nametab tmpname newname
    if mapped.1 ≠ namdev then mapped else nammapLoop nametab tmpname namdev iter mapped.2

/-- `nammap`: what is returned, and the buffer for the new name. -/
def nammap (nametab : List NmEntry) (name : CString) (newname : Memory) (namdev : Int) : Int × Memory :=
  match namcpy name.chars nmMaxlen.toNat with
  | none => (syserr, newname)
  | some tmpname => nammapLoop nametab tmpname namdev nametab.length newname

end Source

section Substitution

/-- The first entry, in the order of the table, with a prefix of the name. -/
def firstMatch (nametab : List NmEntry) (name : List UInt8) : Option NmEntry :=
  nametab.find? fun namptr => namptr.nprefix.chars.isPrefixOf name

/-- The name with the prefix of an entry replaced. -/
def substituted (namptr : NmEntry) (name : List UInt8) : List UInt8 :=
  namptr.nreplace.chars ++ name.drop namptr.nprefix.chars.length

/-- The prefix of a name is substituted until the device is another one than the namespace. The result is
that device and the name; there is none where no prefix matches, a name does not fit, or the number of
substitutions is used up. -/
def resolve (nametab : List NmEntry) (namdev : Int) : Nat → List UInt8 → Option (Int × List UInt8)
  | 0, _ => none
  | turns + 1, name => (firstMatch nametab name).bind fun namptr =>
    if nmMaxlen < ((substituted namptr name).length : Int) + 1 then none
    else if namptr.ndevice = namdev then resolve nametab namdev turns (substituted namptr name)
    else some (namptr.ndevice, substituted namptr name)

/-- A call returns `SYSERR`, or the device with the name and its null in the buffer. -/
def Delivers (outcome : Option (Int × List UInt8)) (returned : Int × Memory) : Prop :=
  match outcome with
  | none => returned.1 = syserr
  | some (device, final) =>
    returned.1 = device ∧ device ≠ syserr ∧ (final.length : Int) + 1 ≤ nmMaxlen ∧ Holds returned.2 0 (final ++ [0])

/-- `nammap` is iterated substitution, whatever the buffer held before. -/
def MapsByPrefix (nametab : List NmEntry) (name : CString) (namdev : Int) : Prop :=
  ∀ newname, Delivers (resolve nametab namdev nametab.length name.chars) (nammap nametab name newname namdev)

end Substitution

section Lengths

variable {nametab : List NmEntry} {name : List UInt8} {namptr : NmEntry} {newname : Memory} {namdev : Int}

theorem namlenLoop_eq (left : Nat) (i : Int) :
    namlenLoop name left i = if name.length < left then i + name.length + 1 else syserr := by
  induction left generalizing name i with
  | zero =>
    rw [if_neg (Nat.not_lt_zero _)]
    cases name <;> rfl
  | succ left inductionHypothesis =>
    cases name with
    | nil =>
      rw [if_pos (by rw [List.length_nil]; exact Nat.succ_pos left)]
      change i + 1 = i + 0 + 1
      lia
    | cons ch name =>
      change namlenLoop name left (i + 1) = _
      rw [inductionHypothesis, List.length_cons]
      by_cases found : name.length < left
      · rw [if_pos found, if_pos (by omega)]
        lia
      · rw [if_neg found, if_neg (by omega)]

theorem namlen_eq (maxlen : Int) :
    namlen name maxlen = if (name.length : Int) < maxlen then (name.length : Int) + 1 else syserr := by
  unfold namlen
  rw [namlenLoop_eq]
  by_cases found : (name.length : Int) < maxlen
  · rw [if_pos found, if_pos (by omega), Int.zero_add]
  · rw [if_neg found, if_neg (by omega)]

/-- An entry of the table has a device, and its strings fit. -/
structure NmEntry.Fits (namptr : NmEntry) : Prop where
  nprefix : namptr.nprefix.chars.length < 64
  nreplace : namptr.nreplace.chars.length < 96
  device : 0 ≤ namptr.ndevice

theorem fits_mount (call : MountCall) (fit : ∀ namptr ∈ nametab, namptr.Fits) :
    ∀ namptr ∈ (mount nametab call).1, namptr.Fits := by
  unfold mount
  dsimp only
  split
  · exact fit
  · rename_i accepted
    rw [not_or, not_or] at accepted
    obtain ⟨prefixFits, replaceFits, others⟩ := accepted
    intro namptr member
    rcases List.mem_append.mp member with old | new
    · exact fit namptr old
    · rw [List.mem_singleton.mp new]
      rw [namlen_eq] at prefixFits replaceFits
      have prefixBound : nmPrelen = 64 := rfl
      have replaceBound : nmRepllen = 96 := rfl
      have device : 0 ≤ call.device := by
        by_contra negative
        exact others (Or.inl (Or.inl (by omega)))
      refine ⟨?_, ?_, device⟩
      · by_contra long
        have tooLong : 64 ≤ call.nprefix.chars.length := Nat.le_of_not_lt long
        exact prefixFits (if_neg (by lia))
      · by_contra long
        have tooLong : 96 ≤ call.nreplace.chars.length := Nat.le_of_not_lt long
        exact replaceFits (if_neg (by lia))

/-- Every table that was built by calls of `mount` has such entries. -/
theorem fits_mounts (calls : List MountCall) : ∀ namptr ∈ mounts calls, namptr.Fits := by
  have runs : ∀ (calls : List MountCall) (nametab : List NmEntry), (∀ namptr ∈ nametab, namptr.Fits) →
      ∀ namptr ∈ calls.foldl (fun nametab call => (mount nametab call).1) nametab, namptr.Fits := by
    intro calls
    induction calls with
    | nil => exact fun nametab fit => fit
    | cons call calls inductionHypothesis =>
      exact fun nametab fit => inductionHypothesis _ (fits_mount call fit)
  exact runs calls [] fun namptr member => absurd member List.not_mem_nil

end Lengths

section Rounds

variable {nametab : List NmEntry} {name : List UInt8} {namptr : NmEntry} {newname : Memory} {namdev : Int}

theorem comparePrefix_eq (pptr optr : List UInt8) (plen : Int) : comparePrefix pptr optr plen =
    if pptr.isPrefixOf optr then some (plen + pptr.length, optr.drop pptr.length) else none := by
  induction pptr generalizing optr plen with
  | nil => simp [comparePrefix]
  | cons ch pptr inductionHypothesis =>
    cases optr with
    | nil => rfl
    | cons other optr =>
      unfold comparePrefix
      by_cases same : ch = other
      · subst same
        rw [if_neg (by simp), inductionHypothesis, List.isPrefixOf_cons_cons_self, List.length_cons, List.drop_succ_cons]
        split
        · congr 2
          push_cast
          lia
        · rfl
      · rw [if_pos same, if_neg]
        simp [List.isPrefixOf_cons_cons, same]

/-- The search ends with the first entry that matches. -/
theorem namrepl_eq : namrepl nametab name newname =
    match firstMatch nametab name with
    | none => (syserr, newname)
    | some namptr =>
      replacePrefix namptr name namptr.nprefix.chars.length (name.drop namptr.nprefix.chars.length) newname := by
  unfold firstMatch
  induction nametab with
  | nil => rfl
  | cons namptr nametab inductionHypothesis =>
    unfold namrepl
    rw [comparePrefix_eq, List.find?_cons]
    cases matched : namptr.nprefix.chars.isPrefixOf name with
    | true => simp only [if_pos, Int.zero_add]
    | false => exact inductionHypothesis

theorem namcpy_eq {buflen : Nat} (fits : name.length < buflen) : namcpy name buflen = some name := by
  induction name generalizing buflen with
  | nil =>
    cases buflen with
    | zero => exact absurd fits (Nat.not_lt_zero _)
    | succ buflen => rfl
  | cons ch name inductionHypothesis =>
    cases buflen with
    | zero => exact absurd fits (Nat.not_lt_zero _)
    | succ buflen =>
      unfold namcpy
      rw [inductionHypothesis (Nat.lt_of_succ_lt_succ fits)]
      rfl

/-- For a name of at most 254 characters the substitution is the one of the entry. -/
theorem replacePrefix_short (fit : namptr.Fits) (matched : namptr.nprefix.chars.isPrefixOf name = true)
    (short : name.length < 255) :
    replacePrefix namptr name namptr.nprefix.chars.length (name.drop namptr.nprefix.chars.length) newname =
      if nmMaxlen < ((substituted namptr name).length : Int) + 1 then (syserr, newname)
      else (namptr.ndevice, store newname 0 (substituted namptr name ++ [0])) := by
  have maxlen : nmMaxlen = 256 := rfl
  have replaceFits := fit.nreplace
  have isPart : namptr.nprefix.chars.length ≤ name.length :=
    (List.isPrefixOf_iff_prefix.mp matched).length_le
  have olen : namlen name nmMaxlen % 256 = (name.length : Int) + 1 := by
    rw [namlen_eq, if_pos (by omega), Int.emod_eq_of_lt (by lia) (by omega)]
  have rlen : namlen namptr.nreplace.chars nmMaxlen - 1 = namptr.nreplace.chars.length := by
    rw [namlen_eq, if_pos (by omega), Int.add_sub_cancel]
  have newLength : (substituted namptr name).length =
      namptr.nreplace.chars.length + (name.length - namptr.nprefix.chars.length) := by
    unfold substituted
    rw [List.length_append, List.length_drop]
  unfold replacePrefix
  dsimp only
  rw [olen, rlen, newLength]
  by_cases tooLong : nmMaxlen < ((namptr.nreplace.chars.length +
      (name.length - namptr.nprefix.chars.length) : Nat) : Int) + 1
  · rw [if_pos tooLong, if_pos (by lia)]
  · have first : (namptr.nreplace.chars ++ [0]).take (namptr.nreplace.chars.length : Int).toNat =
        namptr.nreplace.chars := by
      rw [Int.toNat_natCast, List.take_left]
    have remain : ((name.length : Int) + 1 - namptr.nprefix.chars.length).toNat =
        (name.drop namptr.nprefix.chars.length ++ [0]).length := by
      rw [List.length_append, List.length_drop, List.length_singleton]
      lia
    rw [if_neg tooLong, if_neg (by lia), first, remain, List.take_length, ← List.append_assoc]
    rfl

/-- For a name of 255 characters, only the replacement is copied. -/
theorem replacePrefix_long (fit : namptr.Fits) (long : name.length = 255) (optr : List UInt8) :
    replacePrefix namptr name namptr.nprefix.chars.length optr newname =
      (namptr.ndevice, store newname 0 namptr.nreplace.chars) := by
  have maxlen : nmMaxlen = 256 := rfl
  have replaceFits := fit.nreplace
  have olen : namlen name nmMaxlen % 256 = 0 := by
    rw [namlen_eq, if_pos (by omega), long]
    rfl
  have rlen : namlen namptr.nreplace.chars nmMaxlen - 1 = namptr.nreplace.chars.length := by
    rw [namlen_eq, if_pos (by omega), Int.add_sub_cancel]
  have nothing : ((0 : Int) - namptr.nprefix.chars.length).toNat = 0 := by lia
  unfold replacePrefix
  dsimp only
  rw [olen, rlen, if_neg (by lia), nothing, Int.toNat_natCast, List.take_left, List.take_zero, List.append_nil]

/-- The device that a round returns does not depend on the buffer. -/
theorem nammapLoop_of_eq (stays : ∀ newname, (namrepl nametab name newname).1 = namdev) (iter : Nat) :
    (nammapLoop nametab name namdev iter newname).1 = syserr := by
  induction iter generalizing newname with
  | zero => rfl
  | succ iter inductionHypothesis =>
    unfold nammapLoop
    dsimp only
    rw [if_neg (not_not_intro (stays newname))]
    exact inductionHypothesis

theorem nammapLoop_of_ne (leaves : (namrepl nametab name newname).1 ≠ namdev) (nonempty : nametab ≠ []) :
    nammapLoop nametab name namdev nametab.length newname = namrepl nametab name newname := by
  obtain ⟨rounds, isLength⟩ : ∃ rounds, nametab.length = rounds + 1 :=
    Nat.exists_eq_succ_of_ne_zero fun none_ => nonempty (List.length_eq_zero_iff.mp none_)
  rw [isLength]
  unfold nammapLoop
  dsimp only
  rw [if_pos leaves]

end Rounds

section Mapping

variable {nametab : List NmEntry} {name : CString} {namptr : NmEntry} {newname : Memory} {namdev : Int}

theorem nammap_eq (inside : (name.chars.length : Int) < nmMaxlen) :
    nammap nametab name newname namdev = nammapLoop nametab name.chars namdev nametab.length newname := by
  have maxlen : nmMaxlen = 256 := rfl
  unfold nammap
  rw [namcpy_eq (by lia)]

theorem isPrefixOf_of_firstMatch (isFirst : firstMatch nametab name.chars = some namptr) :
    namptr.nprefix.chars.isPrefixOf name.chars = true := by
  unfold firstMatch at isFirst
  exact @List.find?_some _ (fun namptr : NmEntry => namptr.nprefix.chars.isPrefixOf name.chars) _ _ isFirst

/-- `SYSERR` stays `SYSERR`, also where the namespace has this number. -/
theorem nammap_of_syserr (inside : (name.chars.length : Int) < nmMaxlen)
    (fails : ∀ newname, (namrepl nametab name.chars newname).1 = syserr) :
    (nammap nametab name newname namdev).1 = syserr := by
  rw [nammap_eq inside]
  by_cases same : syserr = namdev
  · exact nammapLoop_of_eq (fun newname => (fails newname).trans same) _
  · cases nametab with
    | nil => rfl
    | cons first rest =>
      rw [nammapLoop_of_ne (by rw [fails]; exact same) (List.cons_ne_nil _ _), fails]

theorem resolve_of_none (noMatch : firstMatch nametab name.chars = none) (turns : Nat) :
    resolve nametab namdev turns name.chars = none := by
  cases turns with
  | zero => rfl
  | succ turns =>
    unfold resolve
    rw [noMatch]
    rfl

theorem resolve_of_ne (isFirst : firstMatch nametab name.chars = some namptr) (leaves : namptr.ndevice ≠ namdev) :
    resolve nametab namdev nametab.length name.chars =
      if nmMaxlen < ((substituted namptr name.chars).length : Int) + 1 then none
      else some (namptr.ndevice, substituted namptr name.chars) := by
  cases nametab with
  | nil => cases isFirst
  | cons first rest =>
    rw [List.length_cons]
    unfold resolve
    rw [isFirst, Option.bind_some, if_neg leaves]

/-- No name is mapped from the namespace to itself and then out of it. -/
theorem nammap_of_namdev (fit : namptr.Fits) (inside : (name.chars.length : Int) < nmMaxlen)
    (isFirst : firstMatch nametab name.chars = some namptr) (stays : namptr.ndevice = namdev) :
    (nammap nametab name newname namdev).1 = syserr := by
  have maxlen : nmMaxlen = 256 := rfl
  have matched := isPrefixOf_of_firstMatch isFirst
  have round : ∀ newname, namrepl nametab name.chars newname = replacePrefix namptr name.chars
      namptr.nprefix.chars.length (name.chars.drop namptr.nprefix.chars.length) newname := by
    intro newname
    rw [namrepl_eq, isFirst]
  by_cases short : name.chars.length < 255
  · by_cases tooLong : nmMaxlen < ((substituted namptr name.chars).length : Int) + 1
    · apply nammap_of_syserr inside
      intro newname
      rw [round, replacePrefix_short fit matched short, if_pos tooLong]
    · rw [nammap_eq inside]
      apply nammapLoop_of_eq
      intro newname
      rw [round, replacePrefix_short fit matched short, if_neg tooLong]
      exact stays
  · rw [nammap_eq inside]
    apply nammapLoop_of_eq
    intro newname
    rw [round, replacePrefix_long fit (by lia)]
    exact stays

/-- The new name is right where it is found in one round, and the length of the name is a `char`. -/
theorem mapsByPrefix_of_short (fit : namptr.Fits) (short : name.chars.length < 255)
    (isFirst : firstMatch nametab name.chars = some namptr) (leaves : namptr.ndevice ≠ namdev) :
    MapsByPrefix nametab name namdev := by
  have maxlen : nmMaxlen = 256 := rfl
  have device := fit.device
  have matched := isPrefixOf_of_firstMatch isFirst
  have nonempty : nametab ≠ [] := List.ne_nil_of_mem (List.mem_of_find?_eq_some isFirst)
  have round : ∀ newname, namrepl nametab name.chars newname =
      if nmMaxlen < ((substituted namptr name.chars).length : Int) + 1 then (syserr, newname)
      else (namptr.ndevice, store newname 0 (substituted namptr name.chars ++ [0])) := by
    intro newname
    rw [namrepl_eq, isFirst]
    exact replacePrefix_short fit matched short
  intro newname
  rw [resolve_of_ne isFirst leaves]
  by_cases tooLong : nmMaxlen < ((substituted namptr name.chars).length : Int) + 1
  · rw [if_pos tooLong]
    apply nammap_of_syserr (by omega)
    intro newname
    rw [round, if_pos tooLong]
  · have isRound := round newname
    rw [if_neg tooLong] at isRound ⊢
    have mapped : nammap nametab name newname namdev =
        (namptr.ndevice, store newname 0 (substituted namptr name.chars ++ [0])) := by
      rw [nammap_eq (by omega), nammapLoop_of_ne (by rw [isRound]; exact leaves) nonempty, isRound]
    rw [mapped]
    exact ⟨rfl, fun error => absurd (error ▸ device) (by decide), by lia, holds_store⟩

/-- No null is written behind the replacement of a prefix of 255 characters. -/
theorem not_mapsByPrefix_of_long (fit : namptr.Fits) (long : name.chars.length = 255)
    (isFirst : firstMatch nametab name.chars = some namptr) (leaves : namptr.ndevice ≠ namdev) :
    ¬ MapsByPrefix nametab name namdev := by
  intro maps
  have maxlen : nmMaxlen = 256 := rfl
  have device := fit.device
  have prefixFits := fit.nprefix
  have nonempty : nametab ≠ [] := List.ne_nil_of_mem (List.mem_of_find?_eq_some isFirst)
  have isRound : ∀ newname, namrepl nametab name.chars newname =
      (namptr.ndevice, store newname 0 namptr.nreplace.chars) := by
    intro newname
    rw [namrepl_eq, isFirst]
    exact replacePrefix_long fit long _
  have delivered := maps fun _ => 1
  rw [nammap_eq (by omega), nammapLoop_of_ne (by rw [isRound]; exact leaves) nonempty, isRound,
    resolve_of_ne isFirst leaves] at delivered
  by_cases tooLong : nmMaxlen < ((substituted namptr name.chars).length : Int) + 1
  · rw [if_pos tooLong] at delivered
    have isError : namptr.ndevice = -1 := delivered
    omega
  · rw [if_neg tooLong] at delivered
    obtain ⟨_, _, _, holds⟩ := delivered
    have newLength : (substituted namptr name.chars).length =
        namptr.nreplace.chars.length + (255 - namptr.nprefix.chars.length) := by
      unfold substituted
      rw [List.length_append, List.length_drop, long]
    have null := (holds_append.mp holds).2 0 Nat.one_pos
    have kept : store (fun _ => 1) 0 namptr.nreplace.chars (0 + (substituted namptr name.chars).length + 0) = 1 :=
      store_outside (Or.inr (by lia))
    exact absurd (kept.symm.trans null) (by decide)

end Mapping

/-- A name is mapped by iterated substitution just when its first prefix leads out of the namespace, and the
name has less than 255 characters, or when no substitutions lead out of it. -/
theorem names_are_mapped_iff (calls : List MountCall) (name : CString) (namdev : Int)
    (inside : (name.chars.length : Int) ≤ nmMaxlen - 1) :
    MapsByPrefix (mounts calls) name namdev ↔
      ∀ namptr, firstMatch (mounts calls) name.chars = some namptr →
        (namptr.ndevice ≠ namdev → name.chars.length < 255) ∧
        (namptr.ndevice = namdev → resolve (mounts calls) namdev (mounts calls).length name.chars = none) := by
  have maxlen : nmMaxlen = 256 := rfl
  have below : (name.chars.length : Int) < nmMaxlen := by omega
  cases isFirst : firstMatch (mounts calls) name.chars with
  | none =>
    refine iff_of_true ?_ (fun namptr other => by cases other)
    intro newname
    rw [resolve_of_none isFirst]
    apply nammap_of_syserr below
    intro newname
    rw [namrepl_eq, isFirst]
  | some namptr =>
    have fit : namptr.Fits := fits_mounts calls namptr (List.mem_of_find?_eq_some isFirst)
    by_cases stays : namptr.ndevice = namdev
    · have fails : ∀ newname, (nammap (mounts calls) name newname namdev).1 = syserr :=
        fun newname => nammap_of_namdev fit below isFirst stays
      constructor
      · intro maps other isOther
        cases isOther
        refine ⟨fun leaves => absurd stays leaves, fun _ => ?_⟩
        have delivered := maps fun _ => 0
        cases outcome : resolve (mounts calls) namdev (mounts calls).length name.chars with
        | none => rfl
        | some found =>
          rw [outcome] at delivered
          obtain ⟨isDevice, isValid, _⟩ := delivered
          exact absurd (isDevice.symm.trans (fails _)) isValid
      · intro condition newname
        rw [(condition namptr rfl).2 stays]
        exact fails newname
    · by_cases short : name.chars.length < 255
      · refine iff_of_true (mapsByPrefix_of_short fit short isFirst stays) ?_
        intro other isOther
        cases isOther
        exact ⟨fun _ => short, fun same => absurd same stays⟩
      · refine iff_of_false (not_mapsByPrefix_of_long fit (by lia) isFirst stays) ?_
        exact fun condition => short ((condition namptr rfl).1 stays)

theorem noNull_nil : (0 : UInt8) ∉ [] := List.not_mem_nil

theorem noNull_a : (0 : UInt8) ∉ [97] := by decide

theorem noNull_b : (0 : UInt8) ∉ [98] := by decide

/-- Two names. -/
def nameA : CString := ⟨[97], noNull_a⟩

def nameB : CString := ⟨[98], noNull_b⟩

/-- The first name is replaced by the second in the namespace, and the second names the console. -/
def aliases : List MountCall := [⟨nameA, nameB, 2⟩, ⟨nameB, ⟨[], noNull_nil⟩, 0⟩]

/-- The name of the console is mapped. -/
theorem console_is_mapped : MapsByPrefix (mounts aliases) nameB 2 := by
  refine (names_are_mapped_iff aliases nameB 2 (by decide)).mpr fun namptr isFirst => ?_
  have second : firstMatch (mounts aliases) nameB.chars = some ⟨nameB, ⟨[], noNull_nil⟩, 0⟩ := rfl
  obtain rfl := Option.some.inj (second.symm.trans isFirst)
  exact ⟨fun _ => by decide, fun same => absurd same (by decide)⟩

/-- The other name is not, as its replacement is not looked at. -/
theorem alias_is_not_mapped : ¬ MapsByPrefix (mounts aliases) nameA 2 := by
  intro maps
  obtain ⟨isConsole, _⟩ : Delivers (some (0, [])) (nammap (mounts aliases) nameA (fun _ => 0) 2) := maps fun _ => 0
  have error : (nammap (mounts aliases) nameA (fun _ => 0) 2).1 = syserr := rfl
  exact absurd (isConsole.symm.trans error) (by decide)

end Xinu.NameMapping
