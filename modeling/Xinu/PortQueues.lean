import Xinu.Ports

/-!
# What the ports are for

A port is a bounded queue. It gets a limit and is empty when it is made; a message is put in at the
end where the limit leaves room, and taken from the front; and clearing the port takes all messages
away. A clear keeps the low 16 bits of the limit.

Between two clears the messages that were put in are those that were taken out, in the same order,
followed by those in the queue.
-/

namespace Xinu.Ports

/-- A port as a bounded queue. -/
structure Slot where
  limit : Int
  messages : List UInt32

/-- What an effect does to the queues. -/
inductive Happens (slots : Int → Slot) : Effect → (Int → Slot) → Prop where
  | created (portid : Int) (count : Int32) (enough : 0 ≤ count.toInt) :
      Happens slots (.created portid count) (Function.update slots portid ⟨count.toInt, []⟩)
  | sent (portid : Int) (msg : UInt32)
      (room : ((slots portid).messages.length : Int) < (slots portid).limit) :
      Happens slots (.sent portid msg) (Function.update slots portid
        ⟨(slots portid).limit, (slots portid).messages ++ [msg]⟩)
  | received (portid : Int) (msg : UInt32) (rest : List UInt32)
      (first : (slots portid).messages = msg :: rest) :
      Happens slots (.received portid msg) (Function.update slots portid ⟨(slots portid).limit, rest⟩)
  | cleared (portid : Int) :
      Happens slots (.cleared portid (slots portid).messages)
        (Function.update slots portid ⟨(slots portid).limit % 2 ^ 16, []⟩)
  | settled (portid : Int) (newstate : Ptstate) : Happens slots (.settled portid newstate) slots
  | returned (pid : Nat) (value : Int) : Happens slots (.returned pid value) slots

/-- One effect after the other. -/
inductive Happen : (Int → Slot) → List Effect → (Int → Slot) → Prop where
  | nil (slots : Int → Slot) : Happen slots [] slots
  | cons (first middle last : Int → Slot) (effect : Effect) (effects : List Effect)
      (here : Happens first effect middle) (later : Happen middle effects last) :
      Happen first (effect :: effects) last

/-- What was put into a port and taken from it since it was made or cleared, and the count with
which it was made. -/
structure Ledger where
  count : Int
  sent : List UInt32
  received : List UInt32

/-- An effect is noted in the ledger of its port. -/
def note (ledgers : Int → Ledger) : Effect → Int → Ledger
  | .created portid count => Function.update ledgers portid ⟨count.toInt, [], []⟩
  | .sent portid msg =>
    Function.update ledgers portid { ledgers portid with sent := (ledgers portid).sent ++ [msg] }
  | .received portid msg =>
    Function.update ledgers portid { ledgers portid with received := (ledgers portid).received ++ [msg] }
  | .cleared portid _ => Function.update ledgers portid ⟨(ledgers portid).count, [], []⟩
  | .settled _ _ | .returned _ _ => ledgers

/-- The ledgers of a history. -/
def ledgers (history : List Effect) : Int → Ledger := history.foldl note fun _ => ⟨0, [], []⟩

/-- No port has been made. -/
def noSlots : Int → Slot := fun _ => ⟨0, []⟩

section Histories

variable {first middle last : Int → Slot} {effect : Effect} {effects more : List Effect}

theorem Happen.append (here : Happen first effects middle) (later : Happen middle more last) :
    Happen first (effects ++ more) last := by
  induction here with
  | nil slots => exact later
  | cons first middle _ effect effects here _ inductionHypothesis =>
    exact .cons first middle last effect _ here (inductionHypothesis later)

/-- Returning calls change nothing. -/
theorem happen_returned (slots : Int → Slot) (pid : Nat) (value : Int) :
    Happen slots [.returned pid value] slots :=
  .cons slots slots slots _ _ (.returned pid value) (.nil slots)

/-- A ledger accounts for a queue. -/
structure Accounts (ledger : Ledger) (slot : Slot) : Prop where
  sent : ledger.sent = ledger.received ++ slot.messages
  bounded : (slot.messages.length : Int) ≤ slot.limit
  limit : slot.limit = ledger.count ∨ slot.limit = ledger.count % 2 ^ 16
  counted : 0 ≤ ledger.count

theorem Accounts.limit_le {ledger : Ledger} {slot : Slot} (accounts : Accounts ledger slot) :
    slot.limit ≤ ledger.count := by
  have counted := accounts.counted
  rcases accounts.limit with same | low <;> lia

/-- Every effect keeps the accounts. -/
theorem Happens.accounts {books : Int → Ledger} (happens : Happens first effect last)
    (before : ∀ portid, Accounts (books portid) (first portid)) (portid : Int) :
    Accounts (note books effect portid) (last portid) := by
  have elsewhere : ∀ (other : Int) (ledger : Ledger) (slot : Slot), Accounts ledger slot →
      Accounts (Function.update books other ledger portid) (Function.update first other slot portid) := by
    intro other ledger slot here
    rcases eq_or_ne portid other with rfl | apart
    · rw [Function.update_self, Function.update_self]
      exact here
    · rw [Function.update_of_ne apart, Function.update_of_ne apart]
      exact before portid
  cases happens with
  | created port count enough => exact elsewhere port _ _ ⟨rfl, enough, Or.inl rfl, enough⟩
  | sent port msg room =>
    have known := before port
    refine elsewhere port _ _ ⟨?_, ?_, known.limit, known.counted⟩
    · rw [known.sent, List.append_assoc]
    · rw [List.length_append, List.length_singleton]
      push_cast
      omega
  | received port msg rest isFirst =>
    have known := before port
    have sent := known.sent
    have bounded := known.bounded
    rw [isFirst] at sent bounded
    refine elsewhere port _ _ ⟨?_, ?_, known.limit, known.counted⟩
    · rw [sent, List.append_assoc]
      rfl
    · rw [List.length_cons] at bounded
      push_cast at bounded
      dsimp only
      omega
  | cleared port =>
    have known := before port
    have counted := known.counted
    refine elsewhere port _ _ ⟨rfl, ?_, ?_, counted⟩
    · exact Int.emod_nonneg _ (by decide)
    · rcases known.limit with same | low
      · exact Or.inr (by rw [same])
      · exact Or.inr (by rw [low, Int.emod_emod])
  | settled port newstate => exact before portid
  | returned pid value => exact before portid

theorem Happen.accounts {books : Int → Ledger} (happen : Happen first effects last)
    (before : ∀ portid, Accounts (books portid) (first portid)) (portid : Int) :
    Accounts (effects.foldl note books portid) (last portid) := by
  induction happen generalizing books with
  | nil slots => exact before portid
  | cons first middle last effect effects here _ inductionHypothesis =>
    exact inductionHypothesis (here.accounts before)

/-- In every history the messages that were taken out of a port are the first of those that were put
in, and no more than the count with which it was made are left. -/
theorem history_accounts {history : List Effect} (happen : Happen noSlots history last) (portid : Int) :
    Accounts (ledgers history portid) (last portid) :=
  happen.accounts (fun _ => ⟨rfl, le_refl _, Or.inl rfl, le_refl _⟩) portid

end Histories

end Xinu.Ports
