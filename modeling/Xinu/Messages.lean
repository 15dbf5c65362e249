import Xinu.Runs

/-!
# Messages with open scheduling

Every process has room for one message. A process that calls `recvtime` waits until it is sent a
message or its time is over, and goes on at a `point` inside of its call when it runs again. Which
of the processes that can go on does so next is left open, and so is the time after which a clock
tick ends a wait. A process whose time is over can still be sent a message before it runs.
-/

namespace Xinu.Messages

/-- A process outside of all calls, one that waits for a message, and one that can go on. -/
inductive Process (π : Type) where
  | idle
  | waiting (point : π)
  | ready (point : π)
deriving DecidableEq

/-- The processes and the messages that were not yet taken. -/
structure Kernel (π : Type) where
  process : Int → Process π
  prmsg : Int → Option UInt32

/-- `OK`, `SYSERR` and `TIMEOUT`, as messages. -/
def ok : UInt32 := 1

def syserr : UInt32 := 0xFFFFFFFF

def timeout : UInt32 := 0xFFFFFFFD

section Operations

variable {π : Type}

/-- A process that is made ready. -/
def Process.released : Process π → Process π
  | .waiting point => .ready point
  | .idle => .idle
  | .ready point => .ready point

/-- The point of a call at which a process is. -/
def Process.point : Process π → Option π
  | .idle => none
  | .waiting point | .ready point => some point

def Kernel.place (k : Kernel π) (pid : Int) (process : Process π) : Kernel π :=
  { k with process := Function.update k.process pid process }

/-- `send`, whose value its callers here do not use. -/
def send (k : Kernel π) (pid : Int) (msg : UInt32) : Kernel π :=
  if pid < 0 ∨ (k.prmsg pid).isSome then k
  else { k.place pid (k.process pid).released with prmsg := Function.update k.prmsg pid (some msg) }

/-- `recvclr`, whose value its callers here do not use. -/
def recvclr (k : Kernel π) (pid : Int) : Kernel π :=
  { k with prmsg := Function.update k.prmsg pid none }

/-- `recvtime` by a process that would go on at a point: its value if it does not wait. -/
def recvtime (k : Kernel π) (pid : Int) (point : π) (maxwait : Int32) : Option UInt32 × Kernel π :=
  if maxwait < 0 then (some syserr, k)
  else match k.prmsg pid with
    | some msg => (some msg, recvclr k pid)
    | none => (none, k.place pid (.waiting point))

/-- The end of `recvtime` behind its wait. -/
def recvtimeEnd (k : Kernel π) (pid : Int) : UInt32 × Kernel π :=
  ((k.prmsg pid).getD timeout, recvclr (k.place pid .idle) pid)

/-- A clock tick ends the wait of a process. -/
def tick (k : Kernel π) (pid : Int) : Kernel π := k.place pid (k.process pid).released

end Operations

section Laws

variable {π : Type} {k : Kernel π} {pid other : Int} {point : π} {process : Process π} {msg : UInt32}

@[simp] theorem place_self : (k.place pid process).process pid = process := Function.update_self _ _ _

theorem place_of_ne (apart : other ≠ pid) : (k.place pid process).process other = k.process other :=
  Function.update_of_ne apart _ _

@[simp] theorem recvclr_process : (recvclr k pid).process = k.process := rfl

theorem recvclr_of_ne (apart : other ≠ pid) : (recvclr k pid).prmsg other = k.prmsg other :=
  Function.update_of_ne apart _ _

@[simp] theorem recvclr_self : (recvclr k pid).prmsg pid = none := Function.update_self _ _ _

@[simp] theorem point_released (process : Process π) : process.released.point = process.point := by
  cases process <;> rfl

/-- `send` moves no process to another point. -/
theorem send_point (k : Kernel π) (pid : Int) (msg : UInt32) (other : Int) :
    ((send k pid msg).process other).point = (k.process other).point := by
  unfold send
  split
  · rfl
  · rcases eq_or_ne other pid with rfl | apart
    · exact (congrArg Process.point place_self).trans (point_released _)
    · exact congrArg Process.point (place_of_ne apart)

/-- A process without a message gets the message. -/
theorem send_prmsg (nonneg : 0 ≤ pid) (nothing : k.prmsg pid = none) :
    (send k pid msg).prmsg = Function.update k.prmsg pid (some msg) := by
  unfold send
  rw [nothing, if_neg (by simp [nonneg])]

/-- A clock tick moves no process to another point. -/
theorem tick_point (k : Kernel π) (pid other : Int) :
    ((tick k pid).process other).point = (k.process other).point := by
  unfold tick
  rcases eq_or_ne other pid with rfl | apart
  · rw [place_self, point_released]
  · rw [place_of_ne apart]

/-- A process that has cleared its message waits, unless the time is negative. -/
theorem recvtime_cleared (k : Kernel π) (pid : Int) (point : π) (maxwait : Int32) :
    recvtime (recvclr k pid) pid point maxwait = (none, (recvclr k pid).place pid (.waiting point)) ∨
      recvtime (recvclr k pid) pid point maxwait = (some syserr, recvclr k pid) := by
  unfold recvtime
  split
  · exact Or.inr rfl
  · rw [recvclr_self]
    exact Or.inl rfl

/-- A process goes on with the message `OK` just when it was sent this message. -/
theorem recvtimeEnd_ok_iff : (recvtimeEnd k pid).1 = ok ↔ k.prmsg pid = some ok := by
  unfold recvtimeEnd
  cases k.prmsg pid with
  | none => exact iff_of_false (by decide : timeout ≠ ok) (by simp)
  | some msg => simp

end Laws

end Xinu.Messages
