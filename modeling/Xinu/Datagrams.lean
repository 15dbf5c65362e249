import Xinu.CIntegers

/-!
# Received datagrams

What a call of `udp_recv` or `udp_recvaddr` comes to, when the network is left open. A datagram is
stored over the front of the buffer of the caller, as much of it as fits.
-/

namespace Xinu.Datagrams

open CIntegers

/-- What `udp_recv` comes to. -/
inductive Received where
  | timeout
  | syserr
  | datagram (data : List UInt8)

/-- The data of a datagram is stored, as much of it as the buffer holds. -/
def store (buffer : Memory) (len : Nat) (data : List UInt8) : Memory :=
  copy buffer 0 (fun k => data.getD k 0) (min len data.length)

/-- A byte that fits is stored. -/
theorem store_inside (buffer : Memory) {len k : Nat} {data : List UInt8} (fits : k < len)
    (inside : k < data.length) : store buffer len data k = data[k] := by
  have byte := copy_inside buffer (fun k => data.getD k 0) 0 (min len data.length) k (by lia)
  rw [Nat.zero_add] at byte
  exact byte.trans (List.getD_eq_getElem data 0 inside)

end Xinu.Datagrams
