import Xinu.Formatting

/-!
# Formatted input

`_doscan` reads characters as a format tells it; `sscanf` takes them from a string, at whose end it finds
`EOF`, and puts back by going one place back. `_innum` reads a number: blanks, a sign and digits. It keeps
the character read last in a `char`, which has no sign on this machine, so that it never finds `EOF` there.

Conversions of strings (`_instr`) are left out and have no result. There is none either where a character is
put back before the string, or where `numbuf` does not hold the digits.
-/

namespace Xinu.Scanning

open Numerals

/-- `EOF`. -/
def eof : Int := -2

/-- A string at the place where it is read: what was passed, the last character first, and what follows. -/
structure Source where
  passed : List UInt8
  rest : List UInt8
deriving DecidableEq

/-- `sgetch`. -/
def sgetch (s : Source) : Int × Source :=
  match s.rest with
  | [] => (eof, s)
  | c :: rest => if c = 0 then (eof, s) else (c.toNat, ⟨c :: s.passed, rest⟩)

/-- `sungetch`. -/
def sungetch (s : Source) : Option Source :=
  match s.passed with
  | [] => none
  | c :: passed => some ⟨passed, c :: s.rest⟩

/-- `SHORT`, `REGULAR` and `LONG`. -/
inductive Size where
  | short
  | regular
  | long
deriving DecidableEq

/-- A number stored through one of the pointers. -/
structure Stored where
  pointer : Nat
  size : Size
  value : Int32
deriving DecidableEq

/-- A character kept in a `char`. -/
def toChar (ch : Int) : UInt8 := UInt8.ofNat (ch % 256).toNat

def isdigit (c : UInt8) : Bool := code '0' ≤ c ∧ c ≤ code '9'

def isupper (c : UInt8) : Bool := code 'A' ≤ c ∧ c ≤ code 'Z'

def isBlank (c : UInt8) : Bool := c = code ' ' ∨ c = 9 ∨ c = 10

/-- `numbuf` has this many places. -/
def numbufSize : Nat := 64

section Numbers

/-- The loop over blanks: the first character that is none. -/
def skipBlanks (passed : List UInt8) : List UInt8 → Int × Source
  | [] => (eof, ⟨passed, []⟩)
  | c :: rest =>
    if c = 0 then (eof, ⟨passed, c :: rest⟩)
    else if isBlank c then skipBlanks (c :: passed) rest
    else (c.toNat, ⟨c :: passed, rest⟩)

/-- The condition under which a character is taken for a digit. -/
def takes (base : UInt8) (c : UInt8) : Bool :=
  (isdigit c || base == 16) && ((code 'a' ≤ c && c ≤ code 'f') || (code 'A' ≤ c && c ≤ code 'F'))

/-- A number with one more digit. -/
def append (base : UInt8) (lcval : Int32) (c : UInt8) : Int32 :=
  let lcval := if base = 8 then lcval <<< 3 else if base = 10 then ((lcval <<< 2) + lcval) <<< 1 else lcval <<< 4
  let digit := if code '0' ≤ c ∧ c ≤ code '9' then c - code '0'
    else if code 'a' ≤ c ∧ c ≤ code 'f' then c - (code 'a' - 10)
    else c - (code 'A' - 10)
  lcval + digit.toUInt32.toInt32

/-- The loop over digits, with the number of characters in `numbuf`. -/
def digits (base : UInt8) : Nat → Int32 → Nat → UInt8 → Source → Option (Int32 × Nat × UInt8 × Source)
  | 0, lcval, np, c, s => some (lcval, np, c, s)
  | len + 1, lcval, np, c, s =>
    if takes base c then
      if np < numbufSize then
        let (next, s) := sgetch s
        digits base len (append base lcval c) (np + 1) (toChar next) s
      else none
    else some (lcval, np, c, s)

/-- `_innum` behind its loop: the number, if there is one to be stored, whether the input has ended, and what
is left of it. -/
def finish (assigns negflg : Bool) (lcval : Int32) (np : Nat) (c : UInt8) (s : Source) :
    Option (Option Int32 × Bool × Source) := do
  let lcval := if negflg then -lcval else lcval
  let ended := decide ((c.toNat : Int) = eof)
  let s ← if ended then some s else sungetch s
  if np = 0 ∨ assigns = false then some (none, ended, s)
  else if np < numbufSize then some (some lcval, ended, s)
  else none

/-- `_innum`. -/
def innum (assigns : Bool) (type : UInt8) (len : Int) (s : Source) : Option (Option Int32 × Bool × Source) :=
  if type = code 'c' ∨ type = code 's' ∨ type = code '[' then none
  else
    let base : UInt8 := if type = code 'o' then 8 else if type = code 'x' then 16 else 10
    let (ch, s) := skipBlanks s.passed s.rest
    let c := toChar ch
    if c = code '-' then
      let (next, s) := sgetch s
      (digits base (len - 1).toNat 0 1 (toChar next) s).bind fun (lcval, np, c, s) => finish assigns true lcval np c s
    else if c = code '+' then
      let (next, s) := sgetch s
      (digits base (len - 1).toNat 0 0 (toChar next) s).bind fun (lcval, np, c, s) => finish assigns false lcval np c s
    else (digits base len.toNat 0 0 c s).bind fun (lcval, np, c, s) => finish assigns false lcval np c s

end Numbers

section Formats

/-- The largest number of characters: the digits of a directive and what follows them. -/
def fieldLength : List UInt8 → Int32 → Int32 × List UInt8
  | [], len => (len, [])
  | c :: fmt, len =>
    if isdigit c then fieldLength fmt (len * 10 + c.toUInt32.toInt32 - 48) else (len, c :: fmt)

/-- What the characters of a format, and its directives, do to the number of matches and to what is stored. -/
def scan : Nat → List UInt8 → Nat → Int → List Stored → Source → Option (Int × List Stored)
  | 0, _, _, _, _, _ => none
  | _ + 1, [], _, nmatch, stored, _ => some (nmatch, stored)
  | turns + 1, ch :: fmt, argp, nmatch, stored, s =>
    let literal (ch : UInt8) (fmt : List UInt8) :=
      let (ch1, s) := sgetch s
      if ch1 = ch.toNat then scan turns fmt argp nmatch stored s
      else if ch1 = eof then some (-1, stored)
      else some (nmatch, stored)
    if ch = 0 then some (nmatch, stored)
    else if ch = code '%' then
      if fmt.head? = some (code '%') then literal (code '%') fmt.tail
      else
        let assigns := decide (fmt.head? ≠ some (code '*'))
        let (len, fmt) := fieldLength (if assigns then fmt else fmt.tail) 0
        let len := if len = 0 then 30000 else len
        let ch := fmt.headD 0
        let (size, fmt) := if ch = code 'l' then (Size.long, fmt.tail) else if ch = code 'h' then (.short, fmt.tail)
          else (.regular, fmt)
        let ch := fmt.headD 0
        let (size, ch) := if isupper ch then (.long, ch + 32) else (size, ch)
        if ch = 0 then some (-1, stored)
        else
          match innum assigns ch len.toInt s with
          | none => none
          | some (number, ended, s) =>
            let (nmatch, stored) := match number with
              | some value => (nmatch + 1, stored ++ [⟨argp, size, value⟩])
              | none => (nmatch, stored)
            let argp := if assigns then argp + 1 else argp
            if ended then some (if nmatch = 0 then -1 else nmatch, stored)
            else scan turns fmt.tail argp nmatch stored s
    else if isBlank ch then
      let (ch1, s) := skipBlanks s.passed s.rest
      if ch1 = eof then scan turns fmt argp nmatch stored s
      else
        match sungetch s with
        | none => none
        | some s => scan turns fmt argp nmatch stored s
    else literal ch fmt

/-- `sscanf`: the number of matches, and what it stores. -/
def sscanf (str fmt : List UInt8) : Option (Int × List Stored) :=
  scan (fmt.length + 1) fmt 0 0 [] ⟨[], str⟩

end Formats

end Xinu.Scanning
