import Xinu.Numerals

/-!
# Formatted output

`_fdoprnt` walks along a format and puts out its characters, except that each directive stands for an
argument: a minus sign to put blanks or zeros behind and not in front, a zero to fill with zeros, a least
and a largest number of characters, and the letter of a conversion. `_doprnt` is the same with two more
conversions. Numbers are converted in an array of their own and copied to the 20 bytes of `string`.

A `long` is a word, and sums of words wrap around. What `string` held before is some text. There is no
result where a conversion writes behind `string`, where its text has no end, and where an argument is
missing or of another kind.
-/

namespace Xinu.Formatting

open Numerals

/-- A word, or a pointer to a string, which may be `NULL`. -/
inductive Argument where
  | word (value : Int32)
  | text (string : Option (List UInt8))
deriving DecidableEq

/-- `_fdoprnt` or `_doprnt`. -/
inductive Printer where
  | fdoprnt
  | doprnt
deriving DecidableEq

/-- `MAXSTR`. -/
def maxstr : Int := 80

/-- A word kept in a `char`. -/
def toChar (value : Int32) : UInt8 := value.toUInt32.toUInt8

/-- `string`, some text written from one of its places on. -/
def write (string : List UInt8) (place : Nat) (text : List UInt8) : Option (List UInt8) :=
  if place + text.length ≤ string.length then
    some (string.take place ++ text ++ string.drop (place + text.length))
  else none

/-- The text in front of the first null. -/
def cstring (string : List UInt8) : Option (List UInt8) :=
  if 0 ∈ string then some (string.takeWhile (· ≠ 0)) else none

section Conversions

/-- The loop that fills `temp`. -/
def fill (digit : Int32 → UInt8) (next : Int32 → Int32) : Nat → Int32 → List UInt8
  | 0, _ => []
  | count + 1, num => digit num :: fill digit next count (next num)

/-- The highest place of `temp` without a zero. In front of the digits is a null. -/
def top (temp : List UInt8) : Nat → Nat
  | 0 => 0
  | i + 1 => if temp.getD (i + 1) 0 = code '0' then top temp i else i + 1

/-- The digits of a number as they are copied, with the null. -/
def prtl (digits : List UInt8) : List UInt8 :=
  let temp := 0 :: digits
  let i := top temp digits.length
  let i := if i = 0 then 1 else i
  (temp.take (i + 1)).reverse

/-- `_prtl10`. -/
def prtl10 (num : Int32) : List UInt8 :=
  prtl (fill (fun num => toChar (num % 10 + 48)) (fun num => num / 10) 10 num)

/-- `_prtl8`. Of the last digit two bits are left. -/
def prtl8 (num : Int32) : List UInt8 :=
  prtl ((fill (fun num => toChar ((num &&& 7) + 48)) (fun num => num >>> 3) 11 num).modify 10 (· &&& code '3'))

/-- `_prtl16`. -/
def prtl16 (num : Int32) : List UInt8 :=
  prtl (fill (fun num => glyph (num &&& 0x0F).toNatClampNeg) (fun num => num >>> 4) 8 num)

/-- `_prtX16`. -/
def prtX16 (num : Int32) : List UInt8 :=
  prtl (fill (fun num => capitalGlyph (num &&& 0x0F).toNatClampNeg) (fun num => num >>> 4) 8 num)

/-- `_prtl2`. -/
def prtl2 (num : Int32) : List UInt8 :=
  prtl (fill (fun num => if num % 2 = 0 then code '0' else code '1') (fun num => num >>> 1) 32 num)

/-- The loop of `%u`: a thousand million is taken off until the word is positive. -/
def lessen : Nat → Int32 → UInt8 → Int32 × UInt8
  | 0, larg, digit1 => (larg, digit1)
  | turns + 1, larg, digit1 =>
    if larg < 0 then lessen turns (larg - 1000000000) (digit1 + 1) else (larg, digit1)

/-- `%u`: what was taken off is added to the first digit. -/
def unsignedText (larg : Int32) : List UInt8 :=
  let (larg, digit1) := lessen 3 larg 0
  match prtl10 larg with
  | [] => []
  | first :: rest => (first + digit1) :: rest

end Conversions

/-- What stands between the `%` and the letter of a conversion. -/
structure Directive where
  leftjust : Bool
  zero : Bool
  fmin : Int32
  fmax : Int32
deriving DecidableEq

/-- A text to be put out, with its sign, and how it is filled and cut. -/
structure Conversion where
  sign : Bool
  str : List UInt8
  zero : Bool
  fmax : Int32

section Directives

/-- The digits of a field. -/
def number : List UInt8 → Int32 → Int32 × List UInt8
  | [], value => (value, [])
  | c :: fmt, value =>
    if code '0' ≤ c ∧ c ≤ code '9' then number fmt (value * 10 + c.toUInt32.toInt32 - 48) else (value, c :: fmt)

/-- A field: digits, or a star for an argument. -/
def field (fmt : List UInt8) (args : List Argument) : Option (Int32 × List UInt8 × List Argument) :=
  if fmt.head? = some (code '*') then
    match args with
    | .word value :: args => some (value, fmt.tail, args)
    | _ => none
  else
    let (value, fmt) := number fmt 0
    some (value, fmt, args)

/-- The field behind a point. -/
def maximum (fmt : List UInt8) (args : List Argument) : Option (Int32 × List UInt8 × List Argument) :=
  if fmt.head? = some (code '.') then field fmt.tail args else some (0, fmt, args)

/-- The directive behind a `%`, with what follows it. -/
def parse (fmt : List UInt8) (args : List Argument) : Option (Directive × List UInt8 × List Argument) := do
  let leftjust := decide (fmt.head? = some (code '-'))
  let fmt := if leftjust then fmt.tail else fmt
  let zero := decide (fmt.head? = some (code '0'))
  let fmt := if zero then fmt.tail else fmt
  let (fmin, fmt, args) ← field fmt args
  let (fmax, fmt, args) ← maximum fmt args
  some (⟨leftjust, zero, fmin, fmax⟩, fmt, args)

/-- A conversion of a word, through `string`. -/
def viaString (d : Directive) (sign : Bool) (fmax : Int32) (string text : List UInt8) :
    Option (Conversion × List UInt8) := do
  let string ← write string 0 text
  let str ← cstring string
  some (⟨sign, str, d.zero, fmax⟩, string)

/-- Two words one behind the other. -/
def pair (d : Directive) (string first second : List UInt8) : Option (Conversion × List UInt8) := do
  let string ← write string 0 first
  let string ← write string 8 second
  let str ← cstring string
  some (⟨false, str, d.zero, 0⟩, string)

/-- The letter of a conversion, what it puts out by itself, and the conversion. -/
def convert (printer : Printer) (d : Directive) (f : UInt8) (args : List Argument) (string : List UInt8) :
    Option (List UInt8 × Conversion × List Argument × List UInt8) :=
  let word (text : Int32 → Option (Conversion × List UInt8)) :=
    match args with
    | .word larg :: args => (text larg).map fun (conversion, string) => ([], conversion, args, string)
    | _ => none
  let double (text : Int32 → List UInt8) :=
    match args with
    | .word first :: .word second :: args =>
      (pair d string (text first) (text second)).map fun (conversion, string) => ([], conversion, args, string)
    | _ => none
  if f = code 'c' then word fun larg => viaString { d with zero := false } false 0 string [toChar larg, 0]
  else if f = code 's' then
    match args with
    | .text str :: args =>
      some ([], ⟨false, str.getD ("(null)".toList.map code), false, d.fmax⟩, args, string)
    | _ => none
  else if f = code 'd' then
    word fun larg => viaString d (decide (larg < 0)) d.fmax string (prtl10 (if larg < 0 then -larg else larg))
  else if f = code 'u' then word fun larg => viaString d false 0 string (unsignedText larg)
  else if f = code 'o' then word fun larg => viaString d false 0 string (prtl8 larg)
  else if f = code 'X' then word fun larg => viaString d false 0 string (prtX16 larg)
  else if f = code 'x' then word fun larg => viaString d false 0 string (prtl16 larg)
  else if f = code 'H' ∧ printer = .doprnt then double prtX16
  else if f = code 'h' ∧ printer = .doprnt then double prtl16
  else if f = code 'b' then word fun larg => viaString d false 0 string (prtl2 larg)
  else (cstring string).map fun str => ([f], ⟨false, str, d.zero, d.fmax⟩, args, string)

/-- A field that is too large, or negative, is none. -/
def limit (field : Int32) : Int := if maxstr < field.toInt ∨ field.toInt < 0 then 0 else field.toInt

/-- The converted text, filled and cut. -/
def pad (d : Directive) (conversion : Conversion) : List UInt8 :=
  let fmin := limit d.fmin
  let fmax := limit conversion.fmax
  let length := if fmax ≠ 0 ∧ fmax < conversion.str.length then fmax.toNat else conversion.str.length
  let leading := if fmin ≠ 0 then fmin - length else 0
  let leading := if (fmax ≠ 0 ∨ fmin ≠ 0) ∧ conversion.sign then leading - 1 else leading
  let filling := List.replicate leading.toNat (if conversion.zero then code '0' else code ' ')
  (if conversion.sign ∧ conversion.zero then [code '-'] else []) ++ (if d.leftjust then [] else filling) ++
    (if conversion.sign ∧ ¬ conversion.zero then [code '-'] else []) ++ conversion.str.take length ++
    (if d.leftjust then filling else [])

end Directives

/-- The characters of a format and its directives, one after the other. -/
def print (printer : Printer) : Nat → List UInt8 → List Argument → List UInt8 → Option (List UInt8)
  | 0, _, _, _ => none
  | _ + 1, [], _, _ => some []
  | turns + 1, c :: fmt, args, string =>
    if c ≠ code '%' then
      if c = 0 then some [] else (print printer turns fmt args string).map (c :: ·)
    else if fmt.head? = some (code '%') then (print printer turns fmt.tail args string).map (code '%' :: ·)
    else do
      let (d, fmt, args) ← parse fmt args
      match fmt with
      | [] => some [code '%']
      | f :: fmt =>
        if f = 0 then some [code '%']
        else do
          let (echoed, conversion, args, string) ← convert printer d f args string
          (print printer turns fmt args string).map (echoed ++ pad d conversion ++ ·)

/-- What `_fdoprnt` or `_doprnt` puts out. -/
def doprnt (printer : Printer) (fmt : List UInt8) (args : List Argument) (string : List UInt8) :
    Option (List UInt8) := print printer (fmt.length + 1) fmt args string

/-- `sprintf`, without the null behind the text. -/
def sprintf (fmt : List UInt8) (args : List Argument) (string : List UInt8) : Option (List UInt8) :=
  doprnt .fdoprnt fmt args string

end Xinu.Formatting
