import TimescaleLp.Schema
import Mathlib.Data.List.DropRight
import Mathlib.Data.Rat.Floor

/-!
Python's functions on texts and its conversion of a number of seconds to a date,
as far as the line protocol parser uses them. The value of a floating-point
literal is left to `Numerics`; which texts are literals is defined here.
-/
namespace TimescaleLp.Texts

/-- `c.isspace()` -/
def isSpace (c : Char) : Bool :=
  c.toNat ∈ [0x85, 0xa0, 0x1680, 0x2028, 0x2029, 0x202f, 0x205f, 0x3000] ||
    (9 ≤ c.toNat && c.toNat ≤ 13) || (28 ≤ c.toNat && c.toNat ≤ 32) ||
    (0x2000 ≤ c.toNat && c.toNat ≤ 0x200a)

def strip (s : Str) : Str := (s.dropWhile isSpace).rdropWhile isSpace

/-- The characters at which `splitlines` ends a line. -/
def isLineBreak (c : Char) : Bool :=
  c.toNat ∈ [10, 11, 12, 13, 28, 29, 30, 0x85, 0x2028, 0x2029]

/-- A line feed directly after a carriage return belongs to the same break. -/
def splitlinesLoop : Bool → Str → Str → List Str
  | _, buf, [] => if buf = [] then [] else [buf]
  | afterReturn, buf, c :: s =>
    if c = '\n' ∧ afterReturn then splitlinesLoop false buf s
    else if isLineBreak c then buf :: splitlinesLoop (c == '\r') [] s
    else splitlinesLoop false (buf ++ [c]) s

def splitlines (s : Str) : List Str := splitlinesLoop false [] s

def lower (s : Str) : Str := s.map Char.toLower

/-- The zeros of the decimal digits beyond ASCII. -/
def decimalZeros : List ℕ :=
  [0x660, 0x6f0, 0x7c0, 0x966, 0x9e6, 0xa66, 0xae6, 0xb66, 0xbe6, 0xc66, 0xce6, 0xd66, 0xde6,
    0xe50, 0xed0, 0xf20, 0x1040, 0x1090, 0x17e0, 0x1810, 0x1946, 0x19d0, 0x1a80, 0x1a90, 0x1b50,
    0x1bb0, 0x1c40, 0x1c50, 0xa620, 0xa8d0, 0xa900, 0xa9d0, 0xa9f0, 0xaa50, 0xabf0, 0xff10,
    0x104a0, 0x10d30, 0x11066, 0x110f0, 0x11136, 0x111d0, 0x112f0, 0x11450, 0x114d0, 0x11650,
    0x116c0, 0x11730, 0x118e0, 0x11950, 0x11c50, 0x11d50, 0x11da0, 0x11f50, 0x16a60, 0x16ac0,
    0x16b50, 0x1d7ce, 0x1d7d8, 0x1d7e2, 0x1d7ec, 0x1d7f6, 0x1e140, 0x1e2f0, 0x1e4f0, 0x1e950,
    0x1fbf0]

/-- What `int` and `float` first make of a character. -/
def toAscii (c : Char) : Char :=
  if c.toNat < 127 then c
  else if isSpace c then ' '
  else match decimalZeros.find? (fun z => decide (z ≤ c.toNat ∧ c.toNat < z + 10)) with
    | some z => Char.ofNat (48 + (c.toNat - z))
    | none => '?'

def isAsciiSpace (c : Char) : Bool := c.toNat = 32 || (9 ≤ c.toNat && c.toNat ≤ 13)

/-- A number text in ASCII without the white space around it. -/
def numberText (s : Str) : Str :=
  ((s.map toAscii).dropWhile isAsciiSpace).rdropWhile isAsciiSpace

/-- Digits, with single underscores between them. -/
def digitGroups : Str → Bool
  | [] => false
  | [c] => c.isDigit
  | c :: d :: s => c.isDigit && (if d = '_' then digitGroups s else digitGroups (d :: s))

/-- Python refuses to read numerals of more digits. -/
def maxStrDigits : ℕ := 4300

def readNatural (t : Str) : Option ℕ :=
  if digitGroups t ∧ (t.filter Char.isDigit).length ≤ maxStrDigits then
    some (Nat.ofDigitChars 10 (t.filter Char.isDigit) 0)
  else none

/-- A sign in front of a number text. -/
def splitSign : Str → Bool × Str
  | [] => (false, [])
  | c :: t => if c = '-' then (true, t) else if c = '+' then (false, t) else (false, c :: t)

/-- `int(s)`; `none` is a `ValueError`. -/
def int (s : Str) : Option ℤ :=
  let (negative, t) := splitSign (numberText s)
  (readNatural t).map fun n : ℕ => if negative then -(n : ℤ) else n

/-- Every underscore stands between two digits. -/
def underscoresBetween : Option Char → Str → Bool
  | _, [] => true
  | prev, c :: s =>
    (c ≠ '_' || (prev.any Char.isDigit && s.head?.any Char.isDigit)) && underscoresBetween (some c) s

def isMantissa (m : Str) : Bool :=
  let (a, b) := m.span (fun c => c ≠ '.')
  let digits := a ++ b.drop 1
  digits ≠ [] && digits.all Char.isDigit

def isExponent : Str → Bool
  | [] => true
  | _ :: t => (splitSign t).2 ≠ [] && (splitSign t).2.all Char.isDigit

def isDecimal (t : Str) : Bool :=
  let (m, e) := t.span (fun c => c ≠ 'e' && c ≠ 'E')
  isMantissa m && isExponent e

/-- The texts `float` reads. -/
def isFloat (s : Str) : Bool :=
  let t := (splitSign (numberText s)).2
  ["inf".toList, "infinity".toList, "nan".toList].contains (lower t) ||
    (underscoresBetween none t && isDecimal (t.filter fun c => c ≠ '_'))

/-- `float(s)`; `none` is a `ValueError`. -/
def float {F : Type} [Numerics F] (s : Str) : Option F :=
  if isFloat s then Numerics.ofText s else none

/-- To the nearest integer, halves to the even one. -/
def roundHalfEven (q : ℚ) : ℤ :=
  let f := ⌊q⌋
  if q - f < 1 / 2 then f else if 1 / 2 < q - f then f + 1 else if f % 2 = 0 then f else f + 1

/-- The nearest double with 53 significant bits. -/
def toDouble (q : ℚ) : ℚ :=
  if q = 0 then 0
  else
    let e : ℤ := (Nat.log2 q.num.natAbs : ℤ) - Nat.log2 q.den
    let ulp : ℚ := 2 ^ ((if |q| < 2 ^ e then e - 1 else e) - 52)
    roundHalfEven (q / ulp) * ulp

/-- Why `datetime.fromtimestamp(ns / 1_000_000_000, tz=UTC)` raises. -/
inductive DateError
  | overflowError
  | osError
  | valueError
deriving DecidableEq

/-- A double of seconds in microseconds. The fraction of a second is multiplied
as a double too, then rounded. -/
def roundedMicros (seconds : ℚ) : ℤ :=
  let whole : ℤ := if 0 ≤ seconds then ⌊seconds⌋ else ⌈seconds⌉
  whole * 1000000 + roundHalfEven (toDouble ((seconds - whole) * 1000000))

/-- The years 1 to 9999; beyond them the kind of the exception depends on which
platform type overflows. -/
def dateOfMicros (micros : ℤ) : Except DateError Time :=
  let second := micros / 1000000
  if second < -2 ^ 63 ∨ 2 ^ 63 ≤ second then .error .overflowError
  else if second < -67768040609740800 ∨ 67768036191676799 < second then .error .osError
  else if second < -62135596800 ∨ 253402300800 ≤ second then .error .valueError
  else .ok micros

/-- The date in microseconds. The division has the nearest double as its result. -/
def fromTimestamp (ns : ℤ) : Except DateError Time :=
  dateOfMicros (roundedMicros (toDouble (ns / 1000000000)))

end TimescaleLp.Texts
