import TypedTerms.Fraction.Order
import TypedTerms.Text.CodePoint

/-!
# Decimal literals

A decimal literal is an optional sign, digits, optionally a point and
more digits, optionally an exponent. It denotes its digits, read as one
integer, times a power of ten: the exponent less the number of digits
after the point. That power is bounded, because the fraction it makes
has as many digits as the power says.
-/

namespace TypedTerms

/-- The parts of a decimal literal, digits kept as characters. -/
structure DecimalLiteral where
  negative : Bool
  whole : List Char
  places : List Char
  exponent : Int
  deriving DecidableEq, Repr

namespace DecimalLiteral

/-- Takes a point and the digits it requires, if a point comes next. -/
def takePlaces? : List Char → Option (List Char × List Char)
  | '.' :: cs => Text.takeDigits? cs
  | cs => some ([], cs)

/-- Takes an exponent mark and the integer it requires, if a mark comes
next. -/
def takeExponent? : List Char → Option (Int × List Char)
  | 'e' :: cs => Text.takeInt? cs
  | 'E' :: cs => Text.takeInt? cs
  | cs => some (0, cs)

/-- The literal that the whole text spells. -/
def read? (cs : List Char) : Option DecimalLiteral := do
  let (negative, cs) := Text.takeSign cs
  let (whole, cs) ← Text.takeDigits? cs
  let (places, cs) ← takePlaces? cs
  let (exponent, cs) ← takeExponent? cs
  if cs.isEmpty then return { negative, whole, places, exponent } else none

/-- The power of ten that scales the digits. -/
def power (l : DecimalLiteral) : Int := l.exponent - l.places.length

/-- All digits as one integer, with the sign. -/
def digits (l : DecimalLiteral) : Int :=
  Text.signed l.negative (Text.digitsValue (l.whole ++ l.places))

/-- The number a literal denotes. -/
def value (l : DecimalLiteral) : Fraction :=
  if l.power ≤ 0 then
    Fraction.reduce l.digits (Int.pow 10 l.power.natAbs) (Int.pow_ne_zero (by decide))
  else
    Fraction.ofInt (l.digits * Int.pow 10 l.power.natAbs)

/-- The greatest power of ten, in absolute value, that is computed. -/
def maxPower : Nat := 100000

end DecimalLiteral

namespace Fraction

/-- Reads a decimal literal. A text that is not one, and one whose power
of ten is out of bounds, are malformed alike. -/
def ofDecimal? (s : String) : Except FractionError Fraction :=
  match DecimalLiteral.read? s.toList with
  | some l =>
    if l.power.natAbs ≤ DecimalLiteral.maxPower then .ok l.value else .error (.malformed s)
  | none => .error (.malformed s)

end Fraction

/-!
## Decimal literals scanned in machine words

`Fraction.ofDecimal?` takes a literal apart character by character and
counts in integers of any size. `Fraction.scanDecimal` goes once over the
bytes of the text in UTF-8, with an index, and keeps the power of ten in
a signed 64-bit word.

A scan can go wrong in two ways that have nothing to do with the grammar:
a word may overflow, and a slice of the text may begin or end inside a
character. Both are outcomes of their own, apart from the refusal of a
text. Where the exponent is read and subtracted an overflow is looked
for, and there it is a refusal.
-/

/-- Why a scan stops without a number. -/
inductive ScanStop where
  | refused (e : FractionError)
  /-- A result does not fit its word. -/
  | overflow
  /-- A slice does not begin and end between characters. -/
  | brokenSlice
  deriving DecidableEq

namespace Word

/-- The number of 64-bit words. -/
def count : Nat := 0x10000000000000000

/-- Does the integer fit a signed 64-bit word? -/
def isSigned (n : Int) : Bool := -0x8000000000000000 ≤ n && n < 0x8000000000000000

/-- The integer as an index, or the length of a slice. -/
def index (n : Int) : Except ScanStop Nat :=
  if 0 ≤ n ∧ n < count then .ok n.toNat else .error .overflow

/-- The signed word with the bits of an index. -/
def reinterpret (n : Nat) : Int := Int.bmod n count

/-- The signed word of the integer, if it fits one. -/
def signed? (n : Int) : Option Int := if isSigned n then some n else none

/-- The negation of a signed word. -/
def negate (n : Int) : Except ScanStop Int :=
  if isSigned (-n) then .ok (-n) else .error .overflow

end Word

namespace ByteScan

/-- Is the byte an ASCII digit? -/
def isDigit (b : UInt8) : Bool := CodePoint.isDigit b.toUInt32

/-- Does a character begin at the index, or the text end there? A byte
inside a character is marked by its two highest bits. -/
def isBoundary (bytes : List UInt8) (i : Nat) : Bool :=
  match bytes[i]? with
  | some b => b < 0x80 || 0xC0 ≤ b
  | none => i == bytes.length

/-- The bytes from one index to another. -/
def slice (bytes : List UInt8) (i j : Nat) : Except ScanStop (List UInt8) :=
  if i ≤ j ∧ isBoundary bytes i ∧ isBoundary bytes j then .ok ((bytes.drop i).take (j - i))
  else .error .brokenSlice

/-- The integer that a slice spells. -/
def readInt? (bytes : List UInt8) : Option Int := Text.readInt? (bytes.map Char.ofUInt8)

/-- The index after the digits that stand at an index. -/
def skipDigits (bytes : List UInt8) (i : Nat) : Except ScanStop Nat :=
  if h : i < bytes.length then
    if isDigit bytes[i] then
      if i + 1 < Word.count then skipDigits bytes (i + 1) else .error .overflow
    else .ok i
  else .ok i
termination_by bytes.length - i

/-- As `skipDigits`, and the text is refused when there are none. -/
def skipNumeral (s : String) (bytes : List UInt8) (i : Nat) : Except ScanStop Nat := do
  let j ← skipDigits bytes i
  if j = i then throw (.refused (.malformed s))
  return j

/-- Whether a minus comes first, and the index after the sign. -/
def scanSign (bytes : List UInt8) : Bool × Nat :=
  if bytes[0]? = some '-'.toUInt8 then (true, 1)
  else if bytes[0]? = some '+'.toUInt8 then (false, 1)
  else (false, 0)

/-- The digits with those after a point added, their number, and the
index after them. -/
def scanPlaces (s : String) (bytes whole : List UInt8) (i : Nat) :
    Except ScanStop (List UInt8 × Int × Nat) :=
  if bytes[i]? = some '.'.toUInt8 then do
    let start ← Word.index (i + 1)
    let stop ← skipNumeral s bytes start
    let places ← slice bytes start stop
    let length ← Word.index ((stop : Int) - start)
    return (whole ++ places, Word.reinterpret length, stop)
  else return (whole, 0, i)

/-- The index after the sign that stands at an index, if one does. -/
def skipSign (bytes : List UInt8) (i : Nat) : Except ScanStop Nat :=
  if bytes[i]? = some '+'.toUInt8 ∨ bytes[i]? = some '-'.toUInt8 then Word.index (i + 1)
  else return i

/-- The scale less the exponent, if there is one, and the index after
it. -/
def scanExponent (s : String) (bytes : List UInt8) (scale : Int) (i : Nat) :
    Except ScanStop (Int × Nat) :=
  if bytes[i]? = some 'e'.toUInt8 ∨ bytes[i]? = some 'E'.toUInt8 then do
    let start ← Word.index (i + 1)
    let digits ← skipSign bytes start
    let stop ← skipNumeral s bytes digits
    let exponent ← slice bytes start stop
    match (readInt? exponent).bind Word.signed? with
    | none => throw (.refused (.malformed s))
    | some e =>
      match Word.signed? (scale - e) with
      | none => throw (.refused (.malformed s))
      | some scale => return (scale, stop)
  else return (scale, i)

/-- The exponent of a power of ten that may be computed, as an unsigned
32-bit word. -/
def checkPower (s : String) (e : Int) : Except ScanStop Nat :=
  if e > DecimalLiteral.maxPower then .error (.refused (.malformed s))
  else if 0 ≤ e ∧ e < 0x100000000 then .ok e.toNat
  else .error (.refused (.malformed s))

/-- The fraction that is an integer over a power of ten, or the integer
times one where the scale is negative. -/
def scaleDown (s : String) (num scale : Int) : Except ScanStop Fraction :=
  if 0 ≤ scale then do
    let k ← checkPower s scale
    return Fraction.reduce num (Int.pow 10 k) (Int.pow_ne_zero (by decide))
  else do
    let k ← checkPower s (← Word.negate scale)
    return Fraction.ofInt (num * Int.pow 10 k)

/-- The number of the literal, whose parts are scanned up to an index. -/
def finish (s : String) (bytes mantissa : List UInt8) (negative : Bool) (scale : Int) (i : Nat) :
    Except ScanStop Fraction :=
  if i = bytes.length then
    match readInt? mantissa with
    | some n => scaleDown s (if negative then -n else n) scale
    | none => throw (.refused (.malformed s))
  else throw (.refused (.malformed s))

end ByteScan

open ByteScan in
/-- Reads a decimal literal in one pass over the bytes of the text. -/
def Fraction.scanDecimal (s : String) : Except ScanStop Fraction := do
  let bytes := s.toByteArray.data.toList
  let (negative, i) := scanSign bytes
  let wholeEnd ← skipNumeral s bytes i
  let whole ← slice bytes i wholeEnd
  let (mantissa, scale, i) ← scanPlaces s bytes whole wholeEnd
  let (scale, i) ← scanExponent s bytes scale i
  finish s bytes mantissa negative scale i

end TypedTerms
