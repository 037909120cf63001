import TypedTerms.Fraction.Decimal

/-!
# The shortest decimal text of a double

Of the decimal numbers that round to a given double, the text shows one
with the fewest digits, and of those the nearest to the double's own
value. To find it, the grids of multiples of `10 ^ p` are tried from a
coarse one to finer ones, and the first grid with a point inside the
rounding interval is taken. Only the two grid points next to the value
need a look, because the interval contains the value.

The arithmetic is exact. A double is `m * 2 ^ q`; everything is counted
in quarters of a unit in the last place, `2 ^ (q - 2)`, so that both
ends of the interval are whole numbers.
-/

namespace TypedTerms.Double

/-- A finite nonzero magnitude `significand * 2 ^ exponent`. -/
structure Magnitude where
  significand : Nat
  exponent : Int
  deriving DecidableEq, Repr

/-- The exponent of the least positive double. -/
def minExponent : Int := -1074

/-- The magnitude stored in the low 63 bits of a finite double. A zero
exponent field marks the numbers without the leading bit. -/
def magnitudeOfBits (bits : Nat) : Magnitude :=
  let field : Nat := bits / (1 <<< 52) % (1 <<< 11)
  let low : Nat := bits % (1 <<< 52)
  if field = 0 then ⟨low, minExponent⟩ else ⟨(1 <<< 52) + low, (field : Int) - 1075⟩

namespace Magnitude

/-- The quarters of a unit from the value down to the lower end of its
rounding interval. The doubles below a power of two are twice as dense,
except below the least one with a leading bit. -/
def quartersBelow (x : Magnitude) : Nat :=
  if x.significand = 1 <<< 52 ∧ x.exponent ≠ minExponent then 1 else 2

/-- The ratio of a quarter unit to `10 ^ p`, as numerator and
denominator. -/
def quarterRatio (x : Magnitude) (p : Int) : Nat × Nat :=
  (Nat.pow 10 (-p).toNat <<< (x.exponent - 2).toNat, Nat.pow 10 p.toNat <<< (2 - x.exponent).toNat)

/-- Does `t * 10 ^ p` round to the double? The ends of the interval do
exactly when the significand is even. -/
def admits (x : Magnitude) (p : Int) (t : Nat) : Bool :=
  let (num, den) := x.quarterRatio p
  let low := (4 * x.significand - x.quartersBelow) * num
  let high := (4 * x.significand + 2) * num
  if x.significand % 2 = 0 then low ≤ t * den && t * den ≤ high
  else low < t * den && t * den < high

/-- The multiple of `10 ^ p` to show, if one rounds to the double: the
nearer of the two neighbours, and the upper one of two equally near. -/
def gridPoint? (x : Magnitude) (p : Int) : Option Nat :=
  let (num, den) := x.quarterRatio p
  let below := 4 * x.significand * num / den
  let down := 4 * x.significand * num - below * den
  let up := (below + 1) * den - 4 * x.significand * num
  match x.admits p below, x.admits p (below + 1) with
  | true, true => some (if down < up then below else below + 1)
  | true, false => some below
  | false, true => some (below + 1)
  | false, false => none

/-- A power of ten not below the magnitude, from its binary logarithm. -/
def coarsePower (x : Magnitude) : Int :=
  (x.significand.log2 + 1 + x.exponent) * 30103 / 100000 + 1

/-- Tries the grid of `10 ^ p`, then up to `n` finer ones. The answer is
`t` and the power `p` with the number `t * 10 ^ p` to show. -/
def search (x : Magnitude) : Nat → Int → Nat × Int
  | 0, p => ((x.gridPoint? p).getD 0, p)
  | n + 1, p =>
    match x.gridPoint? p with
    | some t => (t, p)
    | none => x.search n (p - 1)

/-- The fewest digits that read back as the double, and the power of ten
of the last one. Seventeen digits always do, and the first grid tried is
at most two digits too coarse. -/
def shortest (x : Magnitude) : Nat × Int := x.search 20 x.coarsePower

end Magnitude

/-- `t * 10 ^ p` written without an exponent: zeros are filled in up to
the point, on either side of it. -/
def positional (t : Nat) (p : Int) : String :=
  let ds := Nat.toDigits 10 t
  let places := (-p).toNat
  if 0 ≤ p then String.ofList (ds ++ List.replicate p.toNat '0')
  else
    let ds := List.replicate (places + 1 - ds.length) '0' ++ ds
    String.ofList
      (ds.take (ds.length - places) ++ '.' :: ds.drop (ds.length - places))

/-- The shortest decimal text of a double, in positional notation. The
sign is shown on zero and infinity too, and a value that is not a number
has none. -/
def text (x : Float) : String :=
  let bits := x.toBits.toNat
  let magnitude := bits % (1 <<< 63)
  let sign := if bits < 1 <<< 63 then "" else "-"
  if x.isNaN then "NaN"
  else if x.isInf then sign ++ "inf"
  else if magnitude = 0 then sign ++ "0"
  else
    let (t, p) := (magnitudeOfBits magnitude).shortest
    sign ++ positional t p

end TypedTerms.Double

namespace TypedTerms.Fraction

/-- The exact value of the shortest decimal text of a double. Infinities
and values that are not numbers have no such text that reads as a
number. -/
def ofDouble? (x : Float) : Except FractionError Fraction := ofDecimal? (Double.text x)

end TypedTerms.Fraction
