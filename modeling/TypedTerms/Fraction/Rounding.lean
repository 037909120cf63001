import TypedTerms.Fraction.Order

/-!
# Rounding fractions, and dividing them with remainder

`Rounding` names the four ways to an integer. Floor and truncation are
the integer quotient of numerator and denominator in that convention;
the ceiling is a floored quotient of a shifted numerator; rounding to
the nearest integer floors `(2n + d) / 2d` and steps back from an odd
result exactly at a half, so that halves go to the even neighbour.

A quotient of two fractions in a division convention is the integer
quotient of the cross products. The remainder that goes with it here is
the integer remainder of the same cross products. The two agree with
`a = quotient * b + remainder` on integers; on other fractions the
remainder is scaled by the product of the denominators.
-/

namespace TypedTerms

/-- A way to make an integer of a fraction. -/
inductive Rounding where
  /-- The least integer not below. -/
  | ceiling
  /-- The greatest integer not above. -/
  | floor
  /-- The nearest integer, halves to the even neighbour. -/
  | round
  /-- The next integer toward zero. -/
  | truncate
  deriving DecidableEq, Repr, Hashable

namespace Fraction

/-- The greatest integer not above `q`. -/
def floor (q : Fraction) : Int := Division.floor.quotient q.num q.den

/-- The least integer not below `q`. -/
def ceiling (q : Fraction) : Int := Division.floor.quotient (q.num + q.den - 1) q.den

/-- The next integer from `q` toward zero. -/
def truncate (q : Fraction) : Int := Division.truncate.quotient q.num q.den

/-- The integer nearest to `q`. Only a reduced denominator of two makes
a half, and then the numerator is odd. -/
def round (q : Fraction) : Int :=
  let r := Division.floor.quotient (2 * q.num + q.den) (2 * q.den)
  if q.num % 2 = 1 ∧ q.den = 2 ∧ r % 2 = 1 then r - 1 else r

/-- The integer that a rounding makes of `q`. -/
def toInt : Rounding → Fraction → Int
  | .ceiling => ceiling
  | .floor => floor
  | .round => round
  | .truncate => truncate

/-- The integer quotient of the cross products, as a fraction. -/
def quotient (c : Division) (a b : Fraction) : Fraction :=
  ofInt (c.quotient (a.num * b.den) (a.den * b.num))

/-- The integer remainder of the cross products, as a fraction. -/
def remainder (c : Division) (a b : Fraction) : Fraction :=
  ofInt (c.remainder (a.num * b.den) (a.den * b.num))

end Fraction

end TypedTerms
