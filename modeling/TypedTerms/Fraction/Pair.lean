import TypedTerms.Fraction.Rounding
import TypedTerms.Fraction.Text

/-!
# Numerator and denominator as they are stored

A `Pair` is any two integers. The functions here calculate with pairs as
the functions on fractions calculate with fractions, but nothing in a
pair says that it is in lowest terms or that its denominator is not zero,
and nothing is asked of the pairs that go in. Only some of the functions
bring their result to lowest terms; the others put two integers together
and rely on what they were given.
-/

namespace TypedTerms

/-- A numerator and a denominator, of which nothing is known. -/
structure Pair where
  num : Int
  den : Int
  deriving DecidableEq, Repr

/-- The two integers that a fraction is stored as. -/
def Fraction.pair (q : Fraction) : Pair := ⟨q.num, q.den⟩

namespace Pair

def ofInt (n : Int) : Pair := ⟨n, 1⟩

/-- `n / d` in lowest terms: both change their sign when the denominator
is negative, and both are divided by a greatest common divisor that is
not one. -/
def normalize (n d : Int) : Pair :=
  let p : Pair := if d < 0 then ⟨-n, -d⟩ else ⟨n, d⟩
  let g : Int := Int.gcd p.num p.den
  if g = 1 then p else ⟨p.num.tdiv g, p.den.tdiv g⟩

/-- As `normalize`, for a denominator that is not zero. -/
def ofRatio? (n d : Int) : Option Pair := if d = 0 then none else some (normalize n d)

/-- The digits of a literal times its power of ten, or over the opposite
one. -/
def ofLiteral (l : DecimalLiteral) : Pair :=
  if l.power ≤ 0 then normalize l.digits (Int.pow 10 l.power.natAbs)
  else ofInt (l.digits * Int.pow 10 l.power.natAbs)

def ofDecimal? (s : String) : Option Pair :=
  (DecimalLiteral.read? s.toList).bind fun l =>
    if l.power.natAbs ≤ DecimalLiteral.maxPower then some (ofLiteral l) else none

def ofText? (s : String) : Option Pair :=
  match s.toList.span (· != '/') with
  | (n, []) => (Text.readInt? n).map ofInt
  | (n, _ :: d) => (Text.readInt? n).bind fun n => (Text.readInt? d).bind (ofRatio? n)

def neg (p : Pair) : Pair := ⟨-p.num, p.den⟩

def add (p q : Pair) : Pair := normalize (p.num * q.den + q.num * p.den) (p.den * q.den)

def sub (p q : Pair) : Pair := normalize (p.num * q.den - q.num * p.den) (p.den * q.den)

def mul (p q : Pair) : Pair := normalize (p.num * q.num) (p.den * q.den)

def divide? (p q : Pair) : Option Pair := ofRatio? (p.num * q.den) (p.den * q.num)

/-- An integer division of the cross products, for a divisor that is not
zero. -/
def divideInt? (f : Int → Int → Int) (p q : Pair) : Option Pair :=
  if p.den * q.num = 0 then none else some (ofInt (f (p.num * q.den) (p.den * q.num)))

end Pair

end TypedTerms
