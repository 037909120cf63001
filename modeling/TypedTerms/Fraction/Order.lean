import TypedTerms.Division

/-!
# Fractions in lowest terms and their order

A `Fraction` is a numerator over a positive denominator that shares no
factor with it, and the type says so: both conditions are fields. Each
number is therefore one value, equality of values is equality of
numbers, and zero is `0/1` only.

`Fraction.reduce` is the one place where a fraction is brought to lowest
terms. What it owes is `reduce_num_mul`: the reduced pair is in the same
ratio as the given one.
-/

namespace TypedTerms

/-- What can go wrong when a fraction is built from outside. -/
inductive FractionError where
  /-- A denominator or a divisor was zero. -/
  | divisionByZero
  /-- The text is not a number; the error carries the whole text. -/
  | malformed (text : String)
  deriving DecidableEq, Repr

/-- An exact number: `num / den` in lowest terms. -/
structure Fraction where
  num : Int
  den : Nat
  den_pos : 0 < den
  coprime : num.natAbs.Coprime den
  deriving DecidableEq

namespace Fraction

/-- Fractions with equal numerators and equal denominators are one; the
conditions on them are no further data. -/
theorem ext_parts {a b : Fraction} (hn : a.num = b.num) (hd : a.den = b.den) : a = b := by
  cases a; cases b; cases hn; cases hd; rfl

instance : Hashable Fraction where
  hash q := mixHash (hash q.num) (hash q.den)

instance : Repr Fraction where
  reprPrec q _ := repr q.num ++ "/" ++ repr q.den

def ofInt (n : Int) : Fraction where
  num := n
  den := 1
  den_pos := Nat.one_pos
  coprime := Nat.coprime_one_right _

def zero : Fraction := ofInt 0

def one : Fraction := ofInt 1

theorem den_ne_zero (q : Fraction) : (q.den : Int) ≠ 0 := by
  have := q.den_pos
  omega

/-- Reducing divides an integer by a common factor, sign moved to the
numerator; the absolute value is the quotient of absolute values. -/
theorem natAbs_sign_mul_ediv {n d : Int} (hd : d ≠ 0) {g : Nat} (hg : g ∣ n.natAbs) :
    (d.sign * n / (g : Int)).natAbs = n.natAbs / g := by
  have hdvd : (g : Int) ∣ d.sign * n := by
    have : (g : Int) ∣ n := Int.ofNat_dvd_left.mpr hg
    exact Int.dvd_trans this (Int.dvd_mul_left _ _)
  rw [Int.natAbs_ediv_of_dvd hdvd, Int.natAbs_mul, Int.natAbs_sign_of_ne_zero hd, Nat.one_mul,
    Int.natAbs_natCast]

/-- `n / d` in lowest terms: the sign goes to the numerator and the
greatest common divisor is divided out. -/
def reduce (n d : Int) (hd : d ≠ 0) : Fraction where
  num := d.sign * n / (Nat.gcd n.natAbs d.natAbs : Int)
  den := d.natAbs / Nat.gcd n.natAbs d.natAbs
  den_pos := by
    have hpos : 0 < d.natAbs := Int.natAbs_pos.mpr hd
    exact Nat.div_pos (Nat.le_of_dvd hpos (Nat.gcd_dvd_right _ _))
      (Nat.gcd_pos_of_pos_right _ hpos)
  coprime := by
    have hpos : 0 < d.natAbs := Int.natAbs_pos.mpr hd
    rw [natAbs_sign_mul_ediv hd (Nat.gcd_dvd_left _ _)]
    exact Nat.coprime_div_gcd_div_gcd (Nat.gcd_pos_of_pos_right _ hpos)

/-- The reduced pair is in the ratio of the given one. -/
theorem reduce_num_mul (n d : Int) (hd : d ≠ 0) :
    (reduce n d hd).num * d = n * (reduce n d hd).den := by
  -- both parts are divided by what they share, and the sign goes to the numerator
  have hg1 : ((Nat.gcd n.natAbs d.natAbs : Nat) : Int) ∣ d.sign * n :=
    Int.dvd_trans (Int.ofNat_dvd_left.mpr (Nat.gcd_dvd_left _ _)) (Int.dvd_mul_left _ _)
  have hg2 : Nat.gcd n.natAbs d.natAbs ∣ d.natAbs := Nat.gcd_dvd_right _ _
  have hpos : 0 < Nat.gcd n.natAbs d.natAbs :=
    Nat.gcd_pos_of_pos_right _ (Int.natAbs_pos.mpr hd)
  obtain ⟨x, hx⟩ := hg1
  obtain ⟨y, hy⟩ := hg2
  have hnum : (reduce n d hd).num = x := by
    simp only [reduce, hx]
    exact Int.mul_ediv_cancel_left _ (by omega)
  have hden : (reduce n d hd).den = y := by
    exact Nat.div_eq_of_eq_mul_right hpos hy
  rw [hnum, hden]
  have hdd : d = d.sign * d.natAbs := (Int.sign_mul_natAbs d).symm
  have hyi : (d.natAbs : Int) = (Nat.gcd n.natAbs d.natAbs : Int) * y := by exact_mod_cast hy
  have hss : d.sign * d.sign = 1 := by
    rcases Int.lt_trichotomy d 0 with h | h | h
    · rw [Int.sign_eq_neg_one_of_neg h]; rfl
    · exact absurd h hd
    · rw [Int.sign_eq_one_of_pos h]; rfl
  calc x * d = x * (d.sign * ((Nat.gcd n.natAbs d.natAbs : Int) * y)) := by rw [← hyi, ← hdd]
    _ = d.sign * ((Nat.gcd n.natAbs d.natAbs : Int) * x) * y := by
        simp only [Int.mul_comm, Int.mul_left_comm]
    _ = d.sign * (d.sign * n) * y := by rw [← hx]
    _ = n * y := by rw [← Int.mul_assoc, hss, Int.one_mul]

/-- The fraction `n / d`, refused when `d` is zero. -/
def ofRatio? (n d : Int) : Except FractionError Fraction :=
  if hd : d = 0 then .error .divisionByZero else .ok (reduce n d hd)

/-- -1, 0 or 1, as the number is negative, zero or positive. -/
def sign (q : Fraction) : Int := q.num.sign

/-- Is the number an integer? -/
def isInteger (q : Fraction) : Bool := q.den == 1

/-! ## Arithmetic -/

theorem den_mul_den_ne_zero (a b : Fraction) : (a.den : Int) * b.den ≠ 0 :=
  Int.mul_ne_zero a.den_ne_zero b.den_ne_zero

/-- The sum, over the product of the denominators and then reduced. -/
def add (a b : Fraction) : Fraction :=
  reduce (a.num * b.den + b.num * a.den) (a.den * b.den) (den_mul_den_ne_zero a b)

/-- The difference, over the product of the denominators and then reduced. -/
def sub (a b : Fraction) : Fraction :=
  reduce (a.num * b.den - b.num * a.den) (a.den * b.den) (den_mul_den_ne_zero a b)

/-- The product, reduced. -/
def mul (a b : Fraction) : Fraction :=
  reduce (a.num * b.num) (a.den * b.den) (den_mul_den_ne_zero a b)

/-- The negation; nothing has to be reduced. -/
def neg (a : Fraction) : Fraction where
  num := -a.num
  den := a.den
  den_pos := a.den_pos
  coprime := by rw [Int.natAbs_neg]; exact a.coprime

instance : Add Fraction := ⟨add⟩
instance : Sub Fraction := ⟨sub⟩
instance : Mul Fraction := ⟨mul⟩
instance : Neg Fraction := ⟨neg⟩

/-- The quotient of the cross products, refused when the divisor is zero. -/
def divide? (a b : Fraction) : Except FractionError Fraction :=
  ofRatio? (a.num * b.den) (a.den * b.num)

end Fraction

end TypedTerms

/-!
## The order of fractions

Denominators are positive, so two fractions compare as their cross
products do.
-/

namespace TypedTerms.Fraction

instance : Ord Fraction where
  compare a b := compare (a.num * b.den) (b.num * a.den)

/-- The greater of the two; the second when they compare equal. -/
def max (a b : Fraction) : Fraction := if compare a b = .gt then a else b

/-- The smaller of the two; the first when they compare equal. -/
def min (a b : Fraction) : Fraction := if compare a b = .gt then b else a

/-- The fractions in ascending order, equal ones in the order given. -/
def sort (qs : List Fraction) : List Fraction :=
  qs.mergeSort fun a b => compare a b != .gt

theorem compare_def (a b : Fraction) :
    compare a b = compare (a.num * b.den) (b.num * a.den) := rfl

end TypedTerms.Fraction
