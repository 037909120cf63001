import TypedTerms.Violation

/-!
# Errors of arithmetic

A number that cannot be read and a divisor that is zero are answers, worded
by `FractionError.message`. The operations that answer a number outright
expect a divisor other than zero; a caller who passes zero breaks their
contract.
-/

namespace TypedTerms

def FractionError.message : FractionError → String
  | .divisionByZero => "division by zero"
  | .malformed text => "invalid number format: " ++ Text.quoted text

/-! ## Guarded arithmetic -/

/-- The quotient in a convention, guarded against the zero divisor. -/
def Division.guardedQuotient (c : Division) (a b : Int) : Except Violation Int :=
  if b = 0 then .error .zeroDivisor else .ok (c.quotient a b)

/-- The remainder in a convention, guarded against the zero divisor. -/
def Division.guardedRemainder (c : Division) (a b : Int) : Except Violation Int :=
  if b = 0 then .error .zeroDivisor else .ok (c.remainder a b)

namespace Fraction

/-- The quotient of two fractions, for a divisor that is not zero. -/
def divide (a b : Fraction) : Except Violation Fraction :=
  match divide? a b with
  | .ok q => .ok q
  | .error _ => .error (.zeroQuotient a b)

/-- The integral quotient in a convention, guarded against the zero
divisor. -/
def guardedQuotient (c : Division) (a b : Fraction) : Except Violation Fraction :=
  if b.num = 0 then .error .zeroDivisor else .ok (quotient c a b)

/-- The remainder in a convention, guarded against the zero divisor. -/
def guardedRemainder (c : Division) (a b : Fraction) : Except Violation Fraction :=
  if b.num = 0 then .error .zeroDivisor else .ok (remainder c a b)

end Fraction

end TypedTerms
