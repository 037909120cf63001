import TypedTerms.Term.Node
import TypedTerms.Fraction.Text

/-!
# Broken contracts

Operations on numbers, types and terms expect something of their
caller: a divisor that is not zero, a term that the store knows, a child
that exists. A `Violation` says which expectation was not met, and
`Violation.message` words it. It is no answer about the term; a term
that is merely ill typed gets a `TypeError`.
-/

namespace TypedTerms

/-- An expectation that the caller did not meet. -/
inductive Violation where
  | zeroDivisor
  | zeroQuotient (dividend divisor : Fraction)
  | noElement (ty : Ty) (place : Nat)
  | fractionOfType (ty : Ty)
  | notOperator (tag : LeafTag)
  | noChildren (op : Operator)
  | noChild (tag : Tag) (place : Nat)
  | unknownTerm (t : TermId)
  | callHead (tag : Tag)
  | noArguments
  | leafWithChildren
  /-- A substitution binds the leaf to itself. -/
  | selfBound (t : TermId)
  /-- The walk does not end: the term, or the term together with the
  bindings it is read through, contains itself. -/
  | endless
  deriving DecidableEq

namespace Violation

def message : Violation → String
  | .zeroDivisor => "attempt to divide by zero"
  | .zeroQuotient x y => x.text ++ " / " ++ y.text ++ ": division by zero"
  | .noElement ty i => "type " ++ ty.text ++ " has no element " ++ toString i
  | .fractionOfType ty => "rational literal of type " ++ ty.text
  | .notOperator tag => tag.name ++ " is not a compound tag"
  | .noChildren op => op.name ++ " with no children"
  | .noChild tag i => tag.name ++ ": no child " ++ toString i
  | .unknownTerm t => "unknown term id " ++ t.text
  | .callHead tag => "Call head " ++ tag.name ++ " is not a function"
  | .noArguments => "calls need arguments; use a GlobalVar"
  | .leafWithChildren => "assertion failed: children.is_empty()"
  | .selfBound t => t.text ++ " is bound to itself"
  | .endless => "the term contains itself"

end Violation

/-- The element type at a place. -/
def Ty.element (t : Ty) (i : Nat) : Except Violation Ty :=
  match t.elements[i]? with
  | some e => .ok e
  | none => .error (.noElement t i)

end TypedTerms
