import TypedTerms.Term.Map
import TypedTerms.Typing.Check

/-!
# Constant folding

Folding computes what can be computed from literals. `Build.simplify`
works bottom up: the children are simplified, the node is rebuilt over
them, and the rebuilt node is folded if its operator can be evaluated on
what it now stands over. What cannot be evaluated stays, rebuilt.

The folding rules differ in what they look at first, and it shows on
nodes with too few children: the second child is asked for as soon as
the operator is seen, except by division, which first wants a fraction
on the left.
-/

namespace TypedTerms

/-- A literal number, as an operand. -/
inductive Numeral where
  | integer (n : Int)
  | fraction (s : FractionSort) (q : Fraction)
  deriving DecidableEq

namespace Numeral

/-- The order of two numerals of one kind; an integer and a fraction do
not compare. -/
def compare? : Numeral → Numeral → Option Ordering
  | .integer a, .integer b => some (compare a b)
  | .fraction _ a, .fraction _ b => some (compare a b)
  | _, _ => none

/-- An operation on two numerals of one kind. On fractions the result
has the sort of the first. -/
def combine? (int : Int → Int → Int) (frac : Fraction → Fraction → Fraction) :
    Numeral → Numeral → Option Numeral
  | .integer a, .integer b => some (.integer (int a b))
  | .fraction s a, .fraction _ b => some (.fraction s (frac a b))
  | _, _ => none

/-- The negation, of the same kind and sort. -/
def neg : Numeral → Numeral
  | .integer n => .integer (-n)
  | .fraction s q => .fraction s (-q)

/-- The same number as a fraction of a sort. -/
def toFraction (s : FractionSort) : Numeral → Numeral
  | .integer n => .fraction s (.ofInt n)
  | .fraction _ q => .fraction s q

/-- The quotient of two fractions by a divisor that is not zero, of the
sort of the first. -/
def divide? : Numeral → Numeral → Option Numeral
  | .fraction s a, .fraction _ b => (a.divide? b).toOption.map (.fraction s)
  | _, _ => none

end Numeral

namespace Leaf

/-- The number a leaf is a literal of. -/
def numeral? : Leaf → Option Numeral
  | .integer n => some (.integer n)
  | .fraction s q => some (.fraction s q)
  | _ => none

end Leaf

/-- The literal number a term is, if it is one. -/
def TermStore.numeral (st : TermStore) (t : TermId) : Except Violation (Option Numeral) :=
  st.ofLeaf t none Leaf.numeral?

namespace Build

/-- The literal of a numeral. -/
def numeral : Numeral → Build TermId
  | .integer n => integer n
  | .fraction s q => fraction s q

/-- The literal of a numeral, if there is one. -/
def numeral? : Option Numeral → Build (Option TermId)
  | some n => return some (← numeral n)
  | none => return none

/-- The truth value, if there is one. -/
def boolean? : Option Bool → Build (Option TermId)
  | some b => return some (← boolean b)
  | none => return none

/-- What an operation makes of two terms that are both numerals. -/
def numerals {α : Type} (x y : TermId) (f : Numeral → Numeral → Option α) :
    Build (Option α) := do
  match ← read (·.numeral x) with
  | none => return none
  | some a =>
    match ← read (·.numeral y) with
    | none => return none
    | some b => return f a b

/-- Folds an equation: a term equals itself, and two different literals
differ. -/
def foldEquals (x y : TermId) : Build (Option TermId) := do
  if x = y then return some (← boolean true)
  if ← read (·.isConst x) then
    if ← read (·.isConst y) then return some (← boolean false)
  return none

/-- Folds a comparison of numerals by a test on their order. -/
def foldCompare (x y : TermId) (test : Ordering → Bool) : Build (Option TermId) := do
  boolean? (← numerals x y fun a b => (a.compare? b).map test)

/-- Folds an operation on two numerals of one kind. -/
def foldBinary (x y : TermId) (int : Int → Int → Int)
    (frac : Fraction → Fraction → Fraction) : Build (Option TermId) := do
  numeral? (← numerals x y (Numeral.combine? int frac))

/-- Folds an operation on two integers, unless the second is zero. -/
def foldIntegers (x y : TermId) (op : Int → Int → Int) : Build (Option TermId) := do
  match ← read (·.integerValue x) with
  | none => return none
  | some a =>
    match ← read (·.integerValue y) with
    | none => return none
    | some b => if b = 0 then return none else return some (← integer (op a b))

/-- Folds a conversion to a sort of fractions. A term of that type is its
own conversion. -/
def foldToFraction (x : TermId) (s : FractionSort) : Build (Option TermId) := do
  if (← read (·.ty x)) = s.ty then return some x
  numeral? ((← read (·.numeral x)).map (Numeral.toFraction s))

/-- Folds a conversion to an integer: a fraction goes to its floor. -/
def foldToInteger (x : TermId) : Build (Option TermId) := do
  if (← read (·.ty x)) = .integer then return some x
  numeral? ((← read (·.fractionValue x)).map (.integer ·.floor))

/-- Folds a rounding of a fraction, which keeps its sort. -/
def foldRounding (x : TermId) (r : Rounding) : Build (Option TermId) := do
  match ← read (·.numeral x) with
  | some (.fraction s q) => return some (← fraction s (.ofInt (q.toInt r)))
  | _ => return none

/-- Folds the test for an integer: terms of integer type pass, fraction
literals are looked at. -/
def foldIsInteger (x : TermId) : Build (Option TermId) := do
  if (← read (·.ty x)) = .integer then return some (← boolean true)
  boolean? ((← read (·.fractionValue x)).map (·.isInteger))

/-- Folds the test for a rational: terms of integer or rational type
pass, and so does every fraction literal. -/
def foldIsRational (x : TermId) : Build (Option TermId) := do
  let ty ← read (·.ty x)
  if ty = .integer ∨ ty = .rational then return some (← boolean true)
  boolean? ((← read (·.fractionValue x)).map fun _ => true)

/-- What a compound term folds to, if its operator can be evaluated on
its children. -/
def foldNode (t : TermId) (op : Operator) (x : TermId) : Build (Option TermId) :=
  let second := read (·.child t 1)
  match op with
  | .equals => do foldEquals x (← second)
  | .less => do foldCompare x (← second) (· == .lt)
  | .lessEquals => do foldCompare x (← second) (· != .gt)
  | .negate => do numeral? ((← read (·.numeral x)).map .neg)
  | .toInteger => foldToInteger x
  | .toRational => foldToFraction x .rational
  | .toReal => foldToFraction x .real
  | .rounding r => foldRounding x r
  | .isInteger => foldIsInteger x
  | .isRational => foldIsRational x
  | .add => do foldBinary x (← second) (· + ·) (· + ·)
  | .subtract => do foldBinary x (← second) (· - ·) (· - ·)
  | .multiply => do foldBinary x (← second) (· * ·) (· * ·)
  | .divide => do
    match ← read (·.fractionValue x) with
    | none => return none
    | some _ => numeral? (← numerals x (← second) Numeral.divide?)
  | .quotient c => do foldIntegers x (← second) c.quotient
  | .remainder c => do foldIntegers x (← second) c.remainder
  | .universal | .existential | .and | .or | .not | .equivalent | .call => return none

/-- What a term folds to, or the term itself. -/
def fold (t : TermId) : Build TermId := do
  match ← read (·.node t) with
  | .leaf _ => return t
  | .app op x _ => return (← foldNode t op x).getD t

def simplifyWithin : Nat → TermId → Build TermId
  | 0, _ => throw .endless
  | d + 1, t => do fold (← mapChildren (simplifyWithin d) t)

/-- The term with everything computed that can be, bottom up. -/
def simplify (t : TermId) : Build TermId := do
  simplifyWithin (← read fun st => .ok st.growingDepthLimit) t

end Build

end TypedTerms
