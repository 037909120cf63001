import TypedTerms.Subst.Resolve
import TypedTerms.Typing.Check

/-!
# Solving equations, and matching

Matching and unification both work off a list of equations between
terms. A rule looks at the first one under the bindings made so far. It
fails, or it answers new bindings and the equations that are to hold in
place of the one it looked at; those come first from then on, so a term
is worked through from left to right.

How many equations that takes is not known beforehand, since bindings
lead from term to term, so the run is given a number of steps. Running
out of them is an outcome of its own, `Violation.endless`, and never an
answer; with more steps a finished run gives the same answer.
-/

namespace TypedTerms

/-- Two terms to be made equal. -/
abbrev Equation := TermId × TermId

/-- What a rule makes of an equation: nothing, if it cannot hold, or the
bindings after it and the equations in its place. -/
abbrev Rule := Subst → TermId → TermId → Except Violation (Option (Subst × List Equation))

/-- Works off a list of equations in at most a number of steps. -/
def Rule.solve (rule : Rule) : Nat → Subst → List Equation → Except Violation (Option Subst)
  | _, s, [] => .ok (some s)
  | 0, _, _ :: _ => .error .endless
  | n + 1, s, (a, b) :: rest => do
    match ← rule s a b with
    | none => return none
    | some (s, new) => rule.solve n s (new ++ rest)

end TypedTerms

/-!
## Taking an equation apart

Two compound terms are equal when they have the same operator, as many
children each, and equal children place by place.
-/

namespace TypedTerms.TermStore

/-- The equations between the children of two terms with one operator
and equally many children; nothing, if the terms are not such. Two
leaves are not. -/
def decompose (st : TermStore) (a b : TermId) : Except Violation (Option (List Equation)) := do
  let m ← st.node a
  let n ← st.node b
  if m.tag = n.tag ∧ m.children ≠ [] ∧ m.children.length = n.children.length then
    return some (m.children.zip n.children)
  else return none

/-!
## Matching

Matching looks for bindings of a pattern's variables that make it equal
to a target. Variables of the target are never bound; they count as
constants. Pattern and target are meant to have no variable in common:
a bound variable must meet the very term it is bound to, and there is no
occurs check.
-/

/-- One equation between a pattern and a target. -/
def matchRule (st : TermStore) : Rule := fun s a b => do
  if a = b then return some (s, [])
  let ty ← st.ty a
  if ty ≠ (← st.ty b) then return none
  if ← st.isVar a then
    match s.get? a with
    | some value => return if value = b then some (s, []) else none
    | none => return some (s.bind a b, [])
  return (← st.decompose a b).map ((s, ·))

/-- Bindings that extend `s` and make the pattern equal to the target,
found in at most `steps` steps; nothing, if there are none. -/
def matchWith (st : TermStore) (steps : Nat) (s : Subst) (pattern target : TermId) :
    Except Violation (Option Subst) :=
  st.matchRule.solve steps s [(pattern, target)]

/-- Bindings that make the pattern equal to the target. -/
def matchTerms (st : TermStore) (steps : Nat) (pattern target : TermId) :
    Except Violation (Option Subst) :=
  st.matchWith steps .empty pattern target

end TypedTerms.TermStore
