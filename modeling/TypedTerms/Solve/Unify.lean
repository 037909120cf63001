import TypedTerms.Solve.Match

/-!
# Unification

Unification looks for bindings that make two terms equal, and finds the
most general ones. Terms of different types are never equal. A variable
on the right is treated as one on the left. A bound side is read as its
value; an unbound variable is bound to the other side, unless it occurs
there, bindings read along.
-/

namespace TypedTerms.TermStore

/-- One equation between an unbound or bound variable and a term. -/
def solveVar (st : TermStore) (s : Subst) (var other : TermId) :
    Except Violation (Option (Subst × List Equation)) :=
  match s.get? var with
  | some value => .ok (some (s, [(value, other)]))
  | none =>
    match s.get? other with
    | some value => .ok (some (s, [(var, value)]))
    | none => do
      if ← st.occurs s var other then return none
      else return some (s.bind var other, [])

/-- One equation between two terms. -/
def unifyRule (st : TermStore) : Rule := fun s a b => do
  if a = b then return some (s, [])
  let ty ← st.ty a
  if ty ≠ (← st.ty b) then return none
  if ← st.isVar b then st.solveVar s b a
  else if ← st.isVar a then st.solveVar s a b
  else return (← st.decompose a b).map ((s, ·))

/-- The most general bindings that extend `s` and make the terms equal,
found in at most `steps` steps; nothing, if there are none. -/
def unifyWith (st : TermStore) (steps : Nat) (s : Subst) (a b : TermId) :
    Except Violation (Option Subst) :=
  st.unifyRule.solve steps s [(a, b)]

/-- The most general bindings that make two terms equal. -/
def unify (st : TermStore) (steps : Nat) (a b : TermId) : Except Violation (Option Subst) :=
  st.unifyWith steps .empty a b

end TypedTerms.TermStore
