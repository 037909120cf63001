import TypedTerms.Store.Build

/-!
# Free variables

A quantifier binds the variables it lists, over its body. A variable is
free in a term if it stands somewhere outside every quantifier that
lists it. The listed variables themselves are no occurrences. The head
of a call is walked like any other child.
-/

namespace TypedTerms

/-- Adds the free variables of `t`, those under the binders `bound`
apart, behind the ones found so far, each once. -/
def TermStore.freeVarsWithin (st : TermStore) :
    Nat → List TermId → TermId → List TermId → Except Violation (List TermId)
  | 0, _, _, _ => .error .endless
  | d + 1, bound, t, found => do
    match ← st.node t with
    | .leaf l => return if l.isVar ∧ t ∉ bound ∧ t ∉ found then found ++ [t] else found
    | .app .universal body vars => st.freeVarsWithin d (bound ++ vars) body found
    | .app .existential body vars => st.freeVarsWithin d (bound ++ vars) body found
    | .app _ first rest =>
      (first :: rest).foldlM (fun found c => st.freeVarsWithin d bound c found) found

/-- The free variables of a term, in the order of their first free
occurrence from left to right. -/
def TermStore.freeVars (st : TermStore) (t : TermId) : Except Violation (List TermId) :=
  st.freeVarsWithin st.depthLimit [] t []

/-- The term under a universal quantifier over its free variables; a
term without any is answered as it is. -/
def Build.quantify (t : TermId) : Build TermId := do
  match ← read (·.freeVars t) with
  | [] => return t
  | vars => intern (.app .universal t vars)

/-!
## Collecting free variables in place

Free variables are collected into three accumulators that the whole walk
shares. The scope is a vector: a quantifier puts the variables it lists
behind it, and cuts it back to where it was once the body has been walked.
The variables found are kept in order, and beside them a set of those seen
so far, which is never cut back.
-/

/-- The accumulators of the walk. -/
structure Collector where
  /-- The variables bound where the walk is. -/
  bound : List TermId
  /-- The free variables found so far, as a set. -/
  seen : Std.HashSet TermId
  /-- The free variables found so far, in order. -/
  free : List TermId

namespace Collector

/-- The accumulators before the walk. -/
def start : Collector := ⟨[], ∅, []⟩

/-- A variable is met: unless it is bound here or has been seen, it is
taken down as free. -/
def meet (c : Collector) (v : TermId) : Collector :=
  if v ∉ c.bound ∧ v ∉ c.seen then
    { c with seen := c.seen.insert v, free := c.free ++ [v] }
  else c

end Collector

namespace TermStore

/-- Collects the free variables of `t`, within a number of levels. -/
def collectWithin (st : TermStore) : Nat → TermId → StateT Collector (Except Violation) Unit
  | 0, _ => throw .endless
  | d + 1, t => do
    match ← st.node t with
    | .leaf l => if l.isVar then modify fun c => c.meet t
    | .app .universal body vars | .app .existential body vars =>
      let mark := (← get).bound.length
      modify fun c => { c with bound := c.bound ++ vars }
      st.collectWithin d body
      modify fun c => { c with bound := c.bound.take mark }
    | .app _ first rest => (first :: rest).forM (st.collectWithin d)

/-- The free variables that collecting leaves behind. -/
def collectFreeVars (st : TermStore) (t : TermId) : Except Violation (List TermId) := do
  let (_, c) ← (st.collectWithin st.depthLimit t).run .start
  return c.free

end TermStore

end TypedTerms
