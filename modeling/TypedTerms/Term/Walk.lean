import TypedTerms.Store.Read

/-!
# Walks through a term

Questions about a whole term, answered by walking down through its
children: does a variable occur, what are the leaves, what are the
operands of a nested operator, how large is the term.

Terms share nodes, and a walk visits a shared node once for each place
where it stands, so it sees the term as a tree. It reads a node only
when it gets there; a walk that ends early meets no unknown term beyond.

Each walk takes the number of levels it may still go down. The bound of
the store, `TermStore.depthLimit`, is enough for every term that does
not contain itself.

The leaves and the operands are gathered in an array that is handed on
from place to place.
-/

namespace TypedTerms.TermStore

def containsWithin (st : TermStore) (v : TermId) : Nat → TermId → Except Violation Bool
  | 0, _ => .error .endless
  | d + 1, t =>
    if t = v then .ok true
    else do (← st.children t).reverse.anyM (st.containsWithin v d)

/-- Is `v` the term `t` or somewhere inside it? The last child is looked
into first. -/
def contains (st : TermStore) (t v : TermId) : Except Violation Bool :=
  st.containsWithin v st.depthLimit t

/-- Adds the leaves of `t` behind those found so far, within a number of
levels. -/
def leavesWithin (st : TermStore) :
    Nat → Array TermId → TermId → Except Violation (Array TermId)
  | 0, _, _ => .error .endless
  | d + 1, found, t => do
    match ← st.children t with
    | [] => return found.push t
    | cs => cs.foldlM (st.leavesWithin d) found

/-- The leaves of a term, left to right, each as often as it stands
there. -/
def leaves (st : TermStore) (t : TermId) : Except Violation (List TermId) := do
  return (← st.leavesWithin st.depthLimit #[] t).toList

/-- Adds the operands of `t` behind those found so far, within a number
of levels. -/
def operandsWithin (st : TermStore) (tag : Tag) :
    Nat → Array TermId → TermId → Except Violation (Array TermId)
  | 0, _, _ => .error .endless
  | d + 1, found, t => do
    let n ← st.node t
    if n.tag = tag then n.children.foldlM (st.operandsWithin tag d) found
    else return found.push t

/-- The operands of nested nodes with a tag, left to right: the maximal
subterms with another tag. A term with another tag is its own operand,
and a leaf with this very tag has none. -/
def operands (st : TermStore) (t : TermId) (tag : Tag) : Except Violation (List TermId) := do
  return (← st.operandsWithin tag st.depthLimit #[] t).toList

/-- The children that count for the size of a term: all but the head of
a call. -/
def countedChildren : Node → List TermId
  | .app .call _ args => args
  | n => n.children

def symbolCountWithin (st : TermStore) : Nat → TermId → Except Violation Nat
  | 0, _ => .error .endless
  | d + 1, t => do
    let n ← st.node t
    (countedChildren n).foldrM (fun c total => return (← st.symbolCountWithin d c) + total) 1

/-- The size of a term: one for each node, a call and its head together
counting one. The last child is counted first. -/
def symbolCount (st : TermStore) (t : TermId) : Except Violation Nat :=
  st.symbolCountWithin st.depthLimit t

end TypedTerms.TermStore
