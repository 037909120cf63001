import TypedTerms.Store.Build

/-!
# Rebuilding terms

A term is never changed; a changed copy is built, and comes out as the
same term when nothing did change, because equal nodes are one term.

The leaf map runs in any setting `m` that can make terms, so the function
on leaves may keep a state of its own. It sees the leaves left to right,
each as often as it stands in the term. Terms made early in a map may be
met later in it, under a child that was unknown at first; its bound is
therefore `TermStore.growingDepthLimit`.
-/

namespace TypedTerms.Build

/-- The node of `t` over new children. A leaf takes none and is answered
as it is. -/
def remake (t : TermId) (children : List TermId) : Build TermId := do
  match ← read (·.tag t) with
  | .leaf _ => if children.isEmpty then return t else throw .leafWithChildren
  | .operator op => apply op children

section

variable {m : Type → Type} [Monad m] [MonadLiftT Build m]

def mapLeavesWithin (f : TermId → m TermId) : Nat → TermId → m TermId
  | 0, _ => liftM (throw .endless : Build TermId)
  | d + 1, t => do
    match ← liftM (read (·.children t)) with
    | [] => f t
    | cs => liftM (remake t (← cs.mapM (mapLeavesWithin f d)))

/-- The term with every leaf replaced by what `f` makes of it. -/
def mapLeaves (f : TermId → m TermId) (t : TermId) : m TermId := do
  mapLeavesWithin f (← liftM (read fun st => .ok st.growingDepthLimit)) t

/-- The term with its immediate children replaced by what `f` makes of
them. A leaf is answered as it is. -/
def mapChildren (f : TermId → m TermId) (t : TermId) : m TermId := do
  match ← liftM (read (·.children t)) with
  | [] => return t
  | cs => liftM (remake t (← cs.mapM f))

end

/-- The term with the subterm at a position replaced. A position is the
list of places to take from the root down; it must exist. -/
def splice (t : TermId) : List Nat → TermId → Build TermId
  | [], r => return r
  | i :: p, r => do
    let n ← read (·.node t)
    match n.children[i]? with
    | none => throw (.noChild n.tag i)
    | some c => remake t (n.children.set i (← splice c p r))

end TypedTerms.Build

/-!
## Walking with stacks

A walk through a term need not call itself: what is still to be done can
be kept on a stack. One turn takes the topmost task off, and puts the
tasks that it leads to in its place, those for the first child on top.

Gathering has one stack, of the terms still to be walked. The leaf map
has two. A node with children is put back with a mark, below its
children, and what the children are mapped to comes to lie on the second
stack; when the marked node is met again, it takes as many results off
that stack as it has children.
-/

namespace TypedTerms

/-! ### Gathering -/

namespace TermStore

/-- A number of turns of gathering: a node that is opened is replaced by
its children, and any other is put behind what was found. -/
def gatherTurns (st : TermStore) (opens : Node → Bool) :
    Nat → List TermId → List TermId → Except Violation (List TermId × List TermId)
  | 0, stack, found => .ok (stack, found)
  | _ + 1, [], found => .ok ([], found)
  | n + 1, t :: stack, found => do
    let node ← st.node t
    if opens node then st.gatherTurns opens n (node.children ++ stack) found
    else st.gatherTurns opens n stack (found ++ [t])

end TermStore

/-! ### Mapping -/

/-- A term still to be mapped. -/
structure Task where
  term : TermId
  /-- Do the results for its children lie on the stack? -/
  childrenDone : Bool

/-- The two stacks of the leaf map. -/
structure Stacks where
  /-- What is to be done, the next first. -/
  tasks : List Task
  /-- What has been made, the latest last. -/
  results : List TermId

/-- The stacks before a term is mapped. -/
def Stacks.start (t : TermId) : Stacks := ⟨[⟨t, false⟩], []⟩

namespace Build

variable {m : Type → Type} [Monad m] [MonadLiftT Build m]

/-- One turn of the leaf map, at a task taken off the stack. There is no
answer when the results run out. -/
def mapTurn (f : TermId → m TermId) (task : Task) (s : Stacks) : m (Option Stacks) := do
  let cs ← liftM (read (·.children task.term))
  if task.childrenDone then
    if cs.length ≤ s.results.length then
      let kept := s.results.length - cs.length
      let r ← liftM (remake task.term (s.results.drop kept))
      return some ⟨s.tasks, s.results.take kept ++ [r]⟩
    else return none
  else
    match cs with
    | [] => return some ⟨s.tasks, s.results ++ [← f task.term]⟩
    | cs => return some ⟨cs.map (⟨·, false⟩) ++ ⟨task.term, true⟩ :: s.tasks, s.results⟩

/-- A number of turns of the leaf map, fewer if there are no more tasks. -/
def mapTurns (f : TermId → m TermId) : Nat → Stacks → m (Option Stacks)
  | 0, s => return some s
  | n + 1, s =>
    match s.tasks with
    | [] => return some s
    | task :: tasks => do
      match ← mapTurn f task { s with tasks } with
      | some s => mapTurns f n s
      | none => return none

end Build

end TypedTerms
