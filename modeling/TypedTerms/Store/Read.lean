import TypedTerms.Violation

/-!
# The store of terms

A `TermStore` holds every node once. Equal nodes therefore have equal
numbers, and comparing two terms is comparing two numbers. Variables,
globals and functions are told apart by a counter that the store keeps:
each one made gets the next count, so it equals no other term.

Reading a number that the store does not know breaks the reader's
contract. Such a number may still stand among the children of a node: a
node is a record of numbers, and is looked into only when it is read.
-/

namespace TypedTerms

/-- Every node made so far, each once, and the count of fresh leaves. -/
structure TermStore where
  /-- The nodes, numbered in the order they were first made. -/
  nodes : Interner Node
  /-- The number the next fresh leaf gets. -/
  nextLeaf : Nat

namespace TermStore

/-- The store without terms, over an assignment of nodes to shards. -/
def sharded (shard : Node → Shard) : TermStore := ⟨Interner.sharded shard, 0⟩

def empty : TermStore := ⟨Interner.empty, 0⟩

instance : Inhabited TermStore := ⟨empty⟩

def size (st : TermStore) : Nat := st.nodes.size

/-- The node behind a term, if the store knows the term. -/
def node? (st : TermStore) (t : TermId) : Option Node := st.nodes.get? t.raw

/-- The term with this node, made if it is new. -/
def intern (st : TermStore) (n : Node) : TermId × TermStore :=
  let (i, nodes) := st.nodes.intern n
  (⟨i⟩, { st with nodes })

/-- How many steps from parent to child a walk may take.

On the way down through a term that does not contain itself no term
comes twice, and every term on the way but the last has a node; a longer
way has gone in a circle. -/
def depthLimit (st : TermStore) : Nat := st.size + 1

/-- How many terms a store has room for; they are numbered in 32 bits. -/
def capacity : Nat := 1 <<< 32

/-- How many steps from parent to child a walk may take that makes terms
as it goes.

A child that is unknown when such a walk begins may be made before the
walk comes to it, so the way down may lead through terms that are not
counted yet: at most as many as there is room for. -/
def growingDepthLimit (st : TermStore) : Nat := st.depthLimit + capacity

/-! ## Interning and reading -/

/-- A known node is answered with its term, and the store stays. -/
theorem intern_of_node? {st : TermStore} {n : Node} {t : TermId} (h : st.node? t = some n) :
    st.intern n = (t, st) := by
  unfold intern
  rw [Interner.intern_of_get? (i := t.raw) h]

/-- The term answered for a node has this node. -/
theorem node?_intern (st : TermStore) (n : Node) :
    (st.intern n).2.node? (st.intern n).1 = some n :=
  st.nodes.get?_intern n

/-- A term that is known keeps its node. -/
theorem node?_intern_of_node? {st : TermStore} {m : Node} {t : TermId} (n : Node)
    (h : st.node? t = some m) : (st.intern n).2.node? t = some m :=
  Interner.get?_intern_of_get? n h

/-- Two terms with one node are one term. -/
theorem node?_inj {st : TermStore} {n : Node} {t u : TermId} (ht : st.node? t = some n)
    (hu : st.node? u = some n) : t = u := by
  cases t
  cases u
  exact congrArg TermId.mk (Interner.get?_inj ht hu)

end TermStore

end TypedTerms

/-!
## Reading terms

What can be asked about one term by looking at its node. Every question
breaks the reader's contract when the store does not know the term.
-/

namespace TypedTerms.TermStore

/-- The node behind a term. -/
def node (st : TermStore) (t : TermId) : Except Violation Node :=
  match st.node? t with
  | some n => .ok n
  | none => .error (.unknownTerm t)

def tag (st : TermStore) (t : TermId) : Except Violation Tag := do
  return (← st.node t).tag

/-- The children of a term, in order. -/
def children (st : TermStore) (t : TermId) : Except Violation (List TermId) := do
  return (← st.node t).children

/-- The number of children. -/
def arity (st : TermStore) (t : TermId) : Except Violation Nat := do
  return (← st.children t).length

/-- The child at a place, which must exist. -/
def child (st : TermStore) (t : TermId) (i : Nat) : Except Violation TermId := do
  let n ← st.node t
  match n.children[i]? with
  | some c => return c
  | none => throw (.noChild n.tag i)

/-- What `f` says about the leaf that a term is, if it is one. -/
def ofLeaf {α : Type} (st : TermStore) (t : TermId) (other : α) (f : Leaf → α) :
    Except Violation α := do
  match ← st.node t with
  | .leaf l => return f l
  | .app .. => return other

/-- Is the term a variable? -/
def isVar (st : TermStore) (t : TermId) : Except Violation Bool := st.ofLeaf t false Leaf.isVar

/-- Is the term without children? -/
def isLeaf (st : TermStore) (t : TermId) : Except Violation Bool :=
  st.ofLeaf t false fun _ => true

/-- Is the term a literal constant? -/
def isConst (st : TermStore) (t : TermId) : Except Violation Bool :=
  st.ofLeaf t false Leaf.isConst

/-- The value of an integer literal. -/
def integerValue (st : TermStore) (t : TermId) : Except Violation (Option Int) :=
  st.ofLeaf t none fun
    | .integer n => some n
    | _ => none

/-- The value of a fraction literal. -/
def fractionValue (st : TermStore) (t : TermId) : Except Violation (Option Fraction) :=
  st.ofLeaf t none fun
    | .fraction _ q => some q
    | _ => none

/-- The name of a global, a function or a distinct object. -/
def name (st : TermStore) (t : TermId) : Except Violation (Option Symbol) :=
  st.ofLeaf t none Leaf.name?

/-! ### Reading a known term -/

theorem node_of_node? {st : TermStore} {t : TermId} {n : Node} (h : st.node? t = some n) :
    st.node t = .ok n := by
  simp [node, h]

theorem tag_of_node? {st : TermStore} {t : TermId} {n : Node} (h : st.node? t = some n) :
    st.tag t = .ok n.tag := by
  rw [tag, node_of_node? h]
  rfl

theorem children_of_node? {st : TermStore} {t : TermId} {n : Node} (h : st.node? t = some n) :
    st.children t = .ok n.children := by
  rw [children, node_of_node? h]
  rfl

theorem isVar_of_leaf {st : TermStore} {t : TermId} {l : Leaf}
    (h : st.node? t = some (.leaf l)) : st.isVar t = .ok l.isVar := by
  rw [isVar, ofLeaf, node_of_node? h]
  rfl

theorem node_eq_ok_iff {st : TermStore} {t : TermId} {n : Node} :
    st.node t = .ok n ↔ st.node? t = some n := by
  unfold node
  cases st.node? t <;> simp

end TypedTerms.TermStore
