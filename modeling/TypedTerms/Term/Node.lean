import TypedTerms.Interner
import TypedTerms.Tag
import TypedTerms.Ty.Text

/-!
# Nodes of terms

A term is known by a number, its `TermId`, and what stands behind the
number is a node: a leaf with its data, or an operator over the numbers
of its children. Nodes refer to children by number, so equal subterms
are one node.

The types carry what every node owes. A compound node has a first child
and a list of further ones, so it is never without children, and a leaf
never has any. A fraction literal is of one of the two sorts fractions
have. A function leaf holds its result and parameter types apart, so its
type always is a signature.
-/

namespace TypedTerms

/-- The number of a term in a store. -/
structure TermId where
  raw : Nat
  deriving DecidableEq, Repr, Hashable, Inhabited

namespace TermId

/-- How a term is shown where only its number matters. -/
def text (t : TermId) : String := "TermId(" ++ toString t.raw ++ ")"

end TermId

/-- The sort of a fraction literal. -/
inductive FractionSort where
  | rational
  | real
  deriving DecidableEq, Repr, Hashable

namespace FractionSort

/-- The type of a literal of this sort. -/
def ty : FractionSort → Ty
  | .rational => .rational
  | .real => .real

/-- The sort whose type is `t`, if there is one. -/
def ofTy? : Ty → Option FractionSort
  | .rational => some .rational
  | .real => some .real
  | _ => none

end FractionSort

/-- A node without children.

Variables, globals and functions carry the number their maker gave them,
which no other leaf has; the other leaves are known by their data
alone. -/
inductive Leaf where
  | boolean (value : Bool)
  | integer (value : Int)
  | fraction (sort : FractionSort) (value : Fraction)
  | object (name : Symbol)
  | var (id : Nat) (ty : Ty)
  | global (id : Nat) (name : Symbol) (ty : Ty)
  | function (id : Nat) (name : Symbol) (result : Ty) (params : List Ty)
  deriving DecidableEq, Hashable

namespace Leaf

def tag : Leaf → LeafTag
  | .boolean false => .falsehood
  | .boolean true => .truth
  | .integer _ => .integer
  | .fraction .. => .fraction
  | .object _ => .object
  | .var .. => .var
  | .global .. => .global
  | .function .. => .function

def ty : Leaf → Ty
  | .boolean _ => .bool
  | .integer _ => .integer
  | .fraction s _ => s.ty
  | .object _ => .individual
  | .var _ ty => ty
  | .global _ _ ty => ty
  | .function _ _ result params => .func result params

def isVar : Leaf → Bool
  | .var .. => true
  | _ => false

/-- Is it a literal constant: a truth value, a number or a distinct
object? -/
def isConst : Leaf → Bool
  | .boolean _ | .integer _ | .fraction .. | .object _ => true
  | _ => false

/-- The name of a global, a function or a distinct object. -/
def name? : Leaf → Option Symbol
  | .object name => some name
  | .global _ name _ => some name
  | .function _ name _ _ => some name
  | _ => none

/-- Variables are told by their tag. -/
theorem isVar_iff (l : Leaf) : l.isVar = true ↔ l.tag = .var := by
  cases l with
  | boolean b => cases b <;> simp [isVar, tag]
  | _ => simp [isVar, tag]

end Leaf

/-- What stands behind the number of a term. -/
inductive Node where
  | leaf (l : Leaf)
  | app (op : Operator) (first : TermId) (rest : List TermId)
  deriving DecidableEq, Hashable

namespace Node

def tag : Node → Tag
  | .leaf l => .leaf l.tag
  | .app op _ _ => .operator op

def children : Node → List TermId
  | .leaf _ => []
  | .app _ first rest => first :: rest

/-- The nodes without children are the leaves. -/
theorem children_eq_nil_iff (n : Node) : n.children = [] ↔ n.tag.isLeaf = true := by
  cases n <;> simp [children, tag, Tag.isLeaf]

end Node

end TypedTerms
