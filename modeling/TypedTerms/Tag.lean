import TypedTerms.Fraction.Rounding

/-!
# Tags

A tag says what a node of a term is. The tags of leaves and the
operators of compound nodes are two types, because a compound node can
only carry an operator; `Tag` is their sum. Tags are listed and ordered
leaves first.
-/

namespace TypedTerms

/-- What a leaf is. -/
inductive LeafTag where
  | falsehood
  | truth
  | object
  | var
  | global
  | function
  | integer
  | fraction
  deriving DecidableEq, Repr, Hashable

/-- What a compound node does with its children.

Quantifiers hold their body first and then the variables they bind. A
call holds the called function first and then the arguments. -/
inductive Operator where
  | universal
  | existential
  | and
  | or
  | not
  | equivalent
  | equals
  | less
  | lessEquals
  | isInteger
  | isRational
  | rounding (r : Rounding)
  | negate
  | add
  | subtract
  | multiply
  | divide
  | quotient (c : Division)
  | remainder (c : Division)
  | toInteger
  | toRational
  | toReal
  | call
  deriving DecidableEq, Repr, Hashable

/-- What a node of a term is. -/
inductive Tag where
  | leaf (l : LeafTag)
  | operator (o : Operator)
  deriving DecidableEq, Repr, Hashable

namespace LeafTag

/-- Every leaf tag, in order. -/
def all : List LeafTag :=
  [.falsehood, .truth, .object, .var, .global, .function, .integer, .fraction]

/-- The name a leaf tag is shown by. -/
def name : LeafTag → String
  | .falsehood => "False"
  | .truth => "True"
  | .object => "DistinctObject"
  | .var => "Var"
  | .global => "GlobalVar"
  | .function => "Function"
  | .integer => "Integer"
  | .fraction => "Rational"

end LeafTag

namespace Operator

/-- Every operator, in order. -/
def all : List Operator :=
  [.universal, .existential, .and, .or, .not, .equivalent, .equals,
    .less, .lessEquals, .isInteger, .isRational,
    .rounding .ceiling, .rounding .floor, .rounding .round, .rounding .truncate,
    .negate, .add, .subtract, .multiply, .divide,
    .quotient .euclidean, .quotient .floor, .quotient .truncate,
    .remainder .euclidean, .remainder .floor, .remainder .truncate,
    .toInteger, .toRational, .toReal, .call]

/-- The name an operator is shown by. -/
def name : Operator → String
  | .universal => "All"
  | .existential => "Exists"
  | .and => "And"
  | .or => "Or"
  | .not => "Not"
  | .equivalent => "Eqv"
  | .equals => "Equals"
  | .less => "Less"
  | .lessEquals => "LessEquals"
  | .isInteger => "IsInteger"
  | .isRational => "IsRational"
  | .rounding .ceiling => "Ceiling"
  | .rounding .floor => "Floor"
  | .rounding .round => "Round"
  | .rounding .truncate => "Truncate"
  | .negate => "Negate"
  | .add => "Add"
  | .subtract => "Subtract"
  | .multiply => "Multiply"
  | .divide => "Divide"
  | .quotient .euclidean => "DivideEuclidean"
  | .quotient .floor => "DivideFloor"
  | .quotient .truncate => "DivideTruncate"
  | .remainder .euclidean => "RemainderEuclidean"
  | .remainder .floor => "RemainderFloor"
  | .remainder .truncate => "RemainderTruncate"
  | .toInteger => "ToInteger"
  | .toRational => "ToRational"
  | .toReal => "ToReal"
  | .call => "Call"

end Operator

namespace Tag

/-- Every tag, in order: the leaves, then the operators. -/
def all : List Tag := LeafTag.all.map .leaf ++ Operator.all.map .operator

/-- The name a tag is shown by. -/
def name : Tag → String
  | .leaf l => l.name
  | .operator o => o.name

/-- Is it the tag of a leaf? -/
def isLeaf : Tag → Bool
  | .leaf _ => true
  | .operator _ => false

/-- The tag shown by a name. -/
def ofName? (s : String) : Option Tag := all.find? (·.name == s)

/-- The place of a tag in the order. -/
def position (t : Tag) : Nat := all.idxOf t

instance : Ord Tag := ⟨fun a b => compare a.position b.position⟩

/-- The tags in ascending order. -/
def sort (ts : List Tag) : List Tag := ts.mergeSort fun a b => compare a b != .gt

theorem mem_all (t : Tag) : t ∈ all := by
  cases t with
  | leaf l => cases l <;> decide
  | operator o =>
    cases o with
    | rounding r => cases r <;> decide
    | quotient c => cases c <;> decide
    | remainder c => cases c <;> decide
    | _ => decide

/-- A tag is read back from its name. -/
theorem ofName?_name (t : Tag) : ofName? t.name = some t := by
  cases t with
  | leaf l => cases l <;> decide
  | operator o =>
    cases o with
    | rounding r => cases r <;> decide
    | quotient c => cases c <;> decide
    | remainder c => cases c <;> decide
    | _ => decide

end Tag

end TypedTerms
