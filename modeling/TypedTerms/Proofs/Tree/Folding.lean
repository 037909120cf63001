import TypedTerms.Folding
import TypedTerms.Proofs.Tree.WellTyped

/-!
# Folding trees

Constant folding, said of trees: what a node folds to is a function of
its operator and its children, and a tree is simplified from the leaves
up. Where a term is put together wrongly, folding it may break a
contract, and so may folding the tree, by the same rule and at the same
place.
-/

namespace TypedTerms.Tree

/-! ## Equality -/

mutual

/-- Decides whether two trees are the same. -/
def decEq : (T U : Tree) → Decidable (T = U)
  | .leaf l, .leaf k => if h : l = k then .isTrue (by rw [h]) else .isFalse (by simp [h])
  | .leaf _, .app .. | .app .., .leaf _ => .isFalse nofun
  | .app op T Ts, .app op' U Us =>
    if hop : op = op' then
      match decEq T U, decEqList Ts Us with
      | .isTrue h, .isTrue hs => .isTrue (by rw [hop, h, hs])
      | .isFalse h, _ => .isFalse (by simp [h])
      | _, .isFalse hs => .isFalse (by simp [hs])
    else .isFalse (by simp [hop])

/-- Decides whether two lists of trees are the same. -/
def decEqList : (Ts Us : List Tree) → Decidable (Ts = Us)
  | [], [] => .isTrue rfl
  | [], _ :: _ | _ :: _, [] => .isFalse nofun
  | T :: Ts, U :: Us =>
    match decEq T U, decEqList Ts Us with
    | .isTrue h, .isTrue hs => .isTrue (by rw [h, hs])
    | .isFalse h, _ => .isFalse (by simp [h])
    | _, .isFalse hs => .isFalse (by simp [hs])

end

instance : DecidableEq Tree := decEq

/-! ## Operands -/

/-- What `f` says about the leaf that a tree is, if it is one. -/
def ofLeaf {α : Type} (T : Tree) (other : α) (f : Leaf → α) : α :=
  match T with
  | .leaf l => f l
  | .app .. => other

/-- Is the tree a literal constant? -/
def isConst (T : Tree) : Bool := T.ofLeaf false Leaf.isConst

/-- The literal number a tree is, if it is one. -/
def numeral? (T : Tree) : Option Numeral := T.ofLeaf none Leaf.numeral?

/-- The value of an integer literal. -/
def integer? (T : Tree) : Option Int :=
  T.ofLeaf none fun
    | .integer n => some n
    | _ => none

/-- The value of a fraction literal. -/
def fraction? (T : Tree) : Option Fraction :=
  T.ofLeaf none fun
    | .fraction _ q => some q
    | _ => none

/-- The tree of a truth value. -/
def boolean (b : Bool) : Tree := .leaf (.boolean b)

/-- The literal of a numeral. -/
def literal : Numeral → Tree
  | .integer n => .leaf (.integer n)
  | .fraction s q => .leaf (.fraction s q)

/-! ## The rules -/

/-- What an operation makes of two trees that are both numerals. -/
def numerals {α : Type} (x y : Tree) (f : Numeral → Numeral → Option α) : Option α := do
  f (← x.numeral?) (← y.numeral?)

/-- A tree equals itself, and two different literals differ. -/
def foldEquals (x y : Tree) : Option Tree :=
  if x = y then some (boolean true)
  else if x.isConst ∧ y.isConst then some (boolean false)
  else none

/-- A comparison of numerals by a test on their order. -/
def foldCompare (x y : Tree) (test : Ordering → Bool) : Option Tree :=
  (numerals x y fun a b => (a.compare? b).map test).map boolean

/-- An operation on two numerals of one kind. -/
def foldBinary (x y : Tree) (int : Int → Int → Int) (frac : Fraction → Fraction → Fraction) :
    Option Tree := (numerals x y (Numeral.combine? int frac)).map literal

/-- An operation on two integers, unless the second is zero. -/
def foldIntegers (x y : Tree) (op : Int → Int → Int) : Option Tree := do
  let a ← x.integer?
  let b ← y.integer?
  if b = 0 then none else some (literal (.integer (op a b)))

/-- A conversion to a sort of fractions. -/
def foldToFraction (x : Tree) (s : FractionSort) : Except Violation (Option Tree) := do
  if (← x.ty) = s.ty then return some x
  return (x.numeral?.map (Numeral.toFraction s)).map literal

/-- A conversion to an integer. -/
def foldToInteger (x : Tree) : Except Violation (Option Tree) := do
  if (← x.ty) = .integer then return some x
  return (x.fraction?.map (Numeral.integer ·.floor)).map literal

/-- A rounding of a fraction. -/
def foldRounding (x : Tree) (r : Rounding) : Option Tree :=
  match x.numeral? with
  | some (.fraction s q) => some (literal (.fraction s (.ofInt (q.toInt r))))
  | _ => none

/-- The test for an integer. -/
def foldIsInteger (x : Tree) : Except Violation (Option Tree) := do
  if (← x.ty) = .integer then return some (boolean true)
  return (x.fraction?.map (·.isInteger)).map boolean

/-- The test for a rational. -/
def foldIsRational (x : Tree) : Except Violation (Option Tree) := do
  let ty ← x.ty
  if ty = .integer ∨ ty = .rational then return some (boolean true)
  return (x.fraction?.map fun _ => true).map boolean

/-- A quotient of fractions, which looks at the divisor only behind a
fraction. -/
def foldDivide (x : Tree) (second : Except Violation Tree) : Except Violation (Option Tree) :=
  match x.fraction? with
  | none => .ok none
  | some _ => do return (numerals x (← second) Numeral.divide?).map literal

/-- The second child of a node, which must exist. -/
def second (op : Operator) : List Tree → Except Violation Tree
  | y :: _ => .ok y
  | [] => .error (.noChild (.operator op) 1)

/-- What a node folds to, if its operator can be evaluated on its
children. -/
def foldNode (op : Operator) (x : Tree) (rest : List Tree) : Except Violation (Option Tree) :=
  let second := second op rest
  match op with
  | .equals => do return foldEquals x (← second)
  | .less => do return foldCompare x (← second) (· == .lt)
  | .lessEquals => do return foldCompare x (← second) (· != .gt)
  | .negate => .ok ((x.numeral?.map .neg).map literal)
  | .toInteger => foldToInteger x
  | .toRational => foldToFraction x .rational
  | .toReal => foldToFraction x .real
  | .rounding r => .ok (foldRounding x r)
  | .isInteger => foldIsInteger x
  | .isRational => foldIsRational x
  | .add => do return foldBinary x (← second) (· + ·) (· + ·)
  | .subtract => do return foldBinary x (← second) (· - ·) (· - ·)
  | .multiply => do return foldBinary x (← second) (· * ·) (· * ·)
  | .divide => foldDivide x second
  | .quotient c => do return foldIntegers x (← second) c.quotient
  | .remainder c => do return foldIntegers x (← second) c.remainder
  | .universal | .existential | .and | .or | .not | .equivalent | .call => .ok none

/-- The node over its children, or what it folds to. -/
def refold (op : Operator) (x : Tree) (rest : List Tree) : Except Violation Tree := do
  return (← foldNode op x rest).getD (.app op x rest)

/-- The tree with everything computed that can be, bottom up. -/
def simplify : Tree → Except Violation Tree :=
  fold (.ok ∘ leaf) fun op first rest => do refold op (← first) (← rest.mapM id)

@[simp] theorem simplify_leaf (l : Leaf) : (leaf l).simplify = .ok (leaf l) := rfl

/-- A node is folded over its simplified children, the first of them being
simplified first. -/
theorem simplify_app (op : Operator) (first : Tree) (rest : List Tree) :
    (app op first rest).simplify =
      (do refold op (← first.simplify) (← rest.mapM simplify)) := by
  rw [simplify, fold_app, List.mapM_map]
  rfl

end TypedTerms.Tree
