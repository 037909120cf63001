import TypedTerms.Proofs.Fraction.Arithmetic
import TypedTerms.Proofs.Tree.WellTyped

/-!
# Interpretations

What trees mean. An interpretation gives every type a domain: formulas
are true or false, integers and rational numbers are what they are, the
real numbers are any set with the rational numbers in it, and every other
type is any set. On numbers the operators have their standard meaning
wherever all arguments are rational; elsewhere, at a division by zero and
for the division families on anything but integers they are any
functions.

A value carries its type. A tree has a value under an assignment, which
gives every variable, global and function a value of its type, unless an
operator meets operands it has no meaning on. A quantifier ranges over the
assignments that differ at its variables only.
-/

namespace TypedTerms

/-! ## Domains -/

/-- What the types stand for that have no fixed meaning. -/
structure Domains where
  Carrier : Ty → Type
  Real : Type

namespace Domains

variable (D : Domains)

/-- What a type stands for. -/
def Of : Ty → Type
  | .bool => Prop
  | .integer => ℤ
  | .rational => ℚ
  | .real => D.Real
  | .individual => D.Carrier .individual
  | .compound k es => D.Carrier (.compound k es)

/-- A value, with its type. -/
structure Value where
  ty : Ty
  val : D.Of ty

/-- Arguments for parameters of these types. -/
inductive Args : List Ty → Type where
  | nil : Args []
  | cons {A : Ty} {As : List Ty} (a : D.Of A) (as : Args As) : Args (A :: As)

variable {D}

namespace Value

/-- A truth value. -/
def truth (p : Prop) : D.Value := ⟨.bool, p⟩

def integer (n : ℤ) : D.Value := ⟨.integer, n⟩

def rational (q : ℚ) : D.Value := ⟨.rational, q⟩

def real (x : D.Real) : D.Value := ⟨.real, x⟩

/-- The value as a truth value, if it is one. -/
def truth? : D.Value → Option Prop
  | ⟨.bool, p⟩ => some p
  | _ => none

/-- The value as one of a type, if it is of the type. -/
def as? (A : Ty) (v : D.Value) : Option (D.Of A) :=
  if h : v.ty = A then some (h ▸ v.val) else none

@[simp] theorem as?_mk (A : Ty) (x : D.Of A) : as? A ⟨A, x⟩ = some x := dif_pos rfl

end Value

/-- Values as arguments for parameters, if there are as many, of the
types. -/
def args? : (params : List Ty) → List D.Value → Option (D.Args params)
  | [], [] => some .nil
  | A :: As, v :: vs => (v.as? A).bind fun a => (args? As vs).map (.cons a)
  | _, _ => none

/-- The operators on a domain of numbers. -/
structure Operations (D : Domains) (N : Type) where
  less : N → N → Prop
  lessEquals : N → N → Prop
  negate : N → N
  add : N → N → N
  subtract : N → N → N
  multiply : N → N → N
  divide : N → N → N
  quotient : Division → N → N → N
  remainder : Division → N → N → N
  rounding : Rounding → N → N
  isInteger : N → Prop
  isRational : N → Prop
  toInteger : N → ℤ
  toRational : N → ℚ
  toReal : N → D.Real

end Domains

/-- The quotient of two integers in a convention. -/
def Division.standardQuotient : Division → ℤ → ℤ → ℤ
  | .euclidean => Int.ediv
  | .floor => Int.fdiv
  | .truncate => Int.tdiv

/-- The remainder of two integers in a convention. -/
def Division.standardRemainder : Division → ℤ → ℤ → ℤ
  | .euclidean => Int.emod
  | .floor => Int.fmod
  | .truncate => Int.tmod

/-- The quotient that is computed is the standard one, unless the divisor is
zero. -/
theorem Division.quotient_eq_standard (c : Division) (a : ℤ) {b : ℤ} (hb : b ≠ 0) :
    c.quotient a b = c.standardQuotient a b := by
  cases c with
  | euclidean => exact quotient_euclidean a b
  | floor => exact quotient_floor a hb
  | truncate => exact quotient_truncate a b

/-- The remainder that is computed is the standard one, unless the divisor
is zero. -/
theorem Division.remainder_eq_standard (c : Division) (a : ℤ) {b : ℤ} (hb : b ≠ 0) :
    c.remainder a b = c.standardRemainder a b := by
  cases c with
  | euclidean => exact remainder_euclidean a b
  | floor => exact remainder_floor a hb
  | truncate => exact remainder_truncate a b

/-- The standard meaning of the operators on integers. Division by zero
is left open. -/
structure IntegerLaws {D : Domains} (ofRat : ℚ → D.Real) (o : D.Operations ℤ) : Prop where
  less : ∀ a b, o.less a b ↔ a < b
  lessEquals : ∀ a b, o.lessEquals a b ↔ a ≤ b
  negate : ∀ a, o.negate a = -a
  add : ∀ a b, o.add a b = a + b
  subtract : ∀ a b, o.subtract a b = a - b
  multiply : ∀ a b, o.multiply a b = a * b
  quotient : ∀ c a b, b ≠ 0 → o.quotient c a b = c.standardQuotient a b
  remainder : ∀ c a b, b ≠ 0 → o.remainder c a b = c.standardRemainder a b
  rounding : ∀ r a, o.rounding r a = a
  isInteger : ∀ a, o.isInteger a
  isRational : ∀ a, o.isRational a
  toInteger : ∀ a, o.toInteger a = a
  toRational : ∀ a, o.toRational a = a
  toReal : ∀ a : ℤ, o.toReal a = ofRat a

/-- The standard meaning of the operators on a domain with the rational
numbers in it, where the arguments are rational. Division by zero and the
division families are left open. -/
structure FractionLaws {D : Domains} {N : Type} (embed : ℚ → N) (ofRat : ℚ → D.Real)
    (o : D.Operations N) : Prop where
  less : ∀ a b, o.less (embed a) (embed b) ↔ a < b
  lessEquals : ∀ a b, o.lessEquals (embed a) (embed b) ↔ a ≤ b
  negate : ∀ a, o.negate (embed a) = embed (-a)
  add : ∀ a b, o.add (embed a) (embed b) = embed (a + b)
  subtract : ∀ a b, o.subtract (embed a) (embed b) = embed (a - b)
  multiply : ∀ a b, o.multiply (embed a) (embed b) = embed (a * b)
  divide : ∀ a b, b ≠ 0 → o.divide (embed a) (embed b) = embed (a / b)
  rounding : ∀ (r : Rounding) (a : ℚ) (n : ℤ), r.Rounds a n → o.rounding r (embed a) = embed n
  isInteger : ∀ x, o.isInteger x ↔ ∃ n : ℤ, embed n = x
  isRational : ∀ x, o.isRational x ↔ ∃ a, embed a = x
  toInteger : ∀ a, o.toInteger (embed a) = ⌊a⌋
  toRational : ∀ a, o.toRational (embed a) = a
  toReal : ∀ a, o.toReal (embed a) = ofRat a

/-- A meaning for every type and every operator. -/
structure Interpretation where
  domains : Domains
  /-- The rational numbers among the real numbers. -/
  ofRat : ℚ → domains.Real
  ofRat_injective : Function.Injective ofRat
  integers : domains.Operations ℤ
  rationals : domains.Operations ℚ
  reals : domains.Operations domains.Real
  integer_laws : IntegerLaws ofRat integers
  rational_laws : FractionLaws id ofRat rationals
  real_laws : FractionLaws ofRat ofRat reals
  /-- A real number is its own conversion. -/
  toReal_real : ∀ x, reals.toReal x = x
  /-- The distinct object of a name. -/
  object : Symbol → domains.Of .individual
  object_injective : Function.Injective object
  /-- The value of a function at arguments. -/
  apply : ∀ {result params}, domains.Of (.func result params) → domains.Args params →
    domains.Of result

namespace Interpretation

variable (I : Interpretation)

abbrev Of (A : Ty) : Type := I.domains.Of A

abbrev Value : Type := I.domains.Value

/-- A value for every variable, global and function. What is assigned to
the other leaves is not looked at. -/
def Assignment : Type := (l : Leaf) → I.Of l.ty

/-- What a tree means: its value under each assignment, if it has one. -/
abbrev Meaning : Type := I.Assignment → Option I.Value

variable {I}

/-- The assignments differ at these leaves only. -/
def AgreesOff (ls : List Leaf) (σ τ : I.Assignment) : Prop := ∀ l, l ∉ ls → τ l = σ l

/-- It is a formula, and true. -/
def IsTrue (v : Option I.Value) : Prop := v = some (.truth True)

variable (I)

/-! ## Numbers -/

/-- The rational number in the domain of a sort. -/
def embed : (s : FractionSort) → ℚ → I.Of s.ty
  | .rational => id
  | .real => I.ofRat

/-- The operators on the domain of a sort. -/
def fractions : (s : FractionSort) → I.domains.Operations (I.Of s.ty)
  | .rational => I.rationals
  | .real => I.reals

/-- The operators on fractions have their standard meaning in both sorts. -/
theorem fraction_laws : (s : FractionSort) → FractionLaws (I.embed s) I.ofRat (I.fractions s)
  | .rational => I.rational_laws
  | .real => I.real_laws

theorem embed_injective : (s : FractionSort) → Function.Injective (I.embed s)
  | .rational => Function.injective_id
  | .real => I.ofRat_injective

/-- The operators on the domain of a type, if it is one of numbers. -/
def operations? : (A : Ty) → Option (I.domains.Operations (I.Of A))
  | .integer => some I.integers
  | .rational => some I.rationals
  | .real => some I.reals
  | _ => none

@[simp] theorem operations?_integer : I.operations? .integer = some I.integers := rfl

@[simp] theorem operations?_fraction (s : FractionSort) :
    I.operations? s.ty = some (I.fractions s) := by cases s <;> rfl

variable {I} in
/-- An operator on one number. -/
def unary (f : ∀ A, I.domains.Operations (I.Of A) → I.Of A → I.Value) :
    List I.Value → Option I.Value
  | [⟨A, x⟩] => (I.operations? A).map fun o => f A o x
  | _ => none

variable {I} in
/-- An operator on two numbers of one type. -/
def binary (f : ∀ A, I.domains.Operations (I.Of A) → I.Of A → I.Of A → I.Value) :
    List I.Value → Option I.Value
  | [⟨A, x⟩, w] => do return f A (← I.operations? A) x (← w.as? A)
  | _ => none

/-! ## Operators -/

/-- The values as truth values, if they are. -/
def truths? (vs : List I.Value) : Option (List Prop) := vs.mapM Domains.Value.truth?

/-- The value of a call. -/
def call? : I.Value → List I.Value → Option I.Value
  | ⟨.compound .func (result :: params), f⟩, vs =>
    (Domains.args? params vs).map fun args => ⟨result, I.apply f args⟩
  | _, _ => none

/-- The value of an operator on values, if it has a meaning on them. A
quantifier has none: it looks at more than a value. -/
def operate (op : Operator) (vs : List I.Value) : Option I.Value :=
  match op with
  | .universal | .existential => none
  | .and => (I.truths? vs).map fun ps => .truth (∀ p ∈ ps, p)
  | .or => (I.truths? vs).map fun ps => .truth (∃ p ∈ ps, p)
  | .not =>
    match I.truths? vs with
    | some [p] => some (.truth ¬ p)
    | _ => none
  | .equivalent =>
    match I.truths? vs with
    | some [p, q] => some (.truth (p ↔ q))
    | _ => none
  | .equals =>
    match vs with
    | [v, w] => if v.ty = w.ty then some (.truth (v = w)) else none
    | _ => none
  | .less => binary (fun _ o x y => .truth (o.less x y)) vs
  | .lessEquals => binary (fun _ o x y => .truth (o.lessEquals x y)) vs
  | .isInteger => unary (fun _ o x => .truth (o.isInteger x)) vs
  | .isRational => unary (fun _ o x => .truth (o.isRational x)) vs
  | .rounding r => unary (fun A o x => ⟨A, o.rounding r x⟩) vs
  | .negate => unary (fun A o x => ⟨A, o.negate x⟩) vs
  | .add => binary (fun A o x y => ⟨A, o.add x y⟩) vs
  | .subtract => binary (fun A o x y => ⟨A, o.subtract x y⟩) vs
  | .multiply => binary (fun A o x y => ⟨A, o.multiply x y⟩) vs
  | .divide => binary (fun A o x y => ⟨A, o.divide x y⟩) vs
  | .quotient c => binary (fun A o x y => ⟨A, o.quotient c x y⟩) vs
  | .remainder c => binary (fun A o x y => ⟨A, o.remainder c x y⟩) vs
  | .toInteger => unary (fun _ o x => .integer (o.toInteger x)) vs
  | .toRational => unary (fun _ o x => .rational (o.toRational x)) vs
  | .toReal => unary (fun _ o x => .real (o.toReal x)) vs
  | .call =>
    match vs with
    | f :: args => I.call? f args
    | [] => none

/-! ## Trees -/

/-- The value of a leaf. -/
def leaf (σ : I.Assignment) : Leaf → I.Value
  | .boolean b => .truth (b = true)
  | .integer n => .integer n
  | .fraction s q => ⟨s.ty, I.embed s q.toRat⟩
  | .object name => ⟨.individual, I.object name⟩
  | .var id A => ⟨A, σ (.var id A)⟩
  | .global id name A => ⟨A, σ (.global id name A)⟩
  | .function id name result params =>
    ⟨.func result params, σ (.function id name result params)⟩

/-- The meaning of a node, from the leaves that it lists behind the first
child and from the meanings of its children. -/
def node (op : Operator) (listed : List Leaf) (children : List I.Meaning) : I.Meaning := fun σ =>
  match op, children with
  | .universal, body :: _ =>
    some (.truth (∀ τ, AgreesOff listed σ τ → IsTrue (body τ)))
  | .existential, body :: _ =>
    some (.truth (∃ τ, AgreesOff listed σ τ ∧ IsTrue (body τ)))
  | op, children => (children.mapM fun child : I.Meaning => child σ).bind (I.operate op)

mutual

/-- The value of a tree under an assignment. -/
def value : Tree → I.Meaning
  | .leaf l => fun σ => some (I.leaf σ l)
  | .app op first rest => I.node op (rest.filterMap Tree.leaf?) (value first :: values rest)

/-- The values of trees. -/
def values : List Tree → List I.Meaning
  | [] => []
  | T :: Ts => value T :: values Ts

end

theorem values_eq_map (Ts : List Tree) : I.values Ts = Ts.map I.value := by
  induction Ts with
  | nil => rfl
  | cons T Ts ih => rw [values, ih, List.map_cons]

theorem value_leaf (l : Leaf) (σ : I.Assignment) : I.value (.leaf l) σ = some (I.leaf σ l) := by
  rw [value]

/-- The meaning of a node comes from the leaves that it lists and from the
meanings of its children. -/
theorem value_app (op : Operator) (first : Tree) (rest : List Tree) :
    I.value (.app op first rest) =
      I.node op (rest.filterMap Tree.leaf?) ((first :: rest).map I.value) := by
  rw [value, values_eq_map, List.map_cons]

end Interpretation

end TypedTerms
