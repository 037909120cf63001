/-!
# Types of terms

A type is one of five atomic sorts, or a compound of a kind and a list
of element types. Function signatures are the compounds of kind `func`:
element 0 is the result, the rest are the parameters in order.

A compound may carry the kind of an atomic sort as well, and may have no
elements. `Ty.bool` and the compound of kind `bool` without elements are
two types.
-/

namespace TypedTerms

/-- The sort a type belongs to. -/
inductive Kind where
  | bool
  | individual
  | integer
  | rational
  | real
  | func
  deriving DecidableEq, Repr, Hashable, Ord

/-- A type of terms. -/
inductive Ty where
  | bool
  | individual
  | integer
  | rational
  | real
  | compound (kind : Kind) (elements : List Ty)
  deriving Repr

namespace Ty

/-! ## Equality

Compounds nest through lists, so the comparison has a companion on
lists. -/

mutual

/-- Decides whether two types are the same. -/
def decEq : (a b : Ty) → Decidable (a = b)
  | .bool, .bool => .isTrue rfl
  | .individual, .individual => .isTrue rfl
  | .integer, .integer => .isTrue rfl
  | .rational, .rational => .isTrue rfl
  | .real, .real => .isTrue rfl
  | .compound k as, .compound l bs =>
    if hk : k = l then
      match decEqList as bs with
      | .isTrue h => .isTrue (by rw [hk, h])
      | .isFalse h => .isFalse (by simp [h])
    else .isFalse (by simp [hk])
  | .bool, .individual | .bool, .integer | .bool, .rational | .bool, .real
  | .bool, .compound _ _ => .isFalse nofun
  | .individual, .bool | .individual, .integer | .individual, .rational | .individual, .real
  | .individual, .compound _ _ => .isFalse nofun
  | .integer, .bool | .integer, .individual | .integer, .rational | .integer, .real
  | .integer, .compound _ _ => .isFalse nofun
  | .rational, .bool | .rational, .individual | .rational, .integer | .rational, .real
  | .rational, .compound _ _ => .isFalse nofun
  | .real, .bool | .real, .individual | .real, .integer | .real, .rational
  | .real, .compound _ _ => .isFalse nofun
  | .compound _ _, .bool | .compound _ _, .individual | .compound _ _, .integer
  | .compound _ _, .rational | .compound _ _, .real => .isFalse nofun

/-- Decides whether two lists of types are the same. -/
def decEqList : (as bs : List Ty) → Decidable (as = bs)
  | [], [] => .isTrue rfl
  | [], _ :: _ => .isFalse nofun
  | _ :: _, [] => .isFalse nofun
  | a :: as, b :: bs =>
    match decEq a b with
    | .isFalse h => .isFalse (by simp [h])
    | .isTrue h =>
      match decEqList as bs with
      | .isTrue hs => .isTrue (by rw [h, hs])
      | .isFalse hs => .isFalse (by simp [hs])

end

instance : DecidableEq Ty := decEq

mutual

/-- A hash that equal types share. -/
def hash : Ty → UInt64
  | .bool => 11
  | .individual => 13
  | .integer => 17
  | .rational => 19
  | .real => 23
  | .compound k es => mixHash (Hashable.hash k) (hashList es)

/-- A hash that equal lists of types share. -/
def hashList : List Ty → UInt64
  | [] => 7
  | t :: ts => mixHash t.hash (hashList ts)

end

instance : Hashable Ty := ⟨hash⟩

/-! ## Parts of a type -/

/-- The signature of a function from `params` to `result`. -/
def func (result : Ty) (params : List Ty) : Ty := .compound .func (result :: params)

def kind : Ty → Kind
  | .bool => .bool
  | .individual => .individual
  | .integer => .integer
  | .rational => .rational
  | .real => .real
  | .compound k _ => k

/-- The element types, none for an atomic type. -/
def elements : Ty → List Ty
  | .compound _ es => es
  | _ => []

def size (t : Ty) : Nat := t.elements.length

/-- A property that types take over from their elements holds of every
type. -/
@[elab_as_elim]
theorem ind {motive : Ty → Prop} (node : ∀ t : Ty, (∀ e ∈ t.elements, motive e) → motive t)
    (t : Ty) : motive t :=
  have atomic {t : Ty} (h : t.elements = []) : motive t := node t (h ▸ List.forall_mem_nil motive)
  @Ty.rec motive (fun es => ∀ e ∈ es, motive e) (atomic rfl) (atomic rfl) (atomic rfl)
    (atomic rfl) (atomic rfl) (fun k es ih => node (.compound k es) ih)
    (List.forall_mem_nil motive)
    (fun _ _ ihHead ihTail => List.forall_mem_cons.mpr ⟨ihHead, ihTail⟩)
    t

/-- Are there no element types? -/
def isEmpty (t : Ty) : Bool := t.elements.isEmpty

/-- Is it one of the three sorts of numbers? A compound never is. -/
def isNumeric : Ty → Bool
  | .integer | .rational | .real => true
  | _ => false

end Ty

/-!
## The text of a type

An atomic type is written as its name, a compound as the name of its
kind and the elements in brackets: `Func[Bool, Real]`, `Func[]`.
-/

def Kind.name : Kind → String
  | .bool => "Bool"
  | .individual => "Individual"
  | .integer => "Integer"
  | .rational => "Rational"
  | .real => "Real"
  | .func => "Func"

namespace Ty

mutual

def text : Ty → String
  | .compound k es => k.name ++ "[" ++ textList es ++ "]"
  | .bool => Kind.bool.name
  | .individual => Kind.individual.name
  | .integer => Kind.integer.name
  | .rational => Kind.rational.name
  | .real => Kind.real.name

def textList : List Ty → String
  | [] => ""
  | [t] => t.text
  | t :: ts => t.text ++ ", " ++ textList ts

end

end Ty

end TypedTerms
