import TypedTerms.Ty.Text

/-!
# The order of types

Types compare by kind, then by the number of elements, then element by
element. An atomic type counts as having no elements, so it compares
equal to the empty compound of its kind, from which it differs. The
order is a preorder for sorting; it says nothing about subtypes.
-/

namespace TypedTerms.Ty

mutual

/-- Compares two types by kind, element count and elements. -/
def order : Ty → Ty → Ordering
  | .compound k as, .compound l bs =>
    ((compare k l).then (compare as.length bs.length)).then (orderList as bs)
  | .compound k as, b => (compare k b.kind).then (compare as.length 0)
  | a, .compound l bs => (compare a.kind l).then (compare 0 bs.length)
  | a, b => compare a.kind b.kind

/-- Compares two lists of types at the first place where they differ; a
list comes after its proper beginnings. -/
def orderList : List Ty → List Ty → Ordering
  | [], [] => .eq
  | [], _ :: _ => .lt
  | _ :: _, [] => .gt
  | a :: as, b :: bs => (order a b).then (orderList as bs)

end

instance : Ord Ty := ⟨order⟩

/-- The comparison in one equation, whether the types are atomic or
compound. -/
theorem order_eq (a b : Ty) :
    order a b = ((compare a.kind b.kind).then (compare a.size b.size)).then
      (orderList a.elements b.elements) := by
  have left (o : Ordering) (es : List Ty) :
      (o.then (compare 0 es.length)).then (orderList [] es) = o.then (compare 0 es.length) := by
    cases es <;> cases o <;> rfl
  have right (o : Ordering) (es : List Ty) :
      (o.then (compare es.length 0)).then (orderList es []) = o.then (compare es.length 0) := by
    cases es <;> cases o <;> rfl
  cases a <;> cases b <;>
    simp [order, kind, size, elements, left, right, orderList]

/-- The types in ascending order, those that compare equal in the order
given. -/
def sort (ts : List Ty) : List Ty := ts.mergeSort fun a b => compare a b != .gt

end TypedTerms.Ty
