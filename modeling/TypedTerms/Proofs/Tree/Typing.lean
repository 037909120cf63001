import TypedTerms.Proofs.Tree.Fold
import TypedTerms.Typing.Check

/-!
# Types of trees

The type of a tree, by the rules that derive the type of a term, and the
condition under which it exists at every node: a tree is well formed when
every call in it has a function at its head.

An `Instantiation` puts trees of the right type in the place of variables
and touches no other leaf. It keeps the type of every well-formed tree
(`ty_subst`), and with it the fact that trees of different types have no
common instance. An instantiation by well-formed trees keeps trees well
formed and may be followed by another (`Instantiation.comp`).
-/

namespace TypedTerms

namespace Tree

/-- The tag at the root. -/
def tag : Tree → Tag
  | .leaf l => .leaf l.tag
  | .app op _ _ => .operator op

/-- The type of a call with this head, which must be a function. -/
def callResult : Tree → Except Violation Ty
  | .leaf (.function _ _ result _) => .ok result
  | head => .error (.callHead head.tag)

/-- The type of a tree. A call whose head is not a function has none. -/
def ty : Tree → Except Violation Ty
  | .leaf l => .ok l.ty
  | .app op first _ =>
    match op.resultRule with
    | .always ty => .ok ty
    | .firstOperand => first.ty
    | .headResult => first.callResult

/-- Every call in the tree has a function at its head. -/
inductive WellFormed : Tree → Prop where
  | leaf (l : Leaf) : WellFormed (.leaf l)
  | app {op : Operator} {first : Tree} {rest : List Tree}
      (head : op = .call → ∃ id name result params,
        first = .leaf (.function id name result params))
      (children_wf : ∀ c ∈ first :: rest, WellFormed c) : WellFormed (.app op first rest)

/-- What stands below a well-formed tree is well formed. -/
theorem WellFormed.child {c t : Tree} (h : t.WellFormed) (hc : c ∈ t.children) :
    c.WellFormed := by
  cases h with
  | leaf l => cases hc
  | app _ hwf => exact hwf c hc

/-- Only a call has the result type of the function at its head. -/
theorem resultRule_eq_headResult_iff {op : Operator} :
    op.resultRule = .headResult ↔ op = .call := by
  cases op <;> simp [Operator.resultRule]

/-- A well-formed tree has a type; the only way not to have one is a call
without a function. -/
theorem WellFormed.exists_ty {t : Tree} (h : t.WellFormed) : ∃ A, t.ty = .ok A := by
  induction t with
  | leaf l => exact ⟨l.ty, rfl⟩
  | app op first rest ih =>
    cases h with
    | app head hwf =>
      cases hr : op.resultRule with
      | always A => exact ⟨A, by rw [ty, hr]⟩
      | firstOperand =>
        obtain ⟨A, hA⟩ := ih first List.mem_cons_self (hwf first List.mem_cons_self)
        exact ⟨A, by rw [ty, hr]; exact hA⟩
      | headResult =>
        obtain ⟨id, name, result, params, rfl⟩ := head (resultRule_eq_headResult_iff.mp hr)
        exact ⟨result, by rw [ty, hr, callResult]⟩

/-- A substitution that touches variables only, and keeps the types of
the leaves that stand in a well-formed tree, keeps the type of the
tree. -/
theorem WellFormed.ty_subst {θ : Leaf → Tree} {t : Tree} (h : t.WellFormed)
    (fixed : ∀ l, l.isVar = false → θ l = .leaf l)
    (hty : ∀ l ∈ t.leaves, (θ l).ty = .ok l.ty) : (t.subst θ).ty = t.ty := by
  induction t with
  | leaf l => exact hty l (mem_leaves_leaf.mpr rfl)
  | app op first rest ih =>
    rw [subst_app]
    cases h with
    | app head hwf =>
      cases hr : op.resultRule with
      | always A => rw [ty, hr, ty, hr]
      | firstOperand =>
        rw [ty, hr, ty, hr]
        apply ih first List.mem_cons_self (hwf first List.mem_cons_self)
        intro l hl
        exact hty l (mem_leaves_app.mpr ⟨first, List.mem_cons_self, hl⟩)
      | headResult =>
        -- the head of a call is a function, which the substitution does not touch
        obtain ⟨id, name, result, params, rfl⟩ := head (resultRule_eq_headResult_iff.mp hr)
        rw [subst_leaf, fixed _ rfl]
        rfl

/-- A substitution of well-formed trees for variables makes a well-formed
tree of a well-formed tree. -/
theorem WellFormed.subst {θ : Leaf → Tree} {t : Tree} (h : t.WellFormed)
    (fixed : ∀ l, l.isVar = false → θ l = .leaf l)
    (hwf : ∀ l ∈ t.leaves, (θ l).WellFormed) : (t.subst θ).WellFormed := by
  induction t with
  | leaf l => exact hwf l (mem_leaves_leaf.mpr rfl)
  | app op first rest ih =>
    rw [subst_app]
    cases h with
    | app head hchild =>
      constructor
      · intro hop
        obtain ⟨id, name, result, params, rfl⟩ := head hop
        exact ⟨id, name, result, params, fixed _ rfl⟩
      · rw [← List.map_cons, List.forall_mem_map]
        intro c hc
        apply ih c hc (hchild c hc)
        intro l hl
        exact hwf l (mem_leaves_app.mpr ⟨c, hc, hl⟩)

end Tree

/-- A tree for every variable, of the type of the variable. Other leaves
stand for themselves. -/
structure Instantiation where
  /-- What stands in the place of a leaf. -/
  image : Leaf → Tree
  image_of_not_var : ∀ l, l.isVar = false → image l = .leaf l
  ty_image : ∀ l, (image l).ty = .ok l.ty

namespace Instantiation

/-- The instantiation by a map of variables that keeps types. -/
def ofVar (f : Nat → Ty → Tree) (hf : ∀ id A, (f id A).ty = .ok A) : Instantiation where
  image
    | .var id A => f id A
    | l => .leaf l
  image_of_not_var l hl := by cases l <;> first | rfl | cases hl
  ty_image l := by cases l <;> first | rfl | exact hf _ _

/-- Instantiation keeps the type of a well-formed tree. -/
theorem ty_subst (θ : Instantiation) {t : Tree} (h : t.WellFormed) :
    (t.subst θ.image).ty = t.ty := by
  apply h.ty_subst θ.image_of_not_var
  intro l _
  exact θ.ty_image l

/-- Every variable is given a well-formed tree. -/
def WellFormed (θ : Instantiation) : Prop := ∀ l, (θ.image l).WellFormed

/-- Putting well-formed trees of the types of the leaves into a well-formed
tree makes a well-formed tree. -/
theorem WellFormed.subst {θ : Instantiation} (hθ : θ.WellFormed) {t : Tree} (h : t.WellFormed) :
    (t.subst θ.image).WellFormed := by
  apply h.subst θ.image_of_not_var
  intro l _
  exact hθ l

/-- One instantiation after another. -/
def comp (θ η : Instantiation) (hθ : θ.WellFormed) : Instantiation where
  image l := (θ.image l).subst η.image
  image_of_not_var l hl := by
    rw [θ.image_of_not_var l hl, Tree.subst_leaf]
    exact η.image_of_not_var l hl
  ty_image l := (η.ty_subst (hθ l)).trans (θ.ty_image l)

end Instantiation

end TypedTerms
