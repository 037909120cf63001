import TypedTerms.Proofs.Folding.Follows
import TypedTerms.Proofs.Tree.FoldingRules
import TypedTerms.Proofs.Typing.Passes

/-!
# Folding keeps types

A rule of folding answers a tree of the type of the node, and a
well-typed one. To the operator above, what an operand folds to is like
the operand: of the same type, and the same leaf where the operand is a
leaf, so the operator still fits. Simplifying a well-typed tree therefore
keeps every contract and answers a well-typed tree of the same type.
-/

namespace TypedTerms

/-- To the operator above the second operand is like the first: of its
type, and the same leaf where the first is a leaf. -/
structure Operand.Keeps (x y : Operand) : Prop where
  ty : y.ty = x.ty
  leaf : ∀ l, x.leaf? = some l → y.leaf? = some l

/-- The two sorts of fractions have different types. -/
theorem FractionSort.ty_injective : Function.Injective FractionSort.ty := by
  intro s t h
  cases s with
  | rational => cases t with
    | rational => rfl
    | real => cases h
  | real => cases t with
    | rational => cases h
    | real => rfl

namespace Numeral

variable {a b c : Numeral}

@[simp] theorem ty_neg : a.neg.ty = a.ty := by cases a <;> rfl

@[simp] theorem ty_toFraction (s : FractionSort) : (a.toFraction s).ty = s.ty := by
  cases a <;> rfl

/-- What two numerals combine to has the type of the first. -/
theorem ty_of_combine? {int : Int → Int → Int} {frac : Fraction → Fraction → Fraction}
    (h : combine? int frac a b = some c) : c.ty = a.ty := by
  cases a <;> cases b <;> cases h <;> rfl

/-- A quotient has the type of the dividend. -/
theorem ty_of_divide? (h : a.divide? b = some c) : c.ty = a.ty := by
  cases a with
  | integer => cases h
  | fraction s p =>
    cases b with
    | integer => cases h
    | fraction =>
      obtain ⟨q, -, rfl⟩ := Option.map_eq_some_iff.mp h
      rfl

/-- Two numerals of one type are integers, or fractions of one sort. -/
theorem cases_of_ty (h : a.ty = b.ty) :
    (∃ m n, a = .integer m ∧ b = .integer n) ∨
      ∃ s p q, a = .fraction s p ∧ b = .fraction s q := by
  cases a with
  | integer m => cases b with
    | integer n => exact .inl ⟨m, n, rfl, rfl⟩
    | fraction t q => cases t <;> cases h
  | fraction s p => cases b with
    | integer n => cases s <;> cases h
    | fraction t q =>
      cases FractionSort.ty_injective h
      exact .inr ⟨s, p, q, rfl, rfl⟩

end Numeral

namespace Tree

variable {op : Operator} {T R x F : Tree} {rest Rs : List Tree} {P : Ty → Prop}

/-! ## Operands of one type -/

/-- Where one operand is asked for, it is the only one and has a type with
the property. -/
theorem exists_of_uniform_one (h : Uniform 1 P ((x :: rest).map operand)) :
    ∃ A, rest = [] ∧ P A ∧ x.ty = .ok A := by
  obtain ⟨hlen, A, hP, hall⟩ := uniform_iff.mp h
  exact ⟨A, List.length_eq_zero_iff.mp (Nat.succ.inj hlen), hP, hall x List.mem_cons_self⟩

/-- Where two operands are asked for, there is a second and no third, and
both are of one type with the property. -/
theorem exists_of_uniform_two (h : Uniform 2 P ((x :: rest).map operand)) :
    ∃ y A, rest = [y] ∧ P A ∧ x.ty = .ok A ∧ y.ty = .ok A := by
  obtain ⟨hlen, A, hP, hall⟩ := uniform_iff.mp h
  obtain ⟨y, rfl⟩ := List.length_eq_one_iff.mp (Nat.succ.inj hlen)
  exact ⟨y, A, rfl, hP, hall x (by simp), hall y (by simp)⟩

/-- Operands that are numerals of one type are just these two. -/
theorem numerals_of_uniform {a b : Numeral}
    (h : Uniform 2 P ((literal a :: literal b :: rest).map operand)) :
    rest = [] ∧ a.ty = b.ty := by
  obtain ⟨y, A, hrest, -, ha, hb⟩ := exists_of_uniform_two h
  cases hrest
  rw [ty_literal] at ha hb
  exact ⟨rfl, Except.ok.inj (ha.trans hb.symm)⟩

/-! ## One node -/

/-- A quotient with a second operand is never a broken contract. -/
theorem exists_foldDivide {s : Except Violation Tree} (h : ∃ y, s = .ok y) :
    ∃ o, foldDivide x s = .ok o := by
  obtain ⟨y, rfl⟩ := h
  unfold foldDivide
  cases x.fraction? with
  | none => exact ⟨none, rfl⟩
  | some q => exact ⟨_, rfl⟩

/-- A rule that asks for the type first answers where there is one. -/
theorem exists_of_ty {c : Ty → Prop} [DecidablePred c] {f g : Option Tree}
    (h : ∃ A, x.ty = .ok A) :
    ∃ o, (do if c (← x.ty) then return f else return g : Except Violation (Option Tree)) =
      .ok o := by
  obtain ⟨A, hA⟩ := h
  refine ⟨if c A then f else g, ?_⟩
  rw [hA]
  change (if c A then .ok f else .ok g : Except Violation (Option Tree)) = _
  split <;> rfl

/-- Where an operator fits, folding keeps every contract, also over other
operands, as many, of which the first has a type. -/
theorem exists_foldNode_of_fits {y : Tree} {ys : List Tree}
    (fits : op.Fits ((x :: rest).map operand)) (hty : ∀ A, x.ty = .ok A → ∃ B, y.ty = .ok B)
    (hlen : ys.length = rest.length) : ∃ o, foldNode op y ys = .ok o := by
  cases op with
  | equals | less | lessEquals | add | subtract | multiply | quotient | remainder =>
    obtain ⟨_, A, rfl, -⟩ := exists_of_uniform_two fits
    obtain ⟨z, rfl⟩ := List.length_eq_one_iff.mp hlen
    exact ⟨_, rfl⟩
  | divide =>
    obtain ⟨_, A, rfl, -⟩ := exists_of_uniform_two fits
    obtain ⟨z, rfl⟩ := List.length_eq_one_iff.mp hlen
    exact exists_foldDivide ⟨z, rfl⟩
  | toInteger | toRational | toReal | isInteger | isRational =>
    obtain ⟨A, -, -, hA⟩ := exists_of_uniform_one fits
    exact exists_of_ty (hty A hA)
  | _ => exact ⟨_, rfl⟩

theorem wellTyped_boolean (b : Bool) : (boolean b).WellTyped := .leaf trivial

theorem wellTyped_literal (n : Numeral) : (literal n).WellTyped := by
  cases n <;> exact .leaf trivial

theorem ty_of_firstOperand (h : op.resultRule = .firstOperand) :
    (app op x rest).ty = x.ty := by rw [ty, h]

theorem ty_of_always {A : Ty} (h : op.resultRule = .always A) :
    (app op x rest).ty = .ok A := by rw [ty, h]

theorem resultRule_conversion (s : FractionSort) : s.conversion.resultRule = .always s.ty := by
  cases s <;> rfl

/-- What a node folds to has the type of the node. -/
theorem Folds.ty (h : Folds op x rest R) : R.ty = (app op x rest).ty := by
  cases h with
  | negate => rw [ty_of_firstOperand rfl, ty_literal, ty_literal, Numeral.ty_neg]
  | add h | subtract h | multiply h =>
    rw [ty_of_firstOperand rfl, ty_literal, ty_literal, Numeral.ty_of_combine? h]
  | divide h => rw [ty_of_firstOperand rfl, ty_literal, ty_literal, Numeral.ty_of_divide? h]
  | ofSort h => rw [ty_of_always (resultRule_conversion _), h]
  | convert => rw [ty_of_always (resultRule_conversion _), ty_literal, Numeral.ty_toFraction]
  | ofInteger h => rw [ty_of_always rfl, h]
  | _ => rfl

/-- What a node folds to is well typed, being a literal or a child. -/
theorem Folds.wellTyped (h : Folds op x rest R) (hx : x.WellTyped) : R.WellTyped := by
  cases h with
  | ofInteger | ofSort => exact hx
  | same | different | less | lessEquals | integerType | isInteger | rationalType | isRational =>
    exact wellTyped_boolean _
  | _ => exact wellTyped_literal _

/-- Folding a node that keeps the contracts answers the node itself, or
what a rule makes of it. -/
theorem exists_refold (h : ∃ o, foldNode op x rest = .ok o) :
    ∃ R, refold op x rest = .ok R ∧ (R = app op x rest ∨ Folds op x rest R) := by
  obtain ⟨o, ho⟩ := h
  have hR : refold op x rest = .ok (o.getD (app op x rest)) := by
    rw [refold, ho]
    rfl
  cases o with
  | none => exact ⟨_, hR, .inl rfl⟩
  | some R => exact ⟨R, hR, .inr (folds_of_foldNode ho)⟩

/-! ## Whole trees -/

/-- A node whose children are simplified is simplified by folding it over
them. -/
theorem simplify_eq_refold {first : Tree}
    (h : List.Forall₂ (fun C D => C.simplify = .ok D) (first :: rest) (F :: Rs)) :
    (app op first rest).simplify = refold op F Rs := by
  obtain ⟨hfirst, hrest⟩ := List.forall₂_cons.mp h
  rw [simplify_app, hfirst, mapM_eq_pure hrest]
  rfl

/-- The type of a node is that of its first child, if its operator asks
for a child at all; of a call it is part of the head. -/
theorem ty_app_congr {first : Tree} (hty : F.ty = first.ty) (head : op = .call → F = first) :
    (app op F Rs).ty = (app op first rest).ty := by
  rw [ty, ty]
  cases hr : op.resultRule with
  | always A => rfl
  | firstOperand => exact hty
  | headResult => rw [head (resultRule_eq_headResult_iff.mp hr)]

/-- Over children that are like its own, a node has the type it has over
its own. -/
theorem ty_app_of_keeps {first : Tree} (fits : op.Fits ((first :: rest).map operand))
    (h : first.operand.Keeps F.operand) : (app op F Rs).ty = (app op first rest).ty := by
  apply ty_app_congr h.ty
  rintro rfl
  -- the head of a call is a function, and so the same leaf
  obtain ⟨id, name, result, params, rfl⟩ := exists_function_of_fits fits
  exact eq_leaf_of_leaf? (h.leaf _ rfl)

/-- What a well-typed tree is simplified to. -/
structure Simplified (T R : Tree) : Prop where
  simplify_eq : T.simplify = .ok R
  wellTyped : R.WellTyped
  keeps : T.operand.Keeps R.operand

/-- A leaf is simplified to itself. -/
theorem Simplified.eq_leaf {l : Leaf} (h : Simplified (.leaf l) R) : R = .leaf l :=
  eq_leaf_of_leaf? (h.keeps.leaf l rfl)

/-- Simplified trees have the types of the trees. -/
theorem map_ty_of_simplified {Ts : List Tree} (h : List.Forall₂ Simplified Ts Rs) :
    (Rs.map operand).map Operand.ty = (Ts.map operand).map Operand.ty := by
  induction h with
  | nil => rfl
  | cons hC _ ih => simp only [List.map_cons, hC.keeps.ty, ih]

/-- The variables of a quantifier are simplified to themselves. -/
theorem rest_eq_of_quantifier {first : Tree} (hop : op = .universal ∨ op = .existential)
    (fits : op.Fits ((first :: rest).map operand))
    (hrest : List.Forall₂ Simplified rest Rs) : Rs = rest := by
  have hvars := exists_var_of_fits hop fits
  clear fits
  induction hrest with
  | nil => rfl
  | cons hC _ ih =>
    obtain ⟨⟨l, rfl, -⟩, hbelow⟩ := List.forall_mem_cons.mp hvars
    rw [hC.eq_leaf, ih hbelow]

/-- A well-typed node, its children simplified: the operator fits over
what they are simplified to. -/
theorem WellTyped.rebuild {first : Tree} (h : (Tree.app op first rest).WellTyped)
    (hall : List.Forall₂ Simplified (first :: rest) (F :: Rs)) : (Tree.app op F Rs).WellTyped := by
  obtain ⟨fits, -⟩ := wellTyped_app_iff.mp h
  obtain ⟨hfirst, hrest⟩ := List.forall₂_cons.mp hall
  have hhead : op = .call → F.operand = first.operand := by
    rintro rfl
    obtain ⟨id, name, result, params, rfl⟩ := exists_function_of_fits fits
    rw [hfirst.eq_leaf]
  have hvars (hop : op = .universal ∨ op = .existential) : Rs.map operand = rest.map operand := by
    rw [rest_eq_of_quantifier hop fits hrest]
  refine .app (fits.congr (map_ty_of_simplified hall) hhead hvars) fun D hD => ?_
  obtain ⟨C, -, hC⟩ := exists_of_mem_left hall.flip hD
  exact hC.wellTyped

/-- A well-typed node whose children are simplified is simplified to the
node over them or to what that folds to. -/
theorem WellTyped.simplified_app {first : Tree} (h : (Tree.app op first rest).WellTyped)
    (hall : List.Forall₂ Simplified (first :: rest) (F :: Rs)) :
    ∃ R, Simplified (Tree.app op first rest) R ∧ (R = .app op F Rs ∨ Folds op F Rs R) := by
  have hwt := h.rebuild hall
  obtain ⟨fits, hchildren⟩ := wellTyped_app_iff.mp hwt
  obtain ⟨R, hR, hcases⟩ :=
    exists_refold (exists_foldNode_of_fits fits (fun A hA => ⟨A, hA⟩) rfl)
  have hsimplify := (simplify_eq_refold (hall.imp fun _ _ hC => hC.simplify_eq)).trans hR
  have hty : (Tree.app op F Rs).ty = (Tree.app op first rest).ty :=
    ty_app_of_keeps (wellTyped_app_iff.mp h).1 (List.forall₂_cons.mp hall).1.keeps
  refine ⟨R, ⟨hsimplify, ?_, ?_, fun l hl => nomatch hl⟩, hcases⟩
  · rcases hcases with rfl | hfolds
    · exact hwt
    · exact hfolds.wellTyped (hchildren F List.mem_cons_self)
  · rcases hcases with rfl | hfolds
    · exact hty
    · exact hfolds.ty.trans hty

/-- Simplifying a well-typed tree keeps every contract, and answers a
well-typed tree of the same type. -/
theorem WellTyped.exists_simplified (h : T.WellTyped) : ∃ R, Simplified T R := by
  induction T with
  | leaf l => exact ⟨.leaf l, rfl, h, rfl, fun _ hl => hl⟩
  | app op first rest ih =>
    obtain ⟨-, hchildren⟩ := wellTyped_app_iff.mp h
    obtain ⟨Ds, hall⟩ := exists_forall₂ fun C hC => ih C hC (hchildren C hC)
    cases hall with
    | cons hF hRs =>
      obtain ⟨R, hR, -⟩ := h.simplified_app (.cons hF hRs)
      exact ⟨R, hR⟩

end Tree

namespace TermStore

variable {st : TermStore} {t : TermId} {A : Ty}

/-- A term that passes its check stands for a well-typed tree, and is
simplified to a term for what the tree is simplified to. -/
theorem exists_simplified_of_check (h : (st.check t A).run = .ok (.ok ())) :
    ∃ T R r st', st.Denotes t T ∧ T.ty = .ok A ∧ T.WellTyped ∧ Tree.Simplified T R ∧
      (Build.simplify t).on st = (.ok r, st') ∧ st'.Denotes r R := by
  obtain ⟨T, hT, hty, hwt⟩ := check_eq_ok_iff.mp h
  obtain ⟨R, hR⟩ := hwt.exists_simplified
  obtain ⟨r, st', hrun, -, hden⟩ := Build.yields_simplify hT hR.simplify_eq
  exact ⟨T, R, r, st', hT, hty, hwt, hR, hrun, hden⟩

/-- Constant folding keeps well-typedness: a term that passes its check is
simplified without a broken contract, to a term that passes the same
check. -/
theorem check_simplify (h : (st.check t A).run = .ok (.ok ())) :
    ∃ r st', (Build.simplify t).on st = (.ok r, st') ∧
      (st'.check r A).run = .ok (.ok ()) := by
  obtain ⟨T, R, r, st', -, hty, -, hR, hrun, hden⟩ := exists_simplified_of_check h
  exact ⟨r, st', hrun, check_eq_ok_iff.mpr ⟨R, hden, hR.keeps.ty.trans hty, hR.wellTyped⟩⟩

/-- The formula `∀ x, x < round(5/2)` is folded below its quantifier. -/
theorem check_simplify_sample : (roundedSample.check ⟨4⟩ .bool).run = .ok (.ok ()) ∧
    ∃ r st', (Build.simplify ⟨4⟩).on roundedSample = (.ok r, st') ∧
      (st'.check r .bool).run = .ok (.ok ()) :=
  ⟨rfl, check_simplify rfl⟩

end TermStore

end TypedTerms
