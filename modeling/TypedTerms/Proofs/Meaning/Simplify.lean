import TypedTerms.Proofs.Meaning.Folding
import Mathlib.Algebra.Order.Archimedean.Real.Basic

/-!
# Simplifying keeps the meaning

A well-typed tree and what it is simplified to have the same value, in
every interpretation and under every assignment: the children are
simplified first and keep their values, and folding the node over them
keeps its value. Of a term this says that simplifying it changes nothing
that any interpretation could see (`hasValue_simplify`).
-/

/-!
## The standard interpretation

The real numbers as the real numbers, and the names as the individuals.
Its operators are those of an ordered field, so one definition serves the
rational numbers and the real numbers. What an interpretation may choose
is chosen to be zero.
-/

namespace TypedTerms

namespace Interpretation

section Field

variable {K R : Type} [Field K] [LinearOrder K]

open Classical in
/-- The rational number that a number is, and zero for an irrational one. -/
noncomputable def rationalPart (x : K) : ℚ := if h : ∃ a : ℚ, (a : K) = x then h.choose else 0

/-- The operators of an ordered field. -/
noncomputable def fieldOperations {D : Domains} (toReal : K → D.Real) : D.Operations K where
  less x y := x < y
  lessEquals x y := x ≤ y
  negate x := -x
  add x y := x + y
  subtract x y := x - y
  multiply x y := x * y
  divide x y := x / y
  quotient _ _ _ := 0
  remainder _ _ _ := 0
  rounding r x := ((Fraction.ofRat (rationalPart x)).toInt r : ℤ)
  isInteger x := ∃ n : ℤ, (n : K) = x
  isRational x := ∃ a : ℚ, (a : K) = x
  toInteger x := ⌊rationalPart x⌋
  toRational := rationalPart
  toReal := toReal

variable [IsStrictOrderedRing K]

/-- The rational part of a rational number is the number. -/
theorem rationalPart_cast (a : ℚ) : rationalPart (a : K) = a := by
  have h : ∃ b : ℚ, (b : K) = a := ⟨a, rfl⟩
  rw [rationalPart, dif_pos h]
  exact Rat.cast_injective h.choose_spec

/-- The rational numbers in an ordered field have their standard
operators. -/
theorem fieldOperations_laws {D : Domains} (toReal : K → D.Real) :
    FractionLaws (fun a : ℚ => (a : K)) (fun a => toReal a) (fieldOperations toReal) where
  less _ _ := Rat.cast_lt
  lessEquals _ _ := Rat.cast_le
  negate a := (Rat.cast_neg a).symm
  add a b := (Rat.cast_add a b).symm
  subtract a b := (Rat.cast_sub a b).symm
  multiply a b := (Rat.cast_mul a b).symm
  divide a b _ := (Rat.cast_div a b).symm
  rounding r a n h := by
    have hrounds := Fraction.rounds_toInt r (.ofRat a)
    rw [Fraction.toRat_ofRat] at hrounds
    simp only [fieldOperations, rationalPart_cast, hrounds.unique h, Rat.cast_intCast]
  isInteger x := by simp only [fieldOperations, Rat.cast_intCast]
  isRational _ := Iff.rfl
  toInteger a := congrArg Int.floor (rationalPart_cast a)
  toRational a := rationalPart_cast a
  toReal _ := rfl

end Field

/-- Names for individuals and for the values of compound types, and the
real numbers. -/
def standardDomains : Domains where
  Carrier := fun _ => Symbol
  Real := ℝ

/-- The operators on integers. -/
def integerOperations : standardDomains.Operations ℤ where
  less a b := a < b
  lessEquals a b := a ≤ b
  negate a := -a
  add a b := a + b
  subtract a b := a - b
  multiply a b := a * b
  divide _ _ := 0
  quotient c := c.standardQuotient
  remainder c := c.standardRemainder
  rounding _ a := a
  isInteger _ := True
  isRational _ := True
  toInteger a := a
  toRational a := a
  toReal a := (a : ℝ)

/-- The integers have the standard operators. -/
theorem integerOperations_laws :
    IntegerLaws (fun a : ℚ => (a : ℝ)) integerOperations where
  less _ _ := Iff.rfl
  lessEquals _ _ := Iff.rfl
  negate _ := rfl
  add _ _ := rfl
  subtract _ _ := rfl
  multiply _ _ := rfl
  quotient _ _ _ _ := rfl
  remainder _ _ _ _ := rfl
  rounding _ _ := rfl
  isInteger _ := trivial
  isRational _ := trivial
  toInteger _ := rfl
  toRational _ := rfl
  toReal a := ((Rat.cast_intCast a).symm : (a : ℝ) = ((a : ℚ) : ℝ))

/-- A value of each type. -/
noncomputable def zero : (A : Ty) → standardDomains.Of A
  | .bool => False
  | .integer => (0 : ℤ)
  | .rational => (0 : ℚ)
  | .real => (0 : ℝ)
  | .individual => (⟨0⟩ : Symbol)
  | .compound _ _ => (⟨0⟩ : Symbol)

/-- Every function is zero everywhere. -/
noncomputable def standard : Interpretation where
  domains := standardDomains
  ofRat := fun a => (a : ℝ)
  ofRat_injective := (Rat.cast_injective : Function.Injective (Rat.cast : ℚ → ℝ))
  integers := integerOperations
  rationals := fieldOperations (D := standardDomains) fun a : ℚ => (a : ℝ)
  reals := fieldOperations (K := ℝ) (D := standardDomains) id
  integer_laws := integerOperations_laws
  rational_laws := fieldOperations_laws (D := standardDomains) fun a : ℚ => (a : ℝ)
  real_laws := fieldOperations_laws (K := ℝ) (D := standardDomains) id
  toReal_real := fun _ => rfl
  object := id
  object_injective := Function.injective_id
  apply := fun _ _ => zero _

/-- Every variable, global and function is zero. -/
noncomputable def standardAssignment : standard.Assignment := fun l => zero l.ty

/-! ## Simplified terms -/

variable (I : Interpretation) {op : Operator} {first F T R : Tree} {rest Rs : List Tree}

theorem map_value_eq {Ts Us : List Tree}
    (h : List.Forall₂ (fun C D => I.value D = I.value C) Ts Us) :
    Us.map I.value = Ts.map I.value := by
  induction h with
  | nil => rfl
  | cons hC _ ih => rw [List.map_cons, List.map_cons, hC, ih]

/-- A node over simplified children has the value of the node. -/
theorem value_rebuild (hwt : (Tree.app op first rest).WellTyped)
    (hall : List.Forall₂ Tree.Simplified (first :: rest) (F :: Rs))
    (hvalue : List.Forall₂ (fun C D => I.value D = I.value C) (first :: rest) (F :: Rs)) :
    I.value (.app op F Rs) = I.value (.app op first rest) := by
  rw [value_app, value_app, I.map_value_eq hvalue]
  by_cases hop : op.operandRule = .binding
  · have fits := (Tree.wellTyped_app_iff.mp hwt).1
    rw [Tree.rest_eq_of_quantifier (Operator.operandRule_eq_binding_iff.mp hop) fits
      (List.forall₂_cons.mp hall).2]
  · funext σ
    rw [I.node_eq_operate hop, I.node_eq_operate hop]

/-- A well-typed tree is simplified to one of the same value. -/
theorem value_of_simplified (hwt : T.WellTyped) (hR : Tree.Simplified T R) :
    I.value R = I.value T := by
  induction T generalizing R with
  | leaf l =>
    cases hR.simplify_eq
    rfl
  | app op first rest ih =>
    have hchildren := (Tree.wellTyped_app_iff.mp hwt).2
    obtain ⟨Ds, hDs⟩ := exists_forall₂ fun C hC => (hchildren C hC).exists_simplified
    cases hDs with
    | @cons _ F _ Rs hF hRs =>
      have hall : List.Forall₂ Tree.Simplified (first :: rest) (F :: Rs) := .cons hF hRs
      have hvalue : List.Forall₂ (fun C D => I.value D = I.value C) (first :: rest) (F :: Rs) := by
        refine forall₂_imp_of_mem hall fun C hC D _ hD => ?_
        exact ih C hC (hchildren C hC) hD
      obtain ⟨R', hR', hcases⟩ := hwt.simplified_app hall
      cases hR'.simplify_eq.symm.trans hR.simplify_eq
      have hnode := I.value_rebuild hwt hall hvalue
      rcases hcases with rfl | hfolds
      · exact hnode
      · exact (funext (I.value_of_folds hfolds (hwt.rebuild hall))).trans hnode

end Interpretation

namespace TermStore

variable {st : TermStore} {t : TermId} {A : Ty}

/-- The term has the value, under an assignment of an interpretation. -/
def HasValue (st : TermStore) {I : Interpretation} (σ : I.Assignment) (t : TermId)
    (v : I.Value) : Prop := ∃ T, st.Denotes t T ∧ I.value T σ = some v

/-- A term has one value at most under an assignment. -/
theorem HasValue.unique {I : Interpretation} {σ : I.Assignment} {v w : I.Value}
    (hv : st.HasValue σ t v) (hw : st.HasValue σ t w) : v = w := by
  obtain ⟨T, hT, hv⟩ := hv
  obtain ⟨U, hU, hw⟩ := hw
  cases denotes_unique hT hU
  exact Option.some.inj (hv.symm.trans hw)

/-- Constant folding keeps the meaning. A term that passes its check is
simplified without a broken contract, and in every interpretation, under
every assignment, both terms have the same value, which is of the checked
type. -/
theorem hasValue_simplify (h : (st.check t A).run = .ok (.ok ())) :
    ∃ r st', (Build.simplify t).on st = (.ok r, st') ∧
      ∀ (I : Interpretation) (σ : I.Assignment), ∃ a : I.Of A,
        st.HasValue σ t ⟨A, a⟩ ∧ st'.HasValue σ r ⟨A, a⟩ := by
  obtain ⟨T, R, r, st', hT, hty, hwt, hR, hrun, hden⟩ := exists_simplified_of_check h
  refine ⟨r, st', hrun, fun I σ => ?_⟩
  obtain ⟨a, ha⟩ := I.exists_value_of_ty hwt hty σ
  exact ⟨a, ⟨T, hT, ha⟩, ⟨R, hden, by rw [I.value_of_simplified hwt hR, ha]⟩⟩

/-- Over the real numbers, `∀ x, x < round(5/2)` and what it is simplified
to have the same truth value. -/
theorem hasValue_simplify_sample :
    (roundedSample.check ⟨4⟩ .bool).run = .ok (.ok ()) ∧
      ∃ r st', (Build.simplify ⟨4⟩).on roundedSample = (.ok r, st') ∧
        ∃ a : Interpretation.standard.Of .bool,
          roundedSample.HasValue Interpretation.standardAssignment ⟨4⟩ ⟨.bool, a⟩ ∧
            st'.HasValue Interpretation.standardAssignment r ⟨.bool, a⟩ := by
  have hcheck : (roundedSample.check ⟨4⟩ .bool).run = .ok (.ok ()) := rfl
  refine ⟨hcheck, ?_⟩
  obtain ⟨r, st', hrun, h⟩ := hasValue_simplify hcheck
  exact ⟨r, st', hrun, h .standard Interpretation.standardAssignment⟩

end TermStore

end TypedTerms
