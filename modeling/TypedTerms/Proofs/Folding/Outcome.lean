import TypedTerms.Proofs.Folding.Typed
import TypedTerms.Proofs.Fraction.Rounded

/-!
# Calculations are carried out

A calculation is a term without names, variables and formulas: literal
numbers, put together by the numeric operators, in which nothing is
divided by zero. Its outcome is said here in rational numbers, whose
integers and fractions of both sorts are one kind of number
(`Tree.outcome?`). A well-typed calculation is simplified to the literal
of its outcome (`simplify_calculable`).

So no operator is left standing. An operator over literals of the types
that it asks for always folds, and makes the literal of what it makes of
the numbers (`exists_folds`), and with that the operators above it stand
over literals in turn.
-/

namespace TypedTerms

/-! ## Numerals as rational numbers -/

namespace Numeral

variable {a b : Numeral}

/-- The number that a numeral is. -/
def toRat : Numeral → ℚ
  | .integer n => n
  | .fraction _ q => q.toRat

@[simp] theorem toRat_integer (n : Int) : (integer n).toRat = n := rfl

@[simp] theorem toRat_fraction (s : FractionSort) (q : Fraction) :
    (fraction s q).toRat = q.toRat := rfl

@[simp] theorem toRat_neg (a : Numeral) : a.neg.toRat = -a.toRat := by
  cases a with
  | integer n => exact Int.cast_neg n
  | fraction s q => exact Fraction.toRat_neg q

/-- A numeral converted to a fraction is the same number. -/
@[simp] theorem toRat_toFraction (s : FractionSort) (a : Numeral) :
    (a.toFraction s).toRat = a.toRat := by
  cases a with
  | integer n => exact Fraction.toRat_ofInt n
  | fraction => rfl

/-- A numeral is known by its type and its number. -/
theorem eq_of_toRat (hty : a.ty = b.ty) (h : a.toRat = b.toRat) : a = b := by
  rcases cases_of_ty hty with ⟨m, n, rfl, rfl⟩ | ⟨s, p, q, rfl, rfl⟩
  · rw [Int.cast_injective h]
  · rw [Fraction.toRat_injective h]

/-- Numerals of one type compare as the rational numbers that they are. -/
theorem compare?_eq (hty : a.ty = b.ty) : a.compare? b = some (compare a.toRat b.toRat) := by
  rcases cases_of_ty hty with ⟨m, n, rfl, rfl⟩ | ⟨s, p, q, rfl, rfl⟩
  · have hcast : compare (m : ℚ) n = compare m n := by
      rw [← cmp_eq_compare, ← cmp_eq_compare]
      exact Int.cast_strictMono.cmp_map_eq m n
    exact congrArg some hcast.symm
  · exact congrArg some (Fraction.compare_eq_compare_toRat p q)

/-- Numerals of one type are combined, to the number that an operation
makes of their numbers if it makes it of integers and of fractions. -/
theorem exists_combine? {int : Int → Int → Int} {frac : Fraction → Fraction → Fraction}
    {f : ℚ → ℚ → ℚ} (hint : ∀ m n, (int m n : ℚ) = f m n)
    (hfrac : ∀ p q, (frac p q).toRat = f p.toRat q.toRat) (hty : a.ty = b.ty) :
    ∃ c, combine? int frac a b = some c ∧ c.toRat = f a.toRat b.toRat := by
  rcases cases_of_ty hty with ⟨m, n, rfl, rfl⟩ | ⟨s, p, q, rfl, rfl⟩
  · exact ⟨_, rfl, hint m n⟩
  · exact ⟨_, rfl, hfrac p q⟩

/-- Fractions of one sort are divided when the divisor is not zero, and
exactly. -/
theorem exists_divide? (ha : a.ty = .rational ∨ a.ty = .real) (hty : a.ty = b.ty)
    (hb : b.toRat ≠ 0) : ∃ c, a.divide? b = some c ∧ c.toRat = a.toRat / b.toRat := by
  rcases cases_of_ty hty with ⟨m, n, rfl, rfl⟩ | ⟨s, p, q, rfl, rfl⟩
  · exact absurd ha (by rintro (h | h) <;> cases h)
  · obtain ⟨r, hr, hrat⟩ := Fraction.exists_divide?_eq_ok (a := p) (mt Fraction.eq_zero_iff.mp hb)
    refine ⟨.fraction s r, ?_, hrat⟩
    rw [divide?, hr]
    rfl

theorem exists_integer (h : a.ty = .integer) : ∃ n, a = .integer n := by
  cases a with
  | integer n => exact ⟨n, rfl⟩
  | fraction s q => cases s <;> cases h

theorem exists_fraction (h : a.ty = .rational ∨ a.ty = .real) : ∃ s q, a = .fraction s q := by
  cases a with
  | integer n => exact absurd h (by rintro (h | h) <;> cases h)
  | fraction s q => exact ⟨s, q, rfl⟩

end Numeral

/-! ## Outcomes -/

/-- What a calculation comes to. -/
inductive Outcome where
  | truth (b : Bool)
  | number (q : ℚ)
  deriving DecidableEq

/-- The number, if the outcome is one. -/
def Outcome.number? : Outcome → Option ℚ
  | .truth _ => none
  | .number q => some q

/-- What an operator makes of numbers, if it makes anything of them. -/
def Operator.outcome? : Operator → List ℚ → Option Outcome
  | .negate, [a] => some (.number (-a))
  | .toInteger, [a] => some (.number ⌊a⌋)
  | .toRational, [a] | .toReal, [a] => some (.number a)
  | .rounding r, [a] => some (.number (r.rounded a))
  | .isInteger, [a] => some (.truth a.isInt)
  | .isRational, [_] => some (.truth true)
  | .equals, [a, b] => some (.truth (a = b))
  | .less, [a, b] => some (.truth (a < b))
  | .lessEquals, [a, b] => some (.truth (a ≤ b))
  | .add, [a, b] => some (.number (a + b))
  | .subtract, [a, b] => some (.number (a - b))
  | .multiply, [a, b] => some (.number (a * b))
  | .divide, [a, b] => if b = 0 then none else some (.number (a / b))
  | .quotient c, [a, b] => if b = 0 then none else some (.number ((c.rounding b).rounded (a / b)))
  | .remainder c, [a, b] =>
    if b = 0 then none else some (.number (a - (c.rounding b).rounded (a / b) * b))
  | _, _ => none

/-- The outcome that a literal is. -/
def Leaf.outcome? : Leaf → Option Outcome
  | .boolean b => some (.truth b)
  | .integer n => some (.number n)
  | .fraction _ q => some (.number q.toRat)
  | _ => none

/-- The operator calculates with numbers of this type: divisions with
remainder are for integers, and roundings are for fractions. -/
def Operator.Calculates (op : Operator) (A : Ty) : Prop :=
  match op with
  | .negate | .add | .subtract | .multiply | .divide | .toInteger | .toRational | .toReal
  | .less | .lessEquals | .equals | .isInteger | .isRational => True
  | .quotient _ | .remainder _ => A = .integer
  | .rounding _ => A = .rational ∨ A = .real
  | .universal | .existential | .and | .or | .not | .equivalent | .call => False

/-- The operator divides by its second operand. -/
def Operator.Divides (op : Operator) : Prop :=
  match op with
  | .divide | .quotient _ | .remainder _ => True
  | _ => False

namespace Tree

variable {op : Operator} {T R first : Tree} {rest : List Tree} {a b : Numeral}
  {bs : List Numeral} {A : Ty} {P : Ty → Prop}

/-- The outcome of the calculation that a tree is, if it is one. -/
def outcome? : Tree → Option Outcome :=
  fold Leaf.outcome? fun op first rest => do
    op.outcome? (← (first :: rest).mapM (· >>= Outcome.number?))

/-- The tree is a calculation, in which no divisor is zero. -/
inductive Calculable : Tree → Prop where
  | integer (n : Int) : Calculable (.leaf (.integer n))
  | fraction (s : FractionSort) (q : Fraction) : Calculable (.leaf (.fraction s q))
  | app {op : Operator} {first : Tree} {rest : List Tree} {A : Ty} (ty : first.ty = .ok A)
    (calculates : op.Calculates A)
    (divisor : op.Divides → ∀ D ∈ rest, D.outcome? ≠ some (.number 0))
    (children : ∀ C ∈ first :: rest, Calculable C) : Calculable (.app op first rest)

namespace Calculable

variable {x y : Tree}

/-- An operator over one calculation is a calculation. -/
theorem one (ty : x.ty = .ok A) (calculates : op.Calculates A) (hx : x.Calculable) :
    (Tree.app op x []).Calculable :=
  .app ty calculates (fun _ => nofun) (List.forall_mem_singleton.mpr hx)

/-- An operator over two calculations is a calculation, if it divides by
nothing that comes to zero. -/
theorem two (ty : x.ty = .ok A) (calculates : op.Calculates A)
    (divisor : op.Divides → y.outcome? ≠ some (.number 0)) (hx : x.Calculable)
    (hy : y.Calculable) : (Tree.app op x [y]).Calculable :=
  .app ty calculates (fun hop => List.forall_mem_singleton.mpr (divisor hop))
    (List.forall_mem_cons.mpr ⟨hx, List.forall_mem_singleton.mpr hy⟩)

end Calculable

/-- The tree is a literal of the outcome. -/
def IsLiteral (T : Tree) (v : Outcome) : Prop := ∃ l, T = .leaf l ∧ l.outcome? = some v

theorem isLiteral_boolean (b : Bool) : (boolean b).IsLiteral (.truth b) := ⟨_, rfl, rfl⟩

/-- The literal of a test has the truth of what is tested for its outcome.
-/
theorem isLiteral_of_iff {b : Bool} {p : Prop} [Decidable p] (h : b = true ↔ p) :
    (boolean b).IsLiteral (.truth p) := by
  rw [← Bool.decide_congr h, Bool.decide_eq_true]
  exact isLiteral_boolean b

theorem isLiteral_literal (n : Numeral) : (literal n).IsLiteral (.number n.toRat) := by
  cases n <;> exact ⟨_, rfl, rfl⟩

/-- A literal that is not a truth value is a numeral. -/
theorem IsLiteral.exists_numeral {v : Outcome} (h : T.IsLiteral v) (hty : T.ty ≠ .ok .bool) :
    ∃ n, T = literal n ∧ v = .number n.toRat := by
  obtain ⟨l, rfl, hl⟩ := h
  cases l with
  | boolean => exact absurd rfl hty
  | integer n => exact ⟨.integer n, rfl, (Option.some.inj hl).symm⟩
  | fraction s q => exact ⟨.fraction s q, rfl, (Option.some.inj hl).symm⟩
  | _ => cases hl

/-- Different numerals have different literals. -/
theorem literal_injective : Function.Injective literal := by
  intro a b h
  simpa using congrArg numeral? h

theorem isConst_literal (n : Numeral) : (literal n).isConst = true := by cases n <;> rfl

/-! ## One node -/

/-- Where one operand is asked for, none stands behind the first. -/
theorem eq_nil_of_uniform (h : Uniform 1 P ((literal a :: bs.map literal).map operand)) :
    bs = [] := by
  obtain ⟨A, hbs, -⟩ := exists_of_uniform_one h
  exact List.map_eq_nil_iff.mp hbs

/-- Where two operands are asked for, one stands behind the first, of its
type. -/
theorem exists_singleton_of_uniform
    (h : Uniform 2 P ((literal a :: bs.map literal).map operand)) :
    ∃ b, bs = [b] ∧ P a.ty ∧ a.ty = b.ty := by
  obtain ⟨y, A, hbs, hP, ha, hb⟩ := exists_of_uniform_two h
  obtain ⟨b, rfl, rfl⟩ := List.map_eq_singleton_iff.mp hbs
  rw [ty_literal] at ha hb
  cases ha
  exact ⟨b, rfl, hP, (Except.ok.inj hb).symm⟩

/-- The two operands of a division with remainder. -/
theorem exists_integers_of_uniform
    (h : Uniform 2 P ((literal a :: bs.map literal).map operand)) (ha : a.ty = .integer) :
    ∃ m n, a = .integer m ∧ bs = [.integer n] := by
  obtain ⟨b, rfl, -, hty⟩ := exists_singleton_of_uniform h
  obtain ⟨m, rfl⟩ := Numeral.exists_integer ha
  obtain ⟨n, rfl⟩ := Numeral.exists_integer hty.symm
  exact ⟨m, n, rfl, rfl⟩

/-- An equation between numerals of one type is folded to its truth, equal
numbers of a type being one numeral. -/
theorem folds_equals (hty : a.ty = b.ty) :
    Folds .equals (literal a) [literal b] (boolean (decide (a.toRat = b.toRat))) := by
  by_cases h : a = b
  · subst h
    rw [decide_eq_true rfl]
    exact .same
  · rw [decide_eq_false (mt (Numeral.eq_of_toRat hty) h)]
    exact .different (literal_injective.ne h) (isConst_literal a) (isConst_literal b)

/-- An operator over literals, each of which it calculates with, folds to
the literal of what it makes of the numbers. -/
theorem exists_folds (fits : op.Fits ((literal a :: bs.map literal).map operand))
    (calculates : op.Calculates a.ty) (divisor : op.Divides → ∀ b ∈ bs, b.toRat ≠ 0) :
    ∃ R v, Folds op (literal a) (bs.map literal) R ∧
      op.outcome? (a.toRat :: bs.map Numeral.toRat) = some v ∧ R.IsLiteral v := by
  cases op with
  | negate =>
    obtain rfl := eq_nil_of_uniform fits
    exact ⟨_, _, .negate, rfl, a.toRat_neg ▸ isLiteral_literal a.neg⟩
  | toInteger =>
    obtain rfl := eq_nil_of_uniform fits
    cases a with
    | integer n =>
      refine ⟨_, _, .ofInteger rfl, rfl, ?_⟩
      rw [Numeral.toRat_integer, Int.floor_intCast]
      exact isLiteral_literal (.integer n)
    | fraction s q =>
      refine ⟨_, _, .floor, rfl, ?_⟩
      rw [Numeral.toRat_fraction, ← Fraction.floor_eq]
      exact isLiteral_literal (.integer q.floor)
  | toRational =>
    obtain rfl := eq_nil_of_uniform fits
    exact ⟨_, _, .convert (s := .rational), rfl, a.toRat_toFraction .rational ▸ isLiteral_literal _⟩
  | toReal =>
    obtain rfl := eq_nil_of_uniform fits
    exact ⟨_, _, .convert (s := .real), rfl, a.toRat_toFraction .real ▸ isLiteral_literal _⟩
  | rounding r =>
    obtain rfl := eq_nil_of_uniform fits
    obtain ⟨s, q, rfl⟩ := Numeral.exists_fraction calculates
    refine ⟨_, _, .rounding, rfl, ?_⟩
    rw [Numeral.toRat_fraction, ← Fraction.toInt_eq_rounded, ← Fraction.toRat_ofInt]
    exact isLiteral_literal (.fraction s _)
  | isInteger =>
    obtain rfl := eq_nil_of_uniform fits
    cases a with
    | integer n => exact ⟨_, _, .integerType rfl, rfl, isLiteral_boolean true⟩
    | fraction s q => exact ⟨_, _, .isInteger, rfl, isLiteral_boolean q.isInteger⟩
  | isRational =>
    obtain rfl := eq_nil_of_uniform fits
    cases a with
    | integer n => exact ⟨_, _, .rationalType (.inl rfl), rfl, isLiteral_boolean true⟩
    | fraction s q => exact ⟨_, _, .isRational, rfl, isLiteral_boolean true⟩
  | equals =>
    obtain ⟨b, rfl, -, hty⟩ := exists_singleton_of_uniform fits
    exact ⟨_, _, folds_equals hty, rfl, isLiteral_boolean _⟩
  | less =>
    obtain ⟨b, rfl, -, hty⟩ := exists_singleton_of_uniform fits
    refine ⟨_, _, .less (Numeral.compare?_eq hty), rfl, isLiteral_of_iff ?_⟩
    rw [beq_iff_eq, compare_lt_iff_lt]
  | lessEquals =>
    obtain ⟨b, rfl, -, hty⟩ := exists_singleton_of_uniform fits
    refine ⟨_, _, .lessEquals (Numeral.compare?_eq hty), rfl, isLiteral_of_iff ?_⟩
    rw [bne_iff_ne, compare_le_iff_le]
  | add =>
    obtain ⟨b, rfl, -, hty⟩ := exists_singleton_of_uniform fits
    obtain ⟨c, hc, hrat⟩ := Numeral.exists_combine? Int.cast_add Fraction.toRat_add hty
    exact ⟨_, _, .add hc, rfl, hrat ▸ isLiteral_literal c⟩
  | subtract =>
    obtain ⟨b, rfl, -, hty⟩ := exists_singleton_of_uniform fits
    obtain ⟨c, hc, hrat⟩ := Numeral.exists_combine? Int.cast_sub Fraction.toRat_sub hty
    exact ⟨_, _, .subtract hc, rfl, hrat ▸ isLiteral_literal c⟩
  | multiply =>
    obtain ⟨b, rfl, -, hty⟩ := exists_singleton_of_uniform fits
    obtain ⟨c, hc, hrat⟩ := Numeral.exists_combine? Int.cast_mul Fraction.toRat_mul hty
    exact ⟨_, _, .multiply hc, rfl, hrat ▸ isLiteral_literal c⟩
  | divide =>
    obtain ⟨b, rfl, ha, hty⟩ := exists_singleton_of_uniform fits
    have hb := divisor trivial b List.mem_cons_self
    obtain ⟨c, hc, hrat⟩ := Numeral.exists_divide? ha hty hb
    exact ⟨_, _, .divide hc, if_neg hb, hrat ▸ isLiteral_literal c⟩
  | quotient c =>
    obtain ⟨m, n, rfl, rfl⟩ := exists_integers_of_uniform fits calculates
    have hb := divisor trivial _ List.mem_cons_self
    have hn : n ≠ 0 := Int.cast_ne_zero.mp hb
    refine ⟨_, _, .quotient hn, if_neg hb, ?_⟩
    rw [Numeral.toRat_integer, Numeral.toRat_integer, ← c.quotient_eq_rounded m hn]
    exact isLiteral_literal (.integer _)
  | remainder c =>
    obtain ⟨m, n, rfl, rfl⟩ := exists_integers_of_uniform fits calculates
    have hb := divisor trivial _ List.mem_cons_self
    have hn : n ≠ 0 := Int.cast_ne_zero.mp hb
    refine ⟨_, _, .remainder hn, if_neg hb, ?_⟩
    rw [Numeral.toRat_integer, Numeral.toRat_integer, ← c.quotient_eq_rounded m hn,
      ← Int.cast_mul, ← Int.cast_sub, ← c.remainder_eq_sub m n]
    exact isLiteral_literal (.integer _)
  | universal | existential | and | or | not | equivalent | call => exact calculates.elim

/-! ## Whole trees -/

/-- The outcome of a node over children that come to numbers. -/
theorem outcome?_app {qs : List ℚ}
    (h : List.Forall₂ (fun C q => C.outcome? = some (.number q)) (first :: rest) qs) :
    (app op first rest).outcome? = op.outcome? qs := by
  have hnumbers {Ts : List Tree} {qs : List ℚ}
      (h : List.Forall₂ (fun C q => C.outcome? = some (.number q)) Ts qs) :
      (Ts.map outcome?).mapM (· >>= Outcome.number?) = some qs := by
    induction h with
    | nil => rfl
    | cons hC _ ih =>
      rw [List.map_cons, List.mapM_cons, hC, ih]
      rfl
  rw [outcome?, fold_app]
  exact congrArg (· >>= op.outcome?) (hnumbers h)

/-- No operand of an operator that calculates is a formula. -/
theorem ty_ne_bool_of_calculates {Ts : List Tree} (fits : op.Fits (Ts.map operand))
    (calculates : op.Calculates A) : ∀ C ∈ Ts, C.ty ≠ .ok .bool := by
  have huniform {n : Nat} {P : Ty → Prop} (hP : ¬ P .bool)
      (h : Uniform n P (Ts.map operand)) : ∀ C ∈ Ts, C.ty ≠ .ok .bool := by
    obtain ⟨-, B, hB, hall⟩ := uniform_iff.mp h
    intro C hC hbool
    cases (hall C hC).symm.trans hbool
    exact hP hB
  cases op with
  | equals => exact huniform (fun h => h.1 rfl) fits
  | divide => exact huniform nofun fits
  | universal | existential | and | or | not | equivalent | call => exact calculates.elim
  | _ => exact huniform nofun fits

/-- A well-typed calculation is simplified to the literal of its
outcome. -/
theorem Calculable.exists_literal (hc : T.Calculable) (hwt : T.WellTyped) :
    ∃ R v, Simplified T R ∧ T.outcome? = some v ∧ R.IsLiteral v := by
  induction hc with
  | integer n => exact ⟨_, _, ⟨rfl, hwt, rfl, fun _ h => h⟩, rfl, _, rfl, rfl⟩
  | fraction s q => exact ⟨_, _, ⟨rfl, hwt, rfl, fun _ h => h⟩, rfl, _, rfl, rfl⟩
  | @app op first rest A hA calculates divisor _ ih =>
    obtain ⟨fits, hchildren⟩ := wellTyped_app_iff.mp hwt
    -- every child is simplified to a numeral, since a formula would not fit
    have hnumeral : ∀ C ∈ first :: rest, ∃ n : Numeral,
        Simplified C (literal n) ∧ C.outcome? = some (.number n.toRat) := by
      intro C hC
      obtain ⟨R, v, hR, hv, hlit⟩ := ih C hC (hchildren C hC)
      have hty : R.ty ≠ .ok .bool := by
        rw [show R.ty = C.ty from hR.keeps.ty]
        exact ty_ne_bool_of_calculates fits calculates C hC
      obtain ⟨n, rfl, rfl⟩ := hlit.exists_numeral hty
      exact ⟨n, hR, hv⟩
    obtain ⟨ns, hall⟩ := exists_forall₂ hnumeral
    have hsimplified := List.forall₂_map_right_iff.mpr (hall.imp fun _ _ h => h.1)
    have houtcomes : List.Forall₂ (fun C q => C.outcome? = some (.number q)) (first :: rest)
        (ns.map Numeral.toRat) := List.forall₂_map_right_iff.mpr (hall.imp fun _ _ h => h.2)
    cases hall with
    | @cons _ a _ bs hfirst hrest =>
      obtain ⟨fits', -⟩ := wellTyped_app_iff.mp (hwt.rebuild hsimplified)
      have ha : a.ty = A := by
        have hty : (literal a).ty = first.ty := hfirst.1.keeps.ty
        rw [ty_literal, hA] at hty
        exact Except.ok.inj hty
      have hdivisor : op.Divides → ∀ b ∈ bs, b.toRat ≠ 0 := by
        intro hop b hb hzero
        obtain ⟨D, hD, -, hval⟩ := exists_of_mem_left hrest.flip hb
        exact divisor hop D hD (hzero ▸ hval)
      obtain ⟨R, v, hfolds, hv, hlit⟩ := exists_folds fits' (ha ▸ calculates) hdivisor
      have hsimplify : (Tree.app op first rest).simplify = .ok R := by
        rw [simplify_eq_refold (hsimplified.imp fun _ _ h => h.simplify_eq), refold,
          foldNode_of_folds hfolds]
        rfl
      obtain ⟨S, hS⟩ := hwt.exists_simplified
      cases hS.simplify_eq.symm.trans hsimplify
      exact ⟨_, v, hS, (outcome?_app houtcomes).trans hv, hlit⟩

end Tree

/-! ## Terms -/

namespace TermStore

variable {st : TermStore} {t : TermId} {T : Tree} {A : Ty}

/-- Folding carries calculations out. A calculation that passes its check
is simplified, without a broken contract, to one literal. The literal is
of the type that was checked, and of the outcome of the calculation. -/
theorem simplify_calculable (h : (st.check t A).run = .ok (.ok ())) (hT : st.Denotes t T)
    (hc : T.Calculable) :
    ∃ r st' l v, (Build.simplify t).on st = (.ok r, st') ∧ st'.node? r = some (.leaf l) ∧
      l.ty = A ∧ T.outcome? = some v ∧ l.outcome? = some v := by
  obtain ⟨U, hU, hty, hwt⟩ := check_eq_ok_iff.mp h
  cases denotes_unique hU hT
  obtain ⟨R, v, hR, hv, l, rfl, hl⟩ := hc.exists_literal hwt
  obtain ⟨r, st', hrun, -, hr⟩ := Build.yields_simplify hT hR.simplify_eq
  have hA : (Tree.leaf l).ty = .ok A := hR.keeps.ty.trans hty
  exact ⟨r, st', l, v, hrun, denotes_leaf_iff.mp hr, Except.ok.inj hA, hv, hl⟩

/-- The remainder of 7 by -2, in the convention that floors. -/
def sampleRemainder : Tree := .app (.remainder .floor) (.leaf (.integer 7)) [.leaf (.integer (-2))]

/-- The rounded 5/2. -/
def sampleRounded : Tree :=
  .app (.rounding .round) (.leaf (.fraction .real (.reduce 5 2 nofun))) []

/-- The calculation `toReal (7 mod -2) ≤ round (5/2) / 3`. -/
def sampleCalculation : Tree :=
  .app .lessEquals (.app .toReal sampleRemainder [])
    [.app .divide sampleRounded [.leaf (.fraction .real (.ofInt 3))]]

/-- The sample is a calculation, and no divisor in it comes to zero. -/
theorem calculable_sampleCalculation : sampleCalculation.Calculable := by
  have hremainder : sampleRemainder.Calculable :=
    .two (A := .integer) rfl rfl (fun _ => by decide +kernel) (.integer 7) (.integer (-2))
  have hrounded : sampleRounded.Calculable :=
    .one (A := .real) rfl (.inr rfl) (.fraction .real (.reduce 5 2 nofun))
  have hquotient :
      (Tree.app .divide sampleRounded [.leaf (.fraction .real (.ofInt 3))]).Calculable :=
    .two (A := .real) rfl trivial (fun _ => by decide +kernel) hrounded
      (.fraction .real (.ofInt 3))
  exact .two (A := .real) rfl trivial nofun (.one (A := .integer) rfl trivial hremainder) hquotient

/-- A store with the calculation and its parts. -/
def calculationSample : TermStore :=
  .ofNodes
    [.leaf (.integer 7), .leaf (.integer (-2)), .app (.remainder .floor) ⟨0⟩ [⟨1⟩],
      .app .toReal ⟨2⟩ [], .leaf (.fraction .real (.reduce 5 2 nofun)),
      .app (.rounding .round) ⟨4⟩ [], .leaf (.fraction .real (.ofInt 3)), .app .divide ⟨5⟩ [⟨6⟩],
      .app .lessEquals ⟨3⟩ [⟨7⟩]]
    (by decide) 0

theorem denotes_calculationSample : calculationSample.Denotes ⟨8⟩ sampleCalculation :=
  ⟨_, _, rfl, ⟨_, _, rfl, ⟨_, _, rfl, rfl, _, _, rfl, rfl, rfl⟩, rfl⟩, _, _, rfl,
    ⟨_, _, rfl, ⟨_, _, rfl, rfl, rfl⟩, _, _, rfl, rfl, rfl⟩, rfl⟩

/-- The remainder is -1 and the quotient 2/3, so the comparison holds. -/
theorem outcome?_sampleCalculation : sampleCalculation.outcome? = some (.truth true) := by
  decide +kernel

/-- The calculation passes the check and folds to one literal. -/
theorem simplify_calculable_sample :
    (calculationSample.check ⟨8⟩ .bool).run = .ok (.ok ()) ∧
    ∃ r st', (Build.simplify ⟨8⟩).on calculationSample = (.ok r, st') ∧
      st'.node? r = some (.leaf (.boolean true)) := by
  have hcheck : (calculationSample.check ⟨8⟩ .bool).run = .ok (.ok ()) := rfl
  obtain ⟨r, st', l, v, hrun, hnode, -, hv, hl⟩ :=
    simplify_calculable hcheck denotes_calculationSample calculable_sampleCalculation
  refine ⟨hcheck, r, st', hrun, ?_⟩
  cases hv.symm.trans outcome?_sampleCalculation
  cases l with
  | boolean b => cases hl; exact hnode
  | _ => cases hl

end TermStore

end TypedTerms
