import TypedTerms.Proofs.Meaning.Typed

/-!
# Folding keeps the meaning

Every rule of folding answers a tree with the value of the node, in every
interpretation and under every assignment: one case for each rule, by the
law that the interpretation owes for the operator. The cases are put
together in `value_of_folds`.
-/

namespace TypedTerms

namespace Numeral

variable {a b c : Numeral}

/-- Numerals are divided only as fractions, to one in the sort of the
dividend. -/
theorem exists_of_divide? (h : a.divide? b = some c) :
    ∃ s t p q r, a = .fraction s p ∧ b = .fraction t q ∧ c = .fraction s r ∧
      p.divide? q = .ok r := by
  cases a with
  | integer => cases h
  | fraction s p =>
    cases b with
    | integer => cases h
    | fraction t q =>
      obtain ⟨r, hr, rfl⟩ := Option.map_eq_some_iff.mp h
      cases hd : p.divide? q with
      | error e => rw [hd] at hr; cases hr
      | ok r' => rw [hd] at hr; cases hr; exact ⟨s, t, p, q, r, rfl, rfl, rfl, hd⟩

end Numeral

namespace Interpretation

open TypedTerms.Tree

variable (I : Interpretation) {A : Ty} {op : Operator} {x y R : Tree} {rest : List Tree}
  {σ : I.Assignment}

/-! ## Values of literals -/

/-- The value of a fraction literal. -/
def fraction (s : FractionSort) (q : Fraction) : I.Value := ⟨s.ty, I.embed s q.toRat⟩

/-- The value of a literal number. -/
def numeral : Numeral → I.Value
  | .integer n => .integer n
  | .fraction s q => I.fraction s q

theorem value_literal (n : Numeral) (σ : I.Assignment) :
    I.value (literal n) σ = some (I.numeral n) := by
  cases n <;> exact I.value_leaf _ σ

theorem value_integer (n : ℤ) (σ : I.Assignment) :
    I.value (literal (.integer n)) σ = some (.integer n) := I.value_leaf _ σ

theorem value_fraction (s : FractionSort) (q : Fraction) (σ : I.Assignment) :
    I.value (literal (.fraction s q)) σ = some (I.fraction s q) := I.value_leaf _ σ

theorem value_boolean (b : Bool) (σ : I.Assignment) :
    I.value (boolean b) σ = some (.truth (b = true)) := I.value_leaf _ σ

theorem truth_congr {p q : Prop} (h : p ↔ q) :
    (.truth p : I.Value) = .truth q := by rw [propext h]

/-- A truth literal has the value of a tree that is true just when it is. -/
theorem value_boolean_eq {b : Bool} {p : Prop} (hx : I.value x σ = some (.truth p))
    (h : b = true ↔ p) : I.value (boolean b) σ = I.value x σ := by
  rw [I.value_boolean, hx, I.truth_congr h]

theorem val_eq {a b : I.Of A} (h : (⟨A, a⟩ : I.Value) = ⟨A, b⟩) : a = b :=
  eq_of_heq (Domains.Value.mk.inj h).2

/-- Literal constants with the same value are the same. -/
theorem eq_of_leaf_eq {k l : Leaf} (hk : k.isConst = true) (hl : l.isConst = true)
    (h : I.leaf σ k = I.leaf σ l) : k = l := by
  have hty : k.ty = l.ty := by rw [← I.ty_leaf σ, ← I.ty_leaf σ, h]
  -- constants of different kinds have different types, so one kind is left in each case
  cases k with
  | var | global | function => cases hk
  | boolean a =>
    cases l with
    | var | global | function => cases hl
    | boolean b =>
      have hval : (a = true) = (b = true) := I.val_eq (A := .bool) h
      rw [Bool.eq_iff_iff.mpr (iff_of_eq hval)]
    | fraction t q => cases t <;> cases hty
    | integer | object => cases hty
  | integer m =>
    cases l with
    | var | global | function => cases hl
    | integer n => exact congrArg Leaf.integer (I.val_eq (A := .integer) h)
    | fraction t q => cases t <;> cases hty
    | boolean | object => cases hty
  | fraction s p =>
    cases l with
    | var | global | function => cases hl
    | fraction t q =>
      cases FractionSort.ty_injective hty
      have hval := I.embed_injective s (I.val_eq h)
      rw [Fraction.toRat_injective hval]
    | boolean | integer | object => cases s <;> cases hty
  | object a =>
    cases l with
    | var | global | function => cases hl
    | object b => rw [I.object_injective (I.val_eq h)]
    | fraction t q => cases t <;> cases hty
    | boolean | integer => cases hty

/-! ## Values of nodes -/

/-- A node over one child that has a value has the value of the operator on
it. -/
theorem value_unary (op : Operator) {v : I.Value} (hop : op.operandRule ≠ .binding)
    (hx : I.value x σ = some v) : I.value (.app op x []) σ = I.operate op [v] :=
  I.value_eq_operate hop (.cons hx .nil)

/-- A node over two children that have values has the value of the operator
on them. -/
theorem value_binary (op : Operator) {v w : I.Value} (hop : op.operandRule ≠ .binding)
    (hx : I.value x σ = some v) (hy : I.value y σ = some w) :
    I.value (.app op x [y]) σ = I.operate op [v, w] :=
  I.value_eq_operate hop (.cons hx (.cons hy .nil))

/-- An operator on one number is that of the integers on an integer. -/
theorem operate_integer {f : ∀ A, I.domains.Operations (I.Of A) → I.Of A → I.Value}
    (hop : I.operate op = unary f) (n : ℤ) :
    I.operate op [.integer n] = some (f .integer I.integers n) := by
  rw [hop]
  exact I.unary_mk I.operations?_integer

theorem operate_fraction {f : ∀ A, I.domains.Operations (I.Of A) → I.Of A → I.Value}
    (hop : I.operate op = unary f) (s : FractionSort) (q : Fraction) :
    I.operate op [I.fraction s q] = some (f s.ty (I.fractions s) (I.embed s q.toRat)) := by
  rw [hop]
  exact I.unary_mk (I.operations?_fraction s)

/-- An operator on two numbers is that of the integers on integers. -/
theorem operate_integers
    {f : ∀ A, I.domains.Operations (I.Of A) → I.Of A → I.Of A → I.Value}
    (hop : I.operate op = binary f) (m n : ℤ) :
    I.operate op [.integer m, .integer n] = some (f .integer I.integers m n) := by
  rw [hop]
  exact I.binary_mk I.operations?_integer

theorem operate_fractions
    {f : ∀ A, I.domains.Operations (I.Of A) → I.Of A → I.Of A → I.Value}
    (hop : I.operate op = binary f) (s : FractionSort) (p q : Fraction) :
    I.operate op [I.fraction s p, I.fraction s q] =
      some (f s.ty (I.fractions s) (I.embed s p.toRat) (I.embed s q.toRat)) := by
  rw [hop]
  exact I.binary_mk (I.operations?_fraction s)

/-- The value of an operator on two numerals of one type is that of the
numeral that combining them makes, if it is so for integers and for
fractions of each sort. -/
theorem value_combine {int : Int → Int → Int} {frac : Fraction → Fraction → Fraction}
    {a b c : Numeral} (hop : op.operandRule ≠ .binding)
    (hint : ∀ m n, I.operate op [.integer m, .integer n] = some (.integer (int m n)))
    (hfrac : ∀ s p q, I.operate op [I.fraction s p, I.fraction s q] =
      some (I.fraction s (frac p q)))
    (h : Numeral.combine? int frac a b = some c) (hty : a.ty = b.ty) :
    I.value (literal c) σ = I.value (.app op (literal a) [literal b]) σ := by
  rw [I.value_binary op hop (I.value_literal a σ) (I.value_literal b σ), I.value_literal]
  rcases Numeral.cases_of_ty hty with ⟨m, n, rfl, rfl⟩ | ⟨s, p, q, rfl, rfl⟩
  · cases h
    exact (hint m n).symm
  · cases h
    exact (hfrac s p q).symm

/-- The same of a comparison. -/
theorem value_compare (test : Ordering → Bool) {o : Ordering} {a b : Numeral}
    (hop : op.operandRule ≠ .binding)
    (hint : ∀ m n, I.operate op [.integer m, .integer n] =
      some (.truth (test (compare m n) = true)))
    (hfrac : ∀ s p q, I.operate op [I.fraction s p, I.fraction s q] =
      some (.truth (test (compare p q) = true)))
    (h : a.compare? b = some o) (hty : a.ty = b.ty) :
    I.value (boolean (test o)) σ = I.value (.app op (literal a) [literal b]) σ := by
  rw [I.value_binary op hop (I.value_literal a σ) (I.value_literal b σ), I.value_boolean]
  rcases Numeral.cases_of_ty hty with ⟨m, n, rfl, rfl⟩ | ⟨s, p, q, rfl, rfl⟩
  · cases h
    exact (hint m n).symm
  · cases h
    exact (hfrac s p q).symm

theorem operate_equals {v w : I.Value} (h : v.ty = w.ty) :
    I.operate .equals [v, w] = some (.truth (v = w)) := if_pos h

/-! ## The rules -/

/-- A conversion has one operand. -/
theorem rest_of_conversion {s : FractionSort}
    (h : s.conversion.Fits ((x :: rest).map operand)) : rest = [] := by
  cases s with
  | rational =>
    obtain ⟨A, rfl, -⟩ := exists_of_uniform_one h
    rfl
  | real =>
    obtain ⟨A, rfl, -⟩ := exists_of_uniform_one h
    rfl

/-- A term equals itself. -/
theorem value_same (hx : x.WellTyped) :
    I.value (boolean true) σ = I.value (.app .equals x [x]) σ := by
  obtain ⟨v, hv, -⟩ := I.exists_value hx σ
  have hnode := (I.value_binary .equals nofun hv hv).trans (I.operate_equals rfl)
  exact I.value_boolean_eq hnode (iff_of_true rfl rfl)

theorem exists_leaf_of_isConst (h : x.isConst = true) : ∃ l, x = .leaf l ∧ l.isConst = true := by
  cases x with
  | leaf l => exact ⟨l, rfl, h⟩
  | app => cases h

/-- Different literal constants of one type have different values. -/
theorem value_different (hne : x ≠ y) (hx : x.isConst = true) (hy : y.isConst = true)
    (hty : x.ty = y.ty) :
    I.value (boolean false) σ = I.value (.app .equals x [y]) σ := by
  obtain ⟨k, rfl, hk⟩ := exists_leaf_of_isConst hx
  obtain ⟨l, rfl, hl⟩ := exists_leaf_of_isConst hy
  have hval : I.leaf σ k ≠ I.leaf σ l := fun h => hne (congrArg _ (I.eq_of_leaf_eq hk hl h))
  have htys : (I.leaf σ k).ty = (I.leaf σ l).ty := by
    rw [I.ty_leaf, I.ty_leaf]
    exact Except.ok.inj hty
  have hnode := (I.value_binary .equals nofun (I.value_leaf k σ) (I.value_leaf l σ)).trans
    (I.operate_equals htys)
  exact I.value_boolean_eq hnode (iff_of_false nofun hval)

/-- Negating a literal keeps the value of the negation. -/
theorem value_negate (a : Numeral) :
    I.value (literal a.neg) σ = I.value (.app .negate (literal a) []) σ := by
  rw [I.value_unary .negate nofun (I.value_literal a σ), I.value_literal]
  cases a with
  | integer n =>
    refine Eq.trans ?_ (I.operate_integer rfl n).symm
    rw [I.integer_laws.negate]
    rfl
  | fraction s q =>
    rw [numeral, I.operate_fraction rfl, (I.fraction_laws s).negate, ← Fraction.toRat_neg]
    rfl

/-- Dividing literals keeps the value of the quotient, the divisor being
other than zero. -/
theorem value_divide {a b c : Numeral} (h : a.divide? b = some c) (hty : a.ty = b.ty) :
    I.value (literal c) σ = I.value (.app .divide (literal a) [literal b]) σ := by
  obtain ⟨s, t, p, q, r, rfl, rfl, rfl, hr⟩ := Numeral.exists_of_divide? h
  obtain ⟨hne, heq⟩ := Fraction.divide?_eq_ok_iff.mp hr
  cases FractionSort.ty_injective hty
  rw [I.value_binary .divide nofun (I.value_fraction s p σ) (I.value_fraction s q σ),
    I.value_fraction, I.operate_fractions rfl, (I.fraction_laws s).divide _ _ hne, ← heq]
  rfl

/-- An integral division of literals keeps the value, if the operator means
on the integers what is computed. -/
theorem value_division {m n k : ℤ}
    {f : ∀ A, I.domains.Operations (I.Of A) → I.Of A → I.Of A → I.Value}
    (hop : op.operandRule ≠ .binding) (hf : I.operate op = binary f)
    (h : f .integer I.integers m n = .integer k) :
    I.value (literal (.integer k)) σ =
      I.value (.app op (literal (.integer m)) [literal (.integer n)]) σ := by
  rw [I.value_binary op hop (I.value_integer m σ) (I.value_integer n σ), I.value_integer,
    I.operate_integers hf, h]

/-- An integral quotient keeps its value, in each of the conventions. -/
theorem value_quotient {c : Division} {m n : ℤ} (hn : n ≠ 0) :
    I.value (literal (.integer (c.quotient m n))) σ =
      I.value (.app (.quotient c) (literal (.integer m)) [literal (.integer n)]) σ := by
  have hquotient := (I.integer_laws.quotient c m n hn).trans (c.quotient_eq_standard m hn).symm
  exact I.value_division nofun rfl (congrArg Domains.Value.integer hquotient)

/-- A remainder keeps its value, in each of the conventions. -/
theorem value_remainder {c : Division} {m n : ℤ} (hn : n ≠ 0) :
    I.value (literal (.integer (c.remainder m n))) σ =
      I.value (.app (.remainder c) (literal (.integer m)) [literal (.integer n)]) σ := by
  have hremainder := (I.integer_laws.remainder c m n hn).trans (c.remainder_eq_standard m hn).symm
  exact I.value_division nofun rfl (congrArg Domains.Value.integer hremainder)

/-- Rounding a literal keeps the value of the rounding. -/
theorem value_rounding (r : Rounding) (s : FractionSort) (q : Fraction) :
    I.value (literal (.fraction s (.ofInt (q.toInt r)))) σ =
      I.value (.app (.rounding r) (literal (.fraction s q)) []) σ := by
  rw [I.value_unary (.rounding r) nofun (I.value_fraction s q σ), I.value_fraction,
    I.operate_fraction rfl, (I.fraction_laws s).rounding r _ _ (Fraction.rounds_toInt r q),
    ← Fraction.toRat_ofInt]
  rfl

/-- Converting a fraction to an integer keeps the value, which is the floor.
-/
theorem value_floor (s : FractionSort) (q : Fraction) :
    I.value (literal (.integer q.floor)) σ =
      I.value (.app .toInteger (literal (.fraction s q)) []) σ := by
  rw [I.value_unary .toInteger nofun (I.value_fraction s q σ), I.value_integer,
    I.operate_fraction rfl, (I.fraction_laws s).toInteger, ← Fraction.floor_eq]

/-- The node of an operator on one operand of a type, which has some
value. -/
theorem exists_value_unary (op : Operator) (hop : op.operandRule ≠ .binding)
    (hx : x.WellTyped) (hA : x.ty = .ok A) (σ : I.Assignment) :
    ∃ a : I.Of A, I.value x σ = some ⟨A, a⟩ ∧
      I.value (.app op x []) σ = I.operate op [⟨A, a⟩] := by
  obtain ⟨a, ha⟩ := I.exists_value_of_ty hx hA σ
  exact ⟨a, ha, I.value_unary op hop ha⟩

/-- Converting an integer to an integer changes nothing. -/
theorem value_ofInteger (hx : x.WellTyped) (hA : x.ty = .ok .integer) :
    I.value x σ = I.value (.app .toInteger x []) σ := by
  obtain ⟨n, hn, hnode⟩ := I.exists_value_unary .toInteger nofun hx hA σ
  rw [hn, hnode]
  exact (congrArg (some ∘ Domains.Value.integer) (I.integer_laws.toInteger n)).symm

/-! The conversion to a sort is the identity on numbers of the sort, and
takes every rational number to itself. -/

/-- The conversion of numbers to a sort. -/
def toSort (s : FractionSort) {N : Type} (o : I.domains.Operations N) : N → I.Of s.ty :=
  match s with
  | .rational => o.toRational
  | .real => o.toReal

/-- An integer is converted to the fraction with denominator one. -/
theorem toSort_integer (s : FractionSort) (n : ℤ) :
    ⟨s.ty, I.toSort s I.integers n⟩ = I.fraction s (.ofInt n) := by
  rw [fraction, Fraction.toRat_ofInt]
  cases s with
  | rational => exact congrArg Domains.Value.rational (I.integer_laws.toRational n)
  | real => exact congrArg Domains.Value.real (I.integer_laws.toReal n)

/-- A fraction is converted to the same number in the other sort. -/
theorem toSort_fraction (s t : FractionSort) (q : Fraction) :
    ⟨s.ty, I.toSort s (I.fractions t) (I.embed t q.toRat)⟩ = I.fraction s q := by
  cases s with
  | rational => exact congrArg Domains.Value.rational ((I.fraction_laws t).toRational q.toRat)
  | real => exact congrArg Domains.Value.real ((I.fraction_laws t).toReal q.toRat)

/-- A number is converted to its own sort unchanged, be it rational or not.
-/
theorem toSort_self (s : FractionSort) (x : I.Of s.ty) : I.toSort s (I.fractions s) x = x := by
  cases s with
  | rational => exact I.rational_laws.toRational x
  | real => exact I.toReal_real x

theorem operandRule_conversion (s : FractionSort) : s.conversion.operandRule ≠ .binding := by
  cases s <;> nofun

/-- A conversion applies the conversion to its sort, from whatever type of
numbers. -/
theorem operate_conversion (s : FractionSort) {o : I.domains.Operations (I.Of A)}
    (ho : I.operations? A = some o) (a : I.Of A) :
    I.operate s.conversion [⟨A, a⟩] = some ⟨s.ty, I.toSort s o a⟩ := by
  cases s with
  | rational => exact I.unary_mk (f := fun _ o a => .rational (o.toRational a)) ho
  | real => exact I.unary_mk (f := fun _ o a => .real (o.toReal a)) ho

/-- Converting a term of a sort to the sort changes nothing. -/
theorem value_ofSort {s : FractionSort} (hx : x.WellTyped) (hA : x.ty = .ok s.ty) :
    I.value x σ = I.value (.app s.conversion x []) σ := by
  obtain ⟨a, ha, hnode⟩ := I.exists_value_unary s.conversion (operandRule_conversion s) hx hA σ
  rw [ha, hnode, I.operate_conversion s (I.operations?_fraction s), toSort_self]

/-- Converting a literal keeps the value of the conversion. -/
theorem value_convert (s : FractionSort) (a : Numeral) :
    I.value (literal (a.toFraction s)) σ = I.value (.app s.conversion (literal a) []) σ := by
  rw [I.value_unary s.conversion (operandRule_conversion s) (I.value_literal a σ)]
  cases a with
  | integer n =>
    calc
      _ = some (I.fraction s (.ofInt n)) := I.value_fraction s _ σ
      _ = some ⟨s.ty, I.toSort s I.integers n⟩ := congrArg some (I.toSort_integer s n).symm
      _ = _ := (I.operate_conversion (A := .integer) s I.operations?_integer n).symm
  | fraction t q =>
    calc
      _ = some (I.fraction s q) := I.value_fraction s q σ
      _ = some ⟨s.ty, I.toSort s (I.fractions t) (I.embed t q.toRat)⟩ :=
        congrArg some (I.toSort_fraction s t q).symm
      _ = _ := (I.operate_conversion s (I.operations?_fraction t) (I.embed t q.toRat)).symm

/-- A term of the integer type is an integer. -/
theorem value_integerType (hx : x.WellTyped) (hA : x.ty = .ok .integer) :
    I.value (boolean true) σ = I.value (.app .isInteger x []) σ := by
  obtain ⟨n, -, hnode⟩ := I.exists_value_unary .isInteger nofun hx hA σ
  exact I.value_boolean_eq hnode (iff_of_true rfl (I.integer_laws.isInteger n))

/-- A fraction is an integer when its denominator is one. -/
theorem value_isInteger (s : FractionSort) (q : Fraction) :
    I.value (boolean q.isInteger) σ =
      I.value (.app .isInteger (literal (.fraction s q)) []) σ := by
  have hnode := (I.value_unary .isInteger nofun (I.value_fraction s q σ)).trans
    (I.operate_fraction rfl s q)
  refine I.value_boolean_eq hnode ?_
  rw [Fraction.isInteger_iff, (I.fraction_laws s).isInteger]
  exact exists_congr fun n => eq_comm.trans (I.embed_injective s).eq_iff.symm

/-- A term of the integer or of the rational type is rational. -/
theorem value_rationalType (hx : x.WellTyped)
    (hA : x.ty = .ok .integer ∨ x.ty = .ok .rational) :
    I.value (boolean true) σ = I.value (.app .isRational x []) σ := by
  rcases hA with hA | hA
  · obtain ⟨n, -, hnode⟩ := I.exists_value_unary .isRational nofun hx hA σ
    exact I.value_boolean_eq hnode (iff_of_true rfl (I.integer_laws.isRational n))
  · obtain ⟨q, -, hnode⟩ := I.exists_value_unary .isRational nofun hx hA σ
    have hq := (I.rational_laws.isRational q).mpr ⟨q, rfl⟩
    exact I.value_boolean_eq hnode (iff_of_true rfl hq)

/-- A fraction is rational, also as a real number. -/
theorem value_isRational (s : FractionSort) (q : Fraction) :
    I.value (boolean true) σ =
      I.value (.app .isRational (literal (.fraction s q)) []) σ := by
  have hnode := (I.value_unary .isRational nofun (I.value_fraction s q σ)).trans
    (I.operate_fraction rfl s q)
  have hq := ((I.fraction_laws s).isRational (I.embed s q.toRat)).mpr ⟨_, rfl⟩
  exact I.value_boolean_eq hnode (iff_of_true rfl hq)

/-- What a node folds to has the value of the node. -/
theorem value_of_folds (h : Folds op x rest R) (hwt : (Tree.app op x rest).WellTyped)
    (σ : I.Assignment) : I.value R σ = I.value (.app op x rest) σ := by
  obtain ⟨fits, hchildren⟩ := wellTyped_app_iff.mp hwt
  have hx := hchildren x List.mem_cons_self
  cases h with
  | same =>
    obtain ⟨y, A, hrest, -⟩ := exists_of_uniform_two fits
    cases hrest
    exact I.value_same hx
  | different hne hcx hcy =>
    obtain ⟨y, A, hrest, -, hA, hB⟩ := exists_of_uniform_two fits
    cases hrest
    exact I.value_different hne hcx hcy (hA.trans hB.symm)
  | less h =>
    obtain ⟨rfl, hty⟩ := numerals_of_uniform fits
    refine I.value_compare (· == .lt) nofun (fun m n => ?_) (fun s p q => ?_) h hty
    · rw [I.operate_integers rfl]
      refine congrArg some (I.truth_congr ?_)
      rw [I.integer_laws.less, beq_iff_eq, compare_lt_iff_lt]
    · rw [I.operate_fractions rfl]
      refine congrArg some (I.truth_congr ?_)
      rw [(I.fraction_laws s).less, beq_iff_eq, Fraction.compare_eq_lt_iff]
  | lessEquals h =>
    obtain ⟨rfl, hty⟩ := numerals_of_uniform fits
    refine I.value_compare (· != .gt) nofun (fun m n => ?_) (fun s p q => ?_) h hty
    · rw [I.operate_integers rfl]
      refine congrArg some (I.truth_congr ?_)
      rw [I.integer_laws.lessEquals, bne_iff_ne, ne_eq, compare_gt_iff_gt, not_lt]
    · rw [I.operate_fractions rfl]
      refine congrArg some (I.truth_congr ?_)
      rw [(I.fraction_laws s).lessEquals, bne_iff_ne, ne_eq, Fraction.compare_eq_gt_iff, not_lt]
  | negate =>
    obtain ⟨A, rfl, -⟩ := exists_of_uniform_one fits
    exact I.value_negate _
  | add h =>
    obtain ⟨rfl, hty⟩ := numerals_of_uniform fits
    refine I.value_combine nofun (fun m n => ?_) (fun s p q => ?_) h hty
    · rw [I.operate_integers rfl, I.integer_laws.add]
      rfl
    · rw [I.operate_fractions rfl, (I.fraction_laws s).add, ← Fraction.toRat_add]
      rfl
  | subtract h =>
    obtain ⟨rfl, hty⟩ := numerals_of_uniform fits
    refine I.value_combine nofun (fun m n => ?_) (fun s p q => ?_) h hty
    · rw [I.operate_integers rfl, I.integer_laws.subtract]
      rfl
    · rw [I.operate_fractions rfl, (I.fraction_laws s).subtract, ← Fraction.toRat_sub]
      rfl
  | multiply h =>
    obtain ⟨rfl, hty⟩ := numerals_of_uniform fits
    refine I.value_combine nofun (fun m n => ?_) (fun s p q => ?_) h hty
    · rw [I.operate_integers rfl, I.integer_laws.multiply]
      rfl
    · rw [I.operate_fractions rfl, (I.fraction_laws s).multiply, ← Fraction.toRat_mul]
      rfl
  | divide h =>
    obtain ⟨rfl, hty⟩ := numerals_of_uniform fits
    exact I.value_divide h hty
  | quotient hn =>
    obtain ⟨rfl, -⟩ := numerals_of_uniform fits
    exact I.value_quotient hn
  | remainder hn =>
    obtain ⟨rfl, -⟩ := numerals_of_uniform fits
    exact I.value_remainder hn
  | rounding =>
    obtain ⟨A, rfl, -⟩ := exists_of_uniform_one fits
    exact I.value_rounding _ _ _
  | ofInteger hA =>
    obtain ⟨A, rfl, -⟩ := exists_of_uniform_one fits
    exact I.value_ofInteger hx hA
  | floor =>
    obtain ⟨A, rfl, -⟩ := exists_of_uniform_one fits
    exact I.value_floor _ _
  | @ofSort s _ _ hA =>
    obtain rfl := rest_of_conversion fits
    exact I.value_ofSort hx hA
  | convert =>
    obtain rfl := rest_of_conversion fits
    exact I.value_convert _ _
  | integerType hA =>
    obtain ⟨A, rfl, -⟩ := exists_of_uniform_one fits
    exact I.value_integerType hx hA
  | isInteger =>
    obtain ⟨A, rfl, -⟩ := exists_of_uniform_one fits
    exact I.value_isInteger _ _
  | rationalType hA =>
    obtain ⟨A, rfl, -⟩ := exists_of_uniform_one fits
    exact I.value_rationalType hx hA
  | isRational =>
    obtain ⟨A, rfl, -⟩ := exists_of_uniform_one fits
    exact I.value_isRational _ _

end Interpretation

end TypedTerms
