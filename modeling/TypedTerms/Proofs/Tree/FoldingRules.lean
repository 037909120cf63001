import TypedTerms.Proofs.Tree.Folding

/-!
# The rules of folding

`Folds` lists what a node can fold to, one rule for each way. A rule says
which operands it is for; operands behind those it looks at are ignored.
Everything about what folding makes is said of the rules, one case for
each, and reaches the function through `folds_of_foldNode`.
-/

namespace TypedTerms

/-- The type of the literal. -/
def Numeral.ty : Numeral → Ty
  | .integer _ => .integer
  | .fraction s _ => s.ty

/-- The operator that converts to the sort. -/
def FractionSort.conversion : FractionSort → Operator
  | .rational => .toRational
  | .real => .toReal

namespace Tree

/-- What a node can fold to. -/
inductive Folds : Operator → Tree → List Tree → Tree → Prop where
  | same {x : Tree} {rest : List Tree} : Folds .equals x (x :: rest) (boolean true)
  | different {x y : Tree} {rest : List Tree} (hne : x ≠ y) (hx : x.isConst = true)
    (hy : y.isConst = true) : Folds .equals x (y :: rest) (boolean false)
  | less {a b : Numeral} {o : Ordering} {rest : List Tree} (h : a.compare? b = some o) :
    Folds .less (literal a) (literal b :: rest) (boolean (o == .lt))
  | lessEquals {a b : Numeral} {o : Ordering} {rest : List Tree} (h : a.compare? b = some o) :
    Folds .lessEquals (literal a) (literal b :: rest) (boolean (o != .gt))
  | negate {a : Numeral} {rest : List Tree} : Folds .negate (literal a) rest (literal a.neg)
  | add {a b c : Numeral} {rest : List Tree}
    (h : Numeral.combine? (· + ·) (· + ·) a b = some c) :
    Folds .add (literal a) (literal b :: rest) (literal c)
  | subtract {a b c : Numeral} {rest : List Tree}
    (h : Numeral.combine? (· - ·) (· - ·) a b = some c) :
    Folds .subtract (literal a) (literal b :: rest) (literal c)
  | multiply {a b c : Numeral} {rest : List Tree}
    (h : Numeral.combine? (· * ·) (· * ·) a b = some c) :
    Folds .multiply (literal a) (literal b :: rest) (literal c)
  | divide {a b c : Numeral} {rest : List Tree} (h : a.divide? b = some c) :
    Folds .divide (literal a) (literal b :: rest) (literal c)
  | quotient {c : Division} {m n : Int} {rest : List Tree} (hn : n ≠ 0) :
    Folds (.quotient c) (literal (.integer m)) (literal (.integer n) :: rest)
      (literal (.integer (c.quotient m n)))
  | remainder {c : Division} {m n : Int} {rest : List Tree} (hn : n ≠ 0) :
    Folds (.remainder c) (literal (.integer m)) (literal (.integer n) :: rest)
      (literal (.integer (c.remainder m n)))
  | rounding {r : Rounding} {s : FractionSort} {q : Fraction} {rest : List Tree} :
    Folds (.rounding r) (literal (.fraction s q)) rest
      (literal (.fraction s (.ofInt (q.toInt r))))
  /-- An integer is its own integer. -/
  | ofInteger {x : Tree} {rest : List Tree} (h : x.ty = .ok .integer) :
    Folds .toInteger x rest x
  | floor {s : FractionSort} {q : Fraction} {rest : List Tree} :
    Folds .toInteger (literal (.fraction s q)) rest (literal (.integer q.floor))
  /-- A number of a sort is its own conversion to the sort. -/
  | ofSort {s : FractionSort} {x : Tree} {rest : List Tree} (h : x.ty = .ok s.ty) :
    Folds s.conversion x rest x
  | convert {s : FractionSort} {a : Numeral} {rest : List Tree} :
    Folds s.conversion (literal a) rest (literal (a.toFraction s))
  | integerType {x : Tree} {rest : List Tree} (h : x.ty = .ok .integer) :
    Folds .isInteger x rest (boolean true)
  | isInteger {s : FractionSort} {q : Fraction} {rest : List Tree} :
    Folds .isInteger (literal (.fraction s q)) rest (boolean q.isInteger)
  | rationalType {x : Tree} {rest : List Tree} (h : x.ty = .ok .integer ∨ x.ty = .ok .rational) :
    Folds .isRational x rest (boolean true)
  | isRational {s : FractionSort} {q : Fraction} {rest : List Tree} :
    Folds .isRational (literal (.fraction s q)) rest (boolean true)

variable {op : Operator} {x y R : Tree} {rest : List Tree} {n : Numeral}

/-! ## Literals -/

/-- The numerals are the literals of numbers. -/
theorem numeral?_eq_some_iff : x.numeral? = some n ↔ x = literal n := by
  cases x with
  | app op first rest => cases n <;> simp [numeral?, ofLeaf, literal]
  | leaf l => cases l <;> cases n <;> simp [numeral?, ofLeaf, literal, Leaf.numeral?]

theorem integer?_eq_some_iff {i : Int} : x.integer? = some i ↔ x = literal (.integer i) := by
  cases x with
  | app op first rest => simp [integer?, ofLeaf, literal]
  | leaf l => cases l <;> simp [integer?, ofLeaf, literal]

/-- A tree with a fraction for a value is the literal of it, in one of the
two sorts. -/
theorem exists_of_fraction?_eq_some {q : Fraction} (h : x.fraction? = some q) :
    ∃ s, x = literal (.fraction s q) := by
  cases x with
  | app op first rest => cases h
  | leaf l =>
    cases l with
    | fraction s p => cases h; exact ⟨s, rfl⟩
    | _ => cases h

@[simp] theorem ty_literal (n : Numeral) : (literal n).ty = .ok n.ty := by cases n <;> rfl

/-! ## From the function to the rules -/

/-- An operation on numerals answers only where both trees are literals. -/
theorem exists_of_numerals_eq_some {α : Type} {f : Numeral → Numeral → Option α} {c : α}
    (h : numerals x y f = some c) :
    ∃ a b, x = literal a ∧ y = literal b ∧ f a b = some c := by
  obtain ⟨a, ha, h⟩ := Option.bind_eq_some_iff.mp h
  obtain ⟨b, hb, h⟩ := Option.bind_eq_some_iff.mp h
  exact ⟨a, b, numeral?_eq_some_iff.mp ha, numeral?_eq_some_iff.mp hb, h⟩

/-- What an equation is folded to is one of the cases for it. -/
theorem folds_of_foldEquals (h : foldEquals x y = some R) : Folds .equals x (y :: rest) R := by
  unfold foldEquals at h
  by_cases hxy : x = y
  · rw [if_pos hxy] at h
    cases h
    exact hxy ▸ .same
  · rw [if_neg hxy] at h
    split at h
    · next hconst => cases h; exact .different hxy hconst.1 hconst.2
    · cases h

/-- A comparison is folded only between numerals of one kind, to what the
test says of their order. -/
theorem exists_of_foldCompare {test : Ordering → Bool} (h : foldCompare x y test = some R) :
    ∃ a b o, x = literal a ∧ y = literal b ∧ a.compare? b = some o ∧ R = boolean (test o) := by
  obtain ⟨c, hc, rfl⟩ := Option.map_eq_some_iff.mp h
  obtain ⟨a, b, ha, hb, hab⟩ := exists_of_numerals_eq_some hc
  obtain ⟨o, ho, rfl⟩ := Option.map_eq_some_iff.mp hab
  exact ⟨a, b, o, ha, hb, ho, rfl⟩

/-- An operation on two numerals is folded only where they combine, to the
literal of the outcome. -/
theorem exists_of_foldBinary {int : Int → Int → Int} {frac : Fraction → Fraction → Fraction}
    (h : foldBinary x y int frac = some R) : ∃ a b c, x = literal a ∧ y = literal b ∧
      Numeral.combine? int frac a b = some c ∧ R = literal c := by
  obtain ⟨c, hc, rfl⟩ := Option.map_eq_some_iff.mp h
  obtain ⟨a, b, ha, hb, hab⟩ := exists_of_numerals_eq_some hc
  exact ⟨a, b, c, ha, hb, hab, rfl⟩

/-- An integral division is folded only between integers, the second of
which is not zero. -/
theorem exists_of_foldIntegers {f : Int → Int → Int} (h : foldIntegers x y f = some R) :
    ∃ m n, x = literal (.integer m) ∧ y = literal (.integer n) ∧ n ≠ 0 ∧
      R = literal (.integer (f m n)) := by
  obtain ⟨m, hm, h⟩ := Option.bind_eq_some_iff.mp h
  obtain ⟨n, hn, h⟩ := Option.bind_eq_some_iff.mp h
  split at h
  · cases h
  · next hne =>
    cases h
    exact ⟨m, n, integer?_eq_some_iff.mp hm, integer?_eq_some_iff.mp hn, hne, rfl⟩

/-- A rounding is folded only of a fraction, whose sort stays. -/
theorem exists_of_foldRounding {r : Rounding} (h : foldRounding x r = some R) :
    ∃ s q, x = literal (.fraction s q) ∧ R = literal (.fraction s (.ofInt (q.toInt r))) := by
  unfold foldRounding at h
  split at h
  · next s q hq => cases h; exact ⟨s, q, numeral?_eq_some_iff.mp hq, rfl⟩
  · cases h

/-- A rule that asks for the type first answers at a type that is as
asked, or what it has for the operand. -/
theorem eq_some_of_ty {c : Ty → Prop} [DecidablePred c] {f : Option Tree} {g : Tree}
    (h : (do if c (← x.ty) then return some g else return f : Except Violation (Option Tree)) =
      .ok (some R)) : (∃ A, x.ty = .ok A ∧ c A ∧ R = g) ∨ f = some R := by
  cases hA : x.ty with
  | error v => rw [hA] at h; cases h
  | ok A =>
    rw [hA] at h
    change (if c A then .ok (some g) else .ok f : Except Violation (Option Tree)) = _ at h
    split at h
    · next hc => cases h; exact .inl ⟨A, rfl, hc, rfl⟩
    · cases h; exact .inr rfl

/-- What a conversion to fractions is folded to is one of the cases for it.
-/
theorem folds_of_foldToFraction {s : FractionSort} (h : foldToFraction x s = .ok (some R)) :
    Folds s.conversion x rest R := by
  rcases eq_some_of_ty h with ⟨A, hA, rfl, rfl⟩ | h
  · exact .ofSort hA
  · obtain ⟨n, hn, rfl⟩ := Option.map_eq_some_iff.mp h
    obtain ⟨a, ha, rfl⟩ := Option.map_eq_some_iff.mp hn
    rw [numeral?_eq_some_iff.mp ha]
    exact .convert

/-- What a conversion to an integer is folded to is one of the cases for it.
-/
theorem folds_of_foldToInteger (h : foldToInteger x = .ok (some R)) :
    Folds .toInteger x rest R := by
  rcases eq_some_of_ty h with ⟨A, hA, rfl, rfl⟩ | h
  · exact .ofInteger hA
  · obtain ⟨n, hn, rfl⟩ := Option.map_eq_some_iff.mp h
    obtain ⟨q, hq, rfl⟩ := Option.map_eq_some_iff.mp hn
    obtain ⟨s, rfl⟩ := exists_of_fraction?_eq_some hq
    exact .floor

/-- What the test for an integer is folded to is one of the cases for it. -/
theorem folds_of_foldIsInteger (h : foldIsInteger x = .ok (some R)) :
    Folds .isInteger x rest R := by
  rcases eq_some_of_ty h with ⟨A, hA, rfl, rfl⟩ | h
  · exact .integerType hA
  · obtain ⟨b, hb, rfl⟩ := Option.map_eq_some_iff.mp h
    obtain ⟨q, hq, rfl⟩ := Option.map_eq_some_iff.mp hb
    obtain ⟨s, rfl⟩ := exists_of_fraction?_eq_some hq
    exact .isInteger

/-- What the test for a rational is folded to is one of the cases for it. -/
theorem folds_of_foldIsRational (h : foldIsRational x = .ok (some R)) :
    Folds .isRational x rest R := by
  rcases eq_some_of_ty h with ⟨A, hA, rfl | rfl, rfl⟩ | h
  · exact .rationalType (.inl hA)
  · exact .rationalType (.inr hA)
  · obtain ⟨b, hb, rfl⟩ := Option.map_eq_some_iff.mp h
    obtain ⟨q, hq, rfl⟩ := Option.map_eq_some_iff.mp hb
    obtain ⟨s, rfl⟩ := exists_of_fraction?_eq_some hq
    exact .isRational

/-- A rule for two operands has a second one. -/
theorem exists_of_second {F : Tree → Option Tree}
    (h : (do return F (← second op rest) : Except Violation (Option Tree)) = .ok (some R)) :
    ∃ y ys, rest = y :: ys ∧ F y = some R := by
  cases rest with
  | nil => cases h
  | cons y ys => exact ⟨y, ys, rfl, Except.ok.inj h⟩

/-- Whatever a node is folded to, one of the cases of `Folds` says how. -/
theorem folds_of_foldNode (h : foldNode op x rest = .ok (some R)) : Folds op x rest R := by
  cases op with
  | equals =>
    obtain ⟨y, ys, rfl, hy⟩ := exists_of_second h
    exact folds_of_foldEquals hy
  | less =>
    obtain ⟨y, ys, rfl, hy⟩ := exists_of_second h
    obtain ⟨a, b, o, rfl, rfl, ho, rfl⟩ := exists_of_foldCompare hy
    exact .less ho
  | lessEquals =>
    obtain ⟨y, ys, rfl, hy⟩ := exists_of_second h
    obtain ⟨a, b, o, rfl, rfl, ho, rfl⟩ := exists_of_foldCompare hy
    exact .lessEquals ho
  | negate =>
    obtain ⟨n, hn, rfl⟩ := Option.map_eq_some_iff.mp (Except.ok.inj h)
    obtain ⟨a, ha, rfl⟩ := Option.map_eq_some_iff.mp hn
    rw [numeral?_eq_some_iff.mp ha]
    exact .negate
  | add =>
    obtain ⟨y, ys, rfl, hy⟩ := exists_of_second h
    obtain ⟨a, b, c, rfl, rfl, hc, rfl⟩ := exists_of_foldBinary hy
    exact .add hc
  | subtract =>
    obtain ⟨y, ys, rfl, hy⟩ := exists_of_second h
    obtain ⟨a, b, c, rfl, rfl, hc, rfl⟩ := exists_of_foldBinary hy
    exact .subtract hc
  | multiply =>
    obtain ⟨y, ys, rfl, hy⟩ := exists_of_second h
    obtain ⟨a, b, c, rfl, rfl, hc, rfl⟩ := exists_of_foldBinary hy
    exact .multiply hc
  | divide =>
    change foldDivide x (second .divide rest) = _ at h
    unfold foldDivide at h
    split at h
    · cases h
    · obtain ⟨y, ys, rfl, hy⟩ := exists_of_second h
      obtain ⟨c, hc, rfl⟩ := Option.map_eq_some_iff.mp hy
      obtain ⟨a, b, rfl, rfl, hab⟩ := exists_of_numerals_eq_some hc
      exact .divide hab
  | quotient c =>
    obtain ⟨y, ys, rfl, hy⟩ := exists_of_second h
    obtain ⟨m, n, rfl, rfl, hn, rfl⟩ := exists_of_foldIntegers hy
    exact .quotient hn
  | remainder c =>
    obtain ⟨y, ys, rfl, hy⟩ := exists_of_second h
    obtain ⟨m, n, rfl, rfl, hn, rfl⟩ := exists_of_foldIntegers hy
    exact .remainder hn
  | rounding r =>
    obtain ⟨s, q, rfl, rfl⟩ := exists_of_foldRounding (Except.ok.inj h)
    exact .rounding
  | toInteger => exact folds_of_foldToInteger h
  | toRational => exact folds_of_foldToFraction (s := .rational) h
  | toReal => exact folds_of_foldToFraction (s := .real) h
  | isInteger => exact folds_of_foldIsInteger h
  | isRational => exact folds_of_foldIsRational h
  | universal | existential | and | or | not | equivalent | call => cases h

/-! ## From the rules to the function -/

@[simp] theorem numeral?_literal (n : Numeral) : (literal n).numeral? = some n :=
  numeral?_eq_some_iff.mpr rfl

@[simp] theorem numerals_literal {α : Type} (f : Numeral → Numeral → Option α) (a b : Numeral) :
    numerals (literal a) (literal b) f = f a b := by
  rw [numerals, numeral?_literal, numeral?_literal]
  rfl

/-- A rule that asks for the type first answers by the type, where there
is one. -/
theorem eq_of_ty {A : Ty} {c : Ty → Prop} [DecidablePred c] {f g : Option Tree} (h : x.ty = .ok A) :
    (do if c (← x.ty) then return f else return g : Except Violation (Option Tree)) =
      .ok (if c A then f else g) := by
  rw [h]
  change (if c A then .ok f else .ok g : Except Violation (Option Tree)) = _
  split <;> rfl

theorem foldNode_conversion {s : FractionSort} :
    foldNode s.conversion x rest = foldToFraction x s := by cases s <;> rfl

/-- A literal is converted to the literal of its number, in the new sort. -/
theorem foldToFraction_literal {s : FractionSort} {a : Numeral} :
    foldToFraction (literal a) s = .ok (some (literal (a.toFraction s))) := by
  rw [foldToFraction, eq_of_ty (ty_literal a), numeral?_literal]
  split
  · next h =>
    -- a literal of the sort is converted to itself
    cases a with
    | integer => cases s <;> cases h
    | fraction s' q => cases s <;> cases s' <;> first | rfl | cases h
  · rfl

/-- What a rule answers is what the node folds to. Where two rules are for
one node they agree. -/
theorem foldNode_of_folds (h : Folds op x rest R) : foldNode op x rest = .ok (some R) := by
  cases h with
  | same => exact congrArg Except.ok (if_pos rfl)
  | different hne hx hy =>
    exact congrArg Except.ok ((if_neg hne).trans (if_pos ⟨hx, hy⟩))
  | less h | lessEquals h =>
    exact congrArg Except.ok (by rw [foldCompare, numerals_literal, h]; rfl)
  | add h | subtract h | multiply h =>
    exact congrArg Except.ok (by rw [foldBinary, numerals_literal, h]; rfl)
  | @divide a b c rest h =>
    cases a with
    | integer => cases h
    | fraction s q =>
      change (.ok ((numerals _ _ _).map literal) : Except Violation (Option Tree)) = _
      rw [numerals_literal, h]
      rfl
  | quotient hn | remainder hn => exact congrArg Except.ok (if_neg hn)
  | negate => exact congrArg Except.ok (by rw [numeral?_literal]; rfl)
  | rounding => rfl
  | ofInteger h | integerType h => exact (eq_of_ty h).trans (congrArg Except.ok (if_pos rfl))
  | ofSort h =>
    rw [foldNode_conversion, foldToFraction, eq_of_ty h, if_pos rfl]
  | convert => rw [foldNode_conversion, foldToFraction_literal]
  | rationalType h =>
    obtain h | h := h
    · exact (eq_of_ty h).trans (congrArg Except.ok (if_pos (.inl rfl)))
    · exact (eq_of_ty h).trans (congrArg Except.ok (if_pos (.inr rfl)))
  | @floor s | @isInteger s | @isRational s => cases s <;> rfl

end Tree

end TypedTerms
