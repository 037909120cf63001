import TypedTerms.Fraction.Pair
import TypedTerms.Proofs.Fraction.Scan
import TypedTerms.Fraction.Error

/-!
# Calculations with fractions

Every fraction comes from a calculation: it is made of integers or read
from a text, or it is the result of an operation on fractions. One can
calculate with fractions, which cannot be but in lowest terms. One can
calculate with bare pairs of integers, where some results are brought to
lowest terms and others are put together as they are. And one can
calculate with rational numbers, knowing nothing of numerators, except
where an integer division is made of them.

Each source and each operation answers alike in all three, down to where
it has no result, and so does every calculation
(`Arithmetic.Preserves.result`). The pair that is calculated is therefore
the pair of a fraction. It is the number in lowest terms, and
calculations of one number, whichever they are, come to one pair
(`canonical_of_calculated`).
-/

namespace TypedTerms

/-! ## Pairs -/

namespace Fraction

variable {n d : Int}

theorem pair_injective : Function.Injective pair := by
  intro a b h
  obtain ⟨hnum, hden⟩ := Pair.mk.inj h
  exact ext_parts hnum (Int.ofNat.inj hden)

/-- Both signs are changed where the sign goes to the numerator. -/
theorem signed_pair (hd : d ≠ 0) :
    (if d < 0 then ⟨-n, -d⟩ else ⟨n, d⟩ : Pair) = ⟨d.sign * n, d.natAbs⟩ := by
  rcases lt_or_gt_of_ne hd with hneg | hpos
  · rw [if_pos hneg, Int.sign_eq_neg_one_of_neg hneg, neg_one_mul,
      Int.ofNat_natAbs_of_nonpos hneg.le]
  · rw [if_neg hpos.not_gt, Int.sign_eq_one_of_pos hpos, one_mul, Int.natAbs_of_nonneg hpos.le]

/-- A fraction is reduced to the pair that is normalized. -/
theorem pair_reduce (hd : d ≠ 0) : (reduce n d hd).pair = Pair.normalize n d := by
  have hgcd : Int.gcd (d.sign * n) d.natAbs = Nat.gcd n.natAbs d.natAbs := by
    rw [Int.gcd, Int.natAbs_mul, Int.natAbs_sign_of_ne_zero hd, one_mul, Int.natAbs_natCast]
  have hnum : ((Nat.gcd n.natAbs d.natAbs : ℕ) : ℤ) ∣ d.sign * n := hgcd ▸ Int.gcd_dvd_left ..
  have hden : ((Nat.gcd n.natAbs d.natAbs : ℕ) : ℤ) ∣ d.natAbs := hgcd ▸ Int.gcd_dvd_right ..
  have hpair : (reduce n d hd).pair =
      ⟨d.sign * n / (Nat.gcd n.natAbs d.natAbs : ℕ), d.natAbs / (Nat.gcd n.natAbs d.natAbs : ℕ)⟩ :=
    rfl
  rw [hpair, Pair.normalize, signed_pair hd]
  simp only [hgcd]
  split
  · next hone => rw [hone, Int.ediv_one, Int.ediv_one]
  · rw [Int.tdiv_eq_ediv_of_dvd hnum, Int.tdiv_eq_ediv_of_dvd hden]

theorem pair_ofRatio? (n d : Int) : (ofRatio? n d).toOption.map pair = Pair.ofRatio? n d := by
  rw [ofRatio?, Pair.ofRatio?]
  split
  · rfl
  · next hd => exact congrArg some (pair_reduce hd)

/-- A decimal literal makes a fraction with the pair that it makes. -/
theorem pair_value (l : DecimalLiteral) : l.value.pair = Pair.ofLiteral l := by
  rw [DecimalLiteral.value, Pair.ofLiteral]
  split
  · exact pair_reduce _
  · rfl

end Fraction

/-! ## What a calculation is -/

/-- A fraction made from outside. -/
inductive Source where
  | zero
  | one
  | integer (n : Int)
  | ratio (n d : Int)
  | decimal (s : String)
  /-- An integer, or two with a slash. -/
  | text (s : String)

/-- An operation on two fractions. -/
inductive Operation where
  | add
  | sub
  | mul
  /-- The quotient, where a zero divisor breaks the contract. -/
  | divide
  /-- The quotient, where a zero divisor is refused. -/
  | checkedDivide
  | quotient (c : Division)
  | remainder (c : Division)

/-- A calculation, as its last step and the calculations before it. -/
inductive Calculation where
  | source (s : Source)
  | neg (c : Calculation)
  | operation (op : Operation) (c d : Calculation)

/-- A way to calculate: with fractions, or with what stands for them. -/
structure Arithmetic (α : Type) where
  source : Source → Option α
  neg : α → α
  operation : Operation → α → α → Option α

/-- The result of a calculation, if every step has one. -/
def Calculation.result {α : Type} (A : Arithmetic α) : Calculation → Option α
  | source s => A.source s
  | neg c => (c.result A).map A.neg
  | operation op c d => (c.result A).bind fun a => (d.result A).bind (A.operation op a)

/-- Each step of one arithmetic is carried to the same step of the other,
where it has a result and where it has none. -/
structure Arithmetic.Preserves {α β : Type} (A : Arithmetic α) (B : Arithmetic β) (f : α → β) :
    Prop where
  source : ∀ s, (A.source s).map f = B.source s
  neg : ∀ a, f (A.neg a) = B.neg (f a)
  operation : ∀ op a b, (A.operation op a b).map f = B.operation op (f a) (f b)

/-- If each step is carried over, so is every calculation. -/
theorem Arithmetic.Preserves.result {α β : Type} {A : Arithmetic α} {B : Arithmetic β} {f : α → β}
    (h : A.Preserves B f) (c : Calculation) : (c.result A).map f = c.result B := by
  induction c with
  | source s => exact h.source s
  | neg c ih =>
    rw [Calculation.result, Calculation.result, ← ih, Option.map_map, Option.map_map]
    exact congrFun (congrArg _ (funext h.neg)) _
  | operation op c d ihc ihd =>
    rw [Calculation.result, Calculation.result, ← ihc, ← ihd]
    cases c.result A with
    | none => rfl
    | some a =>
      cases d.result A with
      | none => rfl
      | some b => exact h.operation op a b

/-! ## Sources -/

namespace Source

/-- The fraction, if it can be made. -/
def make : Source → Option Fraction
  | zero => some Fraction.zero
  | one => some Fraction.one
  | integer n => some (Fraction.ofInt n)
  | ratio n d => (Fraction.ofRatio? n d).toOption
  | decimal s => (Fraction.ofDecimal? s).toOption
  | text s => (Fraction.ofText? s).toOption

/-- The pair, if it can be made. -/
def pair? : Source → Option Pair
  | zero => some (Pair.ofInt 0)
  | one => some (Pair.ofInt 1)
  | integer n => some (Pair.ofInt n)
  | ratio n d => Pair.ofRatio? n d
  | decimal s => Pair.ofDecimal? s
  | text s => Pair.ofText? s

/-- The quotient of two integers. -/
def ratio? (n d : Int) : Option ℚ := if d = 0 then none else some (n / d)

/-- The number, if there is one. -/
def number? : Source → Option ℚ
  | zero => some 0
  | one => some 1
  | integer n => some n
  | ratio n d => ratio? n d
  | decimal s => (DecimalLiteral.read? s.toList).bind fun l =>
      if l.power.natAbs ≤ DecimalLiteral.maxPower then some l.number else none
  | text s =>
    match s.toList.span (· != '/') with
    | (n, []) => (Text.readInt? n).map Int.cast
    | (n, _ :: d) => (Text.readInt? n).bind fun n => (Text.readInt? d).bind (ratio? n)

/-- What is made of the fraction that a decimal literal denotes. -/
theorem map_ofDecimal? {α : Type} (f : Fraction → α) (s : String) :
    (Fraction.ofDecimal? s).toOption.map f = (DecimalLiteral.read? s.toList).bind fun l =>
      if l.power.natAbs ≤ DecimalLiteral.maxPower then some (f l.value) else none := by
  rw [Fraction.ofDecimal?]
  rcases DecimalLiteral.read? s.toList with _ | l
  · rfl
  · rw [Option.bind_some]
    dsimp only
    split <;> rfl

/-- What is made of the fraction that a text is, from what is made of an
integer and of a quotient. -/
theorem map_ofText? {α : Type} (f : Fraction → α) (s : String) :
    (Fraction.ofText? s).toOption.map f =
      match s.toList.span (· != '/') with
      | (n, []) => (Text.readInt? n).map fun n => f (Fraction.ofInt n)
      | (n, _ :: d) => (Text.readInt? n).bind fun n => (Text.readInt? d).bind fun d =>
          (Fraction.ofRatio? n d).toOption.map f := by
  rw [Fraction.ofText?]
  rcases s.toList.span (· != '/') with ⟨n, _ | ⟨slash, d⟩⟩
  · dsimp only
    cases Text.readInt? n <;> rfl
  · dsimp only
    cases Text.readInt? n with
    | none => rfl
    | some n => cases Text.readInt? d <;> rfl

/-- Every source makes a fraction with the pair that it makes, or neither.
-/
theorem make_map_pair (s : Source) : s.make.map Fraction.pair = s.pair? := by
  cases s with
  | zero | one | integer => rfl
  | ratio n d => exact Fraction.pair_ofRatio? n d
  | decimal s =>
    rw [make, map_ofDecimal?, pair?, Pair.ofDecimal?]
    simp only [Fraction.pair_value]
  | text s =>
    rw [make, map_ofText?, pair?, Pair.ofText?]
    simp only [Fraction.pair_ofRatio?]
    rfl

theorem toRat_ofRatio? (n d : Int) :
    (Fraction.ofRatio? n d).toOption.map Fraction.toRat = ratio? n d := by
  rw [Fraction.ofRatio?, ratio?]
  split
  · rfl
  · next hd => exact congrArg some (Fraction.toRat_reduce n d hd)

/-- Every source makes the number that it denotes, or nothing where there is
none. -/
theorem make_map_toRat (s : Source) : s.make.map Fraction.toRat = s.number? := by
  cases s with
  | zero => exact congrArg some Fraction.toRat_zero
  | one => exact congrArg some Fraction.toRat_one
  | integer n => exact congrArg some (Fraction.toRat_ofInt n)
  | ratio n d => exact toRat_ofRatio? n d
  | decimal s =>
    rw [make, map_ofDecimal?, number?]
    simp only [DecimalLiteral.toRat_value]
  | text s =>
    rw [make, map_ofText?, number?]
    simp only [toRat_ofRatio?, Fraction.toRat_ofInt]

end Source

/-! ## Operations -/

namespace Operation

/-- The result on fractions, if there is one. -/
def apply : Operation → Fraction → Fraction → Option Fraction
  | add, a, b => some (a + b)
  | sub, a, b => some (a - b)
  | mul, a, b => some (a * b)
  | divide, a, b => (a.divide b).toOption
  | checkedDivide, a, b => (a.divide? b).toOption
  | quotient c, a, b => (a.guardedQuotient c b).toOption
  | remainder c, a, b => (a.guardedRemainder c b).toOption

/-- The result on pairs, if there is one. -/
def pair? : Operation → Pair → Pair → Option Pair
  | add, p, q => some (p.add q)
  | sub, p, q => some (p.sub q)
  | mul, p, q => some (p.mul q)
  | divide, p, q => p.divide? q
  | checkedDivide, p, q => p.divide? q
  | quotient c, p, q => p.divideInt? c.quotient q
  | remainder c, p, q => p.divideInt? c.remainder q

/-- The result on rational numbers, if there is one. Integer divisions
are those of the cross products in lowest terms. -/
def number? : Operation → ℚ → ℚ → Option ℚ
  | add, x, y => some (x + y)
  | sub, x, y => some (x - y)
  | mul, x, y => some (x * y)
  | divide, x, y => if y = 0 then none else some (x / y)
  | checkedDivide, x, y => if y = 0 then none else some (x / y)
  | quotient c, x, y => if y = 0 then none else some (c.quotient (x.num * y.den) (x.den * y.num))
  | remainder c, x, y =>
    if y = 0 then none else some (c.remainder (x.num * y.den) (x.den * y.num))

/-- The two ways to divide answer the same where they answer. -/
theorem toOption_divide (a b : Fraction) : (a.divide b).toOption = (a.divide? b).toOption := by
  rw [Fraction.divide]
  cases a.divide? b <;> rfl

/-- What is made of a result that is guarded against the zero divisor. -/
theorem map_guarded {α : Type} (f : Fraction → α) {v : Violation} (b q : Fraction) :
    (if b.num = 0 then .error v else .ok q : Except Violation Fraction).toOption.map f =
      if b.num = 0 then none else some (f q) := by
  split <;> rfl

/-- An integral quotient or remainder of fractions has the pair that is
computed from their pairs. -/
theorem pair_divideInt? (f : Int → Int → Int) (a b : Fraction) :
    (if b.num = 0 then none
      else some (Fraction.ofInt (f (a.num * b.den) (a.den * b.num))).pair) =
      a.pair.divideInt? f b.pair := by
  have hzero : (a.den : Int) * b.num = 0 ↔ b.num = 0 := by
    rw [Int.mul_eq_zero, or_iff_right a.den_ne_zero]
  exact if_congr hzero.symm rfl rfl

/-- Every operation on fractions is carried to the one on pairs, results and
refusals alike. -/
theorem apply_map_pair (op : Operation) (a b : Fraction) :
    (op.apply a b).map Fraction.pair = op.pair? a.pair b.pair := by
  cases op with
  | add | sub | mul => exact congrArg some (Fraction.pair_reduce (Fraction.den_mul_den_ne_zero a b))
  | divide =>
    rw [apply, toOption_divide]
    exact Fraction.pair_ofRatio? _ _
  | checkedDivide => exact Fraction.pair_ofRatio? _ _
  | quotient c => exact (map_guarded _ _ _).trans (pair_divideInt? c.quotient a b)
  | remainder c => exact (map_guarded _ _ _).trans (pair_divideInt? c.remainder a b)

/-- The quotient of fractions is the quotient of the numbers, where the
divisor is not zero. -/
theorem toRat_divide? (a b : Fraction) : (a.divide? b).toOption.map Fraction.toRat =
    if b.toRat = 0 then none else some (a.toRat / b.toRat) := by
  by_cases hb : b = Fraction.zero
  · rw [Fraction.divide?_eq_error_iff.mpr hb, if_pos (Fraction.eq_zero_iff.mp hb)]
    rfl
  · obtain ⟨q, hq, hval⟩ := Fraction.exists_divide?_eq_ok (a := a) hb
    rw [hq, if_neg (mt Fraction.eq_zero_iff.mpr hb), ← hval]
    rfl

/-- An integral quotient or remainder of fractions is the integer computed
from the cross products, where the divisor is not zero. -/
theorem toRat_divideInt (f : Int → Int → Int) (a b : Fraction) :
    (if b.num = 0 then none
      else some (Fraction.ofInt (f (a.num * b.den) (a.den * b.num))).toRat) =
      if b.toRat = 0 then none else some ((f (a.num * b.den) (a.den * b.num) : ℤ) : ℚ) := by
  rw [Fraction.toRat_ofInt]
  exact if_congr Fraction.toRat_eq_zero_iff.symm rfl rfl

/-- Every operation on fractions is carried to the one on numbers, results
and refusals alike. -/
theorem apply_map_toRat (op : Operation) (a b : Fraction) :
    (op.apply a b).map Fraction.toRat = op.number? a.toRat b.toRat := by
  cases op with
  | add => exact congrArg some (Fraction.toRat_add a b)
  | sub => exact congrArg some (Fraction.toRat_sub a b)
  | mul => exact congrArg some (Fraction.toRat_mul a b)
  | divide =>
    rw [apply, toOption_divide]
    exact toRat_divide? a b
  | checkedDivide => exact toRat_divide? a b
  | quotient c => exact (map_guarded _ _ _).trans (toRat_divideInt c.quotient a b)
  | remainder c => exact (map_guarded _ _ _).trans (toRat_divideInt c.remainder a b)

end Operation

/-! ## Calculations -/

namespace Arithmetic

/-- With fractions. -/
def fractions : Arithmetic Fraction := ⟨Source.make, fun a => -a, Operation.apply⟩

/-- With pairs. -/
def pairs : Arithmetic Pair := ⟨Source.pair?, Pair.neg, Operation.pair?⟩

/-- With rational numbers. -/
def rationals : Arithmetic ℚ := ⟨Source.number?, fun x => -x, Operation.number?⟩

/-- Step by step, calculating with fractions is calculating with their
pairs. -/
theorem fractions_preserves_pairs : fractions.Preserves pairs Fraction.pair :=
  ⟨Source.make_map_pair, fun _ => rfl, Operation.apply_map_pair⟩

/-- Step by step, calculating with fractions is calculating with the
rational numbers. -/
theorem fractions_preserves_rationals : fractions.Preserves rationals Fraction.toRat :=
  ⟨Source.make_map_toRat, Fraction.toRat_neg, Operation.apply_map_toRat⟩

end Arithmetic

namespace Calculation

open Arithmetic

variable {c d : Calculation} {p q : Pair}

/-- The pair that is calculated is the pair of the fraction that is
calculated, and the number is its number. -/
theorem exists_fraction (hp : c.result pairs = some p) :
    ∃ a, c.result fractions = some a ∧ a.pair = p ∧ c.result rationals = some a.toRat := by
  rw [← fractions_preserves_pairs.result] at hp
  obtain ⟨a, ha, hap⟩ := Option.map_eq_some_iff.mp hp
  refine ⟨a, ha, hap, ?_⟩
  rw [← fractions_preserves_rationals.result, ha, Option.map_some]

/-- The pair that a calculation with bare integers comes to is in lowest
terms, zero over one if it is zero, and is the number that the
calculation comes to. Two calculations come to one pair when they come to
one number. Fractions calculate the same pairs. -/
theorem canonical_of_calculated (hp : c.result pairs = some p) (hq : d.result pairs = some q) :
    (0 < p.den ∧ Int.gcd p.num p.den = 1 ∧ (p.num = 0 → p.den = 1)) ∧
    c.result rationals = some (p.num / p.den : ℚ) ∧
    ((p == q) = true ↔ (p.num / p.den : ℚ) = q.num / q.den) ∧
    ((p == q) = true ↔ c.result rationals = d.result rationals) ∧
    ∃ a b, c.result fractions = some a ∧ d.result fractions = some b ∧ a.pair = p ∧ b.pair = q := by
  obtain ⟨a, ha, rfl, hc⟩ := exists_fraction hp
  obtain ⟨b, hb, rfl, hd⟩ := exists_fraction hq
  have hzero : a.num = 0 → a.den = 1 := by
    intro h
    have hcop := a.coprime
    rwa [h, Int.natAbs_zero, Nat.coprime_zero_left] at hcop
  have heq : (a.pair == b.pair) = true ↔ a.toRat = b.toRat := by
    rw [beq_iff_eq, Fraction.pair_injective.eq_iff, Fraction.toRat_injective.eq_iff]
  have hvalue : ∀ e : Fraction, (e.pair.num / e.pair.den : ℚ) = e.toRat := by
    intro e
    rw [Fraction.toRat_eq_div]
    rfl
  rw [hvalue, hvalue, hc, hd]
  exact ⟨⟨Int.natCast_pos.mpr a.den_pos, a.coprime, fun h => congrArg Nat.cast (hzero h)⟩, rfl,
    heq, heq.trans Option.some_inj.symm, a, b, ha, hb, rfl, rfl⟩

/-- 12.50e-1 - 6/4 and -(1/4) are both -1/4. -/
theorem canonical_of_calculated_sample :
    ∃ p q,
      (operation .sub (.source (.decimal "12.50e-1")) (.source (.text "6/4"))).result pairs =
        some p ∧
      (neg (operation .checkedDivide (.source .one) (.source (.integer 4)))).result pairs =
        some q ∧
      (p == q) = true := by
  have hp : (operation .sub (.source (.decimal "12.50e-1")) (.source (.text "6/4"))).result pairs =
      some ⟨-1, 4⟩ := by decide
  have hq : (neg (operation .checkedDivide (.source .one) (.source (.integer 4)))).result pairs =
      some ⟨-1, 4⟩ := by decide
  obtain ⟨-, -, heq, -⟩ := canonical_of_calculated hp hq
  exact ⟨_, _, hp, hq, heq.mpr rfl⟩

end Calculation

end TypedTerms
