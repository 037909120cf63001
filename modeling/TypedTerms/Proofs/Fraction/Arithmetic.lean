import Mathlib.Data.Rat.Floor
import Mathlib.Tactic.Linarith
import TypedTerms.Fraction.Rounding
import Mathlib.Algebra.Order.Field.Rat

/-!
# Fractions are the rational numbers

`Fraction.toRat` reads a fraction as a rational number. Both are kept in
lowest terms, so the reading loses nothing (`toRat_injective`). Sums,
differences, products, negations and quotients are read as those of the
rational numbers, and the order as their order.

`Rounding.Rounds` says of an integer that a rounding takes a rational
number to it, by where the integer lies and not by how it is computed.
The integer that `Fraction.toInt` computes is there (`rounds_toInt`).
-/

namespace TypedTerms

namespace Fraction

variable {a b q : Fraction}

/-- The rational number that a fraction is. -/
def toRat (q : Fraction) : ℚ := ⟨q.num, q.den, q.den_pos.ne', q.coprime⟩

/-- Fractions that are the same rational number are one fraction. -/
theorem toRat_injective : Function.Injective toRat := by
  intro a b h
  have hnum : a.toRat.num = b.toRat.num := by rw [h]
  have hden : a.toRat.den = b.toRat.den := by rw [h]
  exact ext_parts hnum hden

/-- The fraction that a rational number is. -/
def ofRat (q : ℚ) : Fraction where
  num := q.num
  den := q.den
  den_pos := q.den_pos
  coprime := q.reduced

@[simp] theorem toRat_ofRat (q : ℚ) : (ofRat q).toRat = q := rfl

theorem toRat_eq_div (q : Fraction) : q.toRat = q.num / q.den := (Rat.num_div_den q.toRat).symm

theorem den_cast_pos (q : Fraction) : (0 : ℚ) < q.den := Nat.cast_pos.mpr q.den_pos

@[simp] theorem toRat_ofInt (n : Int) : (ofInt n).toRat = n := by
  rw [toRat_eq_div, ofInt, Nat.cast_one, div_one]

theorem toRat_eq_zero_iff : q.toRat = 0 ↔ q.num = 0 := Rat.num_eq_zero.symm

/-! ## Arithmetic -/

/-- The reduced pair is the quotient of the given one. -/
theorem toRat_reduce (n d : Int) (hd : d ≠ 0) : (reduce n d hd).toRat = n / d := by
  have hratio : ((reduce n d hd).num : ℚ) * d = n * (reduce n d hd).den := by
    exact_mod_cast reduce_num_mul n d hd
  rw [toRat_eq_div, div_eq_div_iff (den_cast_pos _).ne' (Int.cast_ne_zero.mpr hd), hratio]

/-- The sum of fractions is that of the numbers. -/
@[simp] theorem toRat_add (a b : Fraction) : (a + b).toRat = a.toRat + b.toRat := by
  show (reduce _ _ (den_mul_den_ne_zero a b)).toRat = _
  rw [toRat_reduce, toRat_eq_div a, toRat_eq_div b,
    div_add_div _ _ (den_cast_pos a).ne' (den_cast_pos b).ne']
  push_cast
  ring

@[simp] theorem toRat_sub (a b : Fraction) : (a - b).toRat = a.toRat - b.toRat := by
  show (reduce _ _ (den_mul_den_ne_zero a b)).toRat = _
  rw [toRat_reduce, toRat_eq_div a, toRat_eq_div b,
    div_sub_div _ _ (den_cast_pos a).ne' (den_cast_pos b).ne']
  push_cast
  ring

@[simp] theorem toRat_mul (a b : Fraction) : (a * b).toRat = a.toRat * b.toRat := by
  show (reduce _ _ (den_mul_den_ne_zero a b)).toRat = _
  rw [toRat_reduce, toRat_eq_div a, toRat_eq_div b, div_mul_div_comm]
  push_cast
  rfl

@[simp] theorem toRat_neg (a : Fraction) : (-a).toRat = -a.toRat := by
  rw [toRat_eq_div, toRat_eq_div a, ← neg_div]
  show ((-a.num : Int) : ℚ) / a.den = _
  push_cast
  rfl

/-- A fraction is made of two integers when the second is not zero, and it
is their quotient. -/
theorem ofRatio?_eq_ok_iff {n d : Int} : ofRatio? n d = .ok q ↔ d ≠ 0 ∧ q.toRat = n / d := by
  rw [ofRatio?]
  by_cases hd : d = 0
  · simp [hd]
  · rw [dif_neg hd, Except.ok.injEq, and_iff_right hd, ← toRat_reduce n d hd,
      toRat_injective.eq_iff, eq_comm]

/-- Cross products are in the ratio of the fractions. -/
theorem cross_div_cross (a b : Fraction) :
    ((a.num * b.den : ℤ) / (a.den * b.num : ℤ) : ℚ) = a.toRat / b.toRat := by
  rw [toRat_eq_div a, toRat_eq_div b, div_div_div_eq]
  push_cast
  rfl

/-- A quotient is answered exactly when the divisor is not zero, and then
it is the quotient of the rational numbers. -/
theorem divide?_eq_ok_iff : a.divide? b = .ok q ↔ b.toRat ≠ 0 ∧ q.toRat = a.toRat / b.toRat := by
  have hzero : (a.den : Int) * b.num = 0 ↔ b.toRat = 0 := by
    rw [toRat_eq_zero_iff, Int.mul_eq_zero, or_iff_right a.den_ne_zero]
  rw [divide?, ofRatio?_eq_ok_iff, cross_div_cross, Ne, hzero]

/-! ## Order -/

theorem compare_eq_lt_iff : compare a b = .lt ↔ a.toRat < b.toRat := by
  rw [compare_def, compare_lt_iff_lt, Rat.lt_iff]
  rfl

theorem compare_eq_gt_iff : compare a b = .gt ↔ b.toRat < a.toRat := by
  rw [compare_def, compare_gt_iff_gt, Rat.lt_iff]
  rfl

/-- The fractions with denominator one are the integers. -/
theorem isInteger_iff : q.isInteger = true ↔ ∃ n : ℤ, q.toRat = n := by
  rw [isInteger, beq_iff_eq]
  constructor
  · intro hden
    refine ⟨q.num, ?_⟩
    rw [toRat_eq_div, hden, Nat.cast_one, div_one]
  · rintro ⟨n, hn⟩
    have hden : q.toRat.den = 1 := by rw [hn, Rat.den_intCast]
    exact hden

end Fraction

/-! ## Rounding -/

/-- The rounding takes the rational number to the integer. -/
def Rounding.Rounds (r : Rounding) (q : ℚ) (n : ℤ) : Prop :=
  match r with
  | .ceiling => n - 1 < q ∧ q ≤ n
  | .floor => n ≤ q ∧ q < n + 1
  | .truncate => (0 ≤ q → n ≤ q ∧ q < n + 1) ∧ (q ≤ 0 → n - 1 < q ∧ q ≤ n)
  | .round => |q - n| ≤ 1 / 2 ∧ (|q - n| = 1 / 2 → Even n)

namespace Rounding

variable {r : Rounding} {q : ℚ} {m n : ℤ}

/-- A number is not rounded to two integers: half way between them the even
one is taken, and next to it is no even one. -/
theorem not_lt_of_rounds_round (hm : round.Rounds q m) (hn : round.Rounds q n) : ¬ m < n := by
  intro hlt
  obtain ⟨-, hlow⟩ := abs_le.mp hm.1
  obtain ⟨hhigh, -⟩ := abs_le.mp hn.1
  have hle : (m : ℚ) + 1 ≤ n := by exact_mod_cast hlt
  -- the number lies half way between two neighbours, which cannot both be even
  have hqm : q - m = 1 / 2 := by linarith
  have hqn : q - n = -(1 / 2) := by linarith
  have hnm : n = m + 1 := by
    have : (n : ℚ) = m + 1 := by linarith
    exact_mod_cast this
  have hhalf : |(1 / 2 : ℚ)| = 1 / 2 := abs_of_pos one_half_pos
  have hevenm := hm.2 (by rw [hqm, hhalf])
  have hevenn := hn.2 (by rw [hqn, abs_neg, hhalf])
  rw [hnm, Int.even_add_one] at hevenn
  exact hevenn hevenm

/-- A rounding takes a rational number to one integer only. -/
theorem Rounds.unique (hm : r.Rounds q m) (hn : r.Rounds q n) : m = n := by
  cases r with
  | ceiling => exact (Int.ceil_eq_iff.mpr hm).symm.trans (Int.ceil_eq_iff.mpr hn)
  | floor => exact (Int.floor_eq_iff.mpr hm).symm.trans (Int.floor_eq_iff.mpr hn)
  | truncate =>
    rcases le_total 0 q with hq | hq
    · exact (Int.floor_eq_iff.mpr (hm.1 hq)).symm.trans (Int.floor_eq_iff.mpr (hn.1 hq))
    · exact (Int.ceil_eq_iff.mpr (hm.2 hq)).symm.trans (Int.ceil_eq_iff.mpr (hn.2 hq))
  | round =>
    exact le_antisymm (not_lt.mp (not_lt_of_rounds_round hn hm))
      (not_lt.mp (not_lt_of_rounds_round hm hn))

end Rounding

namespace Fraction

variable {q : Fraction}

/-- A fraction is at most an integer when the numerators over its
denominator compare so. -/
theorem toRat_le_iff {n : ℤ} : q.toRat ≤ n ↔ q.num ≤ n * q.den := by
  rw [toRat_eq_div, div_le_iff₀ q.den_cast_pos]
  exact_mod_cast Iff.rfl

/-- The floor by integer division is the floor of the number. -/
theorem floor_eq (q : Fraction) : q.floor = ⌊q.toRat⌋ := by
  rw [floor, Division.quotient_floor _ q.den_ne_zero,
    Int.fdiv_eq_ediv_of_nonneg _ (Int.natCast_nonneg _), toRat_eq_div,
    Rat.floor_intCast_div_natCast]

/-- The ceiling is where rounding up puts it. -/
theorem rounds_ceiling (q : Fraction) : Rounding.ceiling.Rounds q.toRat q.ceiling := by
  have hden : 0 < (q.den : Int) := Int.natCast_pos.mpr q.den_pos
  have hlow := Int.ediv_mul_le (q.num + q.den - 1) hden.ne'
  have hhigh := Int.lt_ediv_add_one_mul_self (q.num + q.den - 1) hden
  rw [Int.add_mul] at hhigh
  rw [ceiling, Division.quotient_floor _ q.den_ne_zero,
    Int.fdiv_eq_ediv_of_nonneg _ hden.le]
  constructor
  · have hlt : ¬ q.toRat ≤ ((q.num + q.den - 1) / q.den - 1 : ℤ) := by
      rw [toRat_le_iff, Int.sub_mul]
      omega
    exact_mod_cast not_le.mp hlt
  · rw [toRat_le_iff]
    omega

/-- The floor is where rounding down puts it. -/
theorem rounds_floor (q : Fraction) : Rounding.floor.Rounds q.toRat q.floor := by
  rw [floor_eq]
  exact ⟨Int.floor_le _, Int.lt_floor_add_one _⟩

theorem truncate_neg (q : Fraction) : (-q).truncate = -q.truncate := Int.neg_tdiv ..

/-- Above zero, truncating is rounding down. -/
theorem truncate_eq_floor (h : 0 ≤ q.num) : q.truncate = q.floor := by
  rw [truncate, Division.quotient_truncate, floor, Division.quotient_floor _ q.den_ne_zero,
    Int.fdiv_eq_tdiv_of_nonneg h (Int.natCast_nonneg _)]

/-- The truncated integer is where truncating puts it. -/
theorem rounds_truncate (q : Fraction) : Rounding.truncate.Rounds q.toRat q.truncate := by
  constructor
  · intro hq
    have hnum : 0 ≤ q.num := Rat.num_nonneg.mpr hq
    rw [truncate_eq_floor hnum]
    exact rounds_floor q
  · intro hq
    have hnum : 0 ≤ (-q).num := neg_nonneg.mpr (Rat.num_nonpos.mpr hq)
    obtain ⟨hlow, hhigh⟩ := rounds_floor (-q)
    rw [← truncate_eq_floor hnum, truncate_neg, toRat_neg] at hlow hhigh
    push_cast at hlow hhigh
    constructor <;> linarith

/-! Halves are compared as integers, of twice the number. -/

/-- Twice a fraction is compared with an integer from below by integers. -/
theorem le_two_mul_toRat_iff {k : ℤ} : k ≤ 2 * q.toRat ↔ k * q.den ≤ 2 * q.num := by
  rw [toRat_eq_div, mul_div_assoc', le_div_iff₀ q.den_cast_pos]
  exact_mod_cast Iff.rfl

theorem two_mul_toRat_le_iff {k : ℤ} : 2 * q.toRat ≤ k ↔ 2 * q.num ≤ k * q.den := by
  rw [toRat_eq_div, mul_div_assoc', div_le_iff₀ q.den_cast_pos]
  exact_mod_cast Iff.rfl

theorem two_mul_toRat_eq_iff {k : ℤ} : 2 * q.toRat = k ↔ 2 * q.num = k * q.den := by
  rw [le_antisymm_iff, two_mul_toRat_le_iff, le_two_mul_toRat_iff, ← le_antisymm_iff]

/-- Rounding to the nearest integer, by the odd multiples of a half
around it. -/
theorem rounds_round_iff {n : ℤ} : Rounding.round.Rounds q.toRat n ↔
    ((2 * n - 1) * q.den ≤ 2 * q.num ∧ 2 * q.num ≤ (2 * n + 1) * q.den) ∧
      (2 * q.num = (2 * n + 1) * q.den ∨ 2 * q.num = (2 * n - 1) * q.den → Even n) := by
  have hlow : -(1 / 2) ≤ q.toRat - n ↔ ((2 * n - 1 : ℤ) : ℚ) ≤ 2 * q.toRat := by
    push_cast
    constructor <;> intro h <;> linarith
  have hhigh : q.toRat - n ≤ 1 / 2 ↔ 2 * q.toRat ≤ ((2 * n + 1 : ℤ) : ℚ) := by
    push_cast
    constructor <;> intro h <;> linarith
  have hup : q.toRat - n = 1 / 2 ↔ 2 * q.toRat = ((2 * n + 1 : ℤ) : ℚ) := by
    push_cast
    constructor <;> intro h <;> linarith
  have hdown : q.toRat - n = -(1 / 2) ↔ 2 * q.toRat = ((2 * n - 1 : ℤ) : ℚ) := by
    push_cast
    constructor <;> intro h <;> linarith
  rw [Rounding.Rounds, abs_le, abs_eq one_half_pos.le, hlow, hhigh, hup, hdown,
    le_two_mul_toRat_iff, two_mul_toRat_le_iff, two_mul_toRat_eq_iff, two_mul_toRat_eq_iff]

/-- A half that is in lowest terms has the denominator two. -/
theorem den_eq_two_of_half {k : ℤ} (h : 2 * q.num = (2 * k + 1) * q.den) :
    q.den = 2 ∧ q.num = 2 * k + 1 := by
  have hdvd : q.den ∣ 2 := by
    have hint : (q.den : ℤ) ∣ 2 * q.num := ⟨2 * k + 1, by rw [h, Int.mul_comm]⟩
    have hnat : q.den ∣ 2 * q.num.natAbs := by
      simpa [Int.natAbs_mul] using Int.natCast_dvd.mp hint
    exact q.coprime.symm.dvd_of_dvd_mul_right hnat
  have hle := Nat.le_of_dvd Nat.two_pos hdvd
  have hpos := q.den_pos
  rcases (by omega : q.den = 1 ∨ q.den = 2) with hone | htwo
  · rw [hone] at h
    omega
  · rw [htwo] at h
    exact ⟨htwo, by omega⟩

/-- The rounded integer is the nearest, and the even one of two nearest. -/
theorem rounds_round (q : Fraction) : Rounding.round.Rounds q.toRat q.round := by
  have hden : 0 < (q.den : Int) := Int.natCast_pos.mpr q.den_pos
  -- the floor of the number and a half, before it steps back from an odd result
  obtain ⟨r, hr⟩ : ∃ r, r = (2 * q.num + q.den) / (2 * q.den) := ⟨_, rfl⟩
  have hlow := Int.ediv_mul_le (2 * q.num + q.den) (by omega : 2 * (q.den : Int) ≠ 0)
  have hhigh := Int.lt_ediv_add_one_mul_self (2 * q.num + q.den) (by omega : 0 < 2 * (q.den : Int))
  rw [← hr] at hlow hhigh
  have hround : q.round = if q.num % 2 = 1 ∧ q.den = 2 ∧ r % 2 = 1 then r - 1 else r := by
    rw [round, Division.quotient_floor _ (by omega : 2 * (q.den : Int) ≠ 0),
      Int.fdiv_eq_ediv_of_nonneg _ (by omega), ← hr]
  rw [hround, rounds_round_iff]
  split
  · next hodd =>
    obtain ⟨hnum, htwo, hr⟩ := hodd
    rw [htwo] at hlow hhigh ⊢
    exact ⟨by omega, fun _ => Int.even_iff.mpr (by omega)⟩
  · next hstay =>
    constructor
    · constructor <;> linarith
    · rintro (hup | hdown)
      · linarith
      · obtain ⟨htwo, hnum⟩ := den_eq_two_of_half (k := r - 1) (by rw [hdown]; ring)
        rw [Int.even_iff]
        omega

/-- Whatever the rounding, the integer that is computed is where the
rounding puts it. -/
theorem rounds_toInt (r : Rounding) (q : Fraction) : r.Rounds q.toRat (q.toInt r) := by
  cases r with
  | ceiling => exact rounds_ceiling q
  | floor => exact rounds_floor q
  | round => exact rounds_round q
  | truncate => exact rounds_truncate q

end Fraction

end TypedTerms

/-!
## The arithmetic and the order of fractions

The order of fractions compares cross products. It is the order of the
rational numbers (`compare_eq_compare_toRat`), and so a total order which
calls two fractions equal only when they are one fraction. With sums,
differences, products, negations and quotients that makes the fractions
the ordered field of the rational numbers (`arithmetic_and_order`).
-/

namespace TypedTerms.Fraction

variable {a b q : Fraction}

@[simp] theorem toRat_zero : zero.toRat = 0 := by rw [zero, toRat_ofInt, Int.cast_zero]

@[simp] theorem toRat_one : one.toRat = 1 := by rw [one, toRat_ofInt, Int.cast_one]

theorem eq_zero_iff : q = zero ↔ q.toRat = 0 := by
  rw [← toRat_zero, toRat_injective.eq_iff]

/-! ### Division -/

/-- A quotient is refused exactly for the divisor zero. -/
theorem divide?_eq_error_iff : a.divide? b = .error .divisionByZero ↔ b = zero := by
  rw [eq_zero_iff, toRat_eq_zero_iff, divide?, ofRatio?]
  by_cases hb : b.num = 0
  · rw [dif_pos (by rw [hb, Int.mul_zero])]
    exact iff_of_true rfl hb
  · rw [dif_neg (Int.mul_ne_zero a.den_ne_zero hb)]
    refine iff_of_false ?_ hb
    rintro ⟨⟩

/-- For any other divisor the quotient is answered, and exact. -/
theorem exists_divide?_eq_ok (hb : b ≠ zero) :
    ∃ q, a.divide? b = .ok q ∧ q.toRat = a.toRat / b.toRat := by
  have hquot : a.divide? b = .ok (ofRat (a.toRat / b.toRat)) :=
    divide?_eq_ok_iff.mpr ⟨mt eq_zero_iff.mpr hb, toRat_ofRat _⟩
  exact ⟨_, hquot, toRat_ofRat _⟩

/-! ### Order -/

theorem compare_self (a : Fraction) : compare a a = .eq := by
  rw [compare_def]
  exact compare_eq_iff_eq.mpr rfl

/-- Fractions compare as the rational numbers that they are. -/
theorem compare_eq_compare_toRat (a b : Fraction) : compare a b = compare a.toRat b.toRat := by
  rcases lt_trichotomy a.toRat b.toRat with h | h | h
  · rw [compare_eq_lt_iff.mpr h, compare_lt_iff_lt.mpr h]
  · rw [toRat_injective h, compare_self]
    exact (compare_eq_iff_eq.mpr rfl).symm
  · rw [compare_eq_gt_iff.mpr h, compare_gt_iff_gt.mpr h]

theorem compare_eq_eq_iff : compare a b = .eq ↔ a = b := by
  rw [compare_eq_compare_toRat, compare_eq_iff_eq, toRat_injective.eq_iff]

theorem compare_swap (a b : Fraction) : compare b a = (compare a b).swap := by
  rw [compare_eq_compare_toRat, compare_eq_compare_toRat a]
  exact Std.OrientedOrd.eq_swap

theorem compare_ne_gt_iff : compare a b ≠ .gt ↔ a.toRat ≤ b.toRat := by
  rw [compare_eq_compare_toRat, compare_le_iff_le]

/-- The sign of a fraction stands to zero as its number does. -/
theorem compare_sign_zero (q : Fraction) : compare q.sign 0 = compare q.toRat 0 := by
  rw [sign]
  rcases lt_trichotomy q.toRat 0 with h | h | h
  · have hnum : q.num < 0 := Rat.num_neg.mpr h
    rw [Int.sign_eq_neg_one_of_neg hnum, compare_lt_iff_lt.mpr h]
    rfl
  · rw [toRat_eq_zero_iff.mp h, compare_eq_iff_eq.mpr h]
    rfl
  · have hnum : 0 < q.num := Rat.num_pos.mpr h
    rw [Int.sign_eq_one_of_pos hnum, compare_gt_iff_gt.mpr h]
    rfl

/-- Fractions compare as the sign of their difference says. -/
theorem compare_eq_compare_sign (a b : Fraction) : compare a b = compare (a - b).sign 0 := by
  rw [compare_sign_zero, toRat_sub, compare_eq_compare_toRat]
  rcases lt_trichotomy a.toRat b.toRat with h | h | h
  · rw [compare_lt_iff_lt.mpr h, compare_lt_iff_lt.mpr (sub_neg.mpr h)]
  · rw [compare_eq_iff_eq.mpr h, compare_eq_iff_eq.mpr (sub_eq_zero.mpr h)]
  · rw [compare_gt_iff_gt.mpr h, compare_gt_iff_gt.mpr (sub_pos.mpr h)]

/-- Fractions are calculated with and ordered as the rational numbers.
Sum, difference, product and negation are exact; a quotient is refused
for the divisor zero only, and is exact otherwise. Fractions compare as
their numbers do and as the sign of their difference says, so that the
comparison is a total order in which only a fraction itself is equal to
it. -/
theorem arithmetic_and_order (a b : Fraction) :
    ((a + b).toRat = a.toRat + b.toRat ∧ (a - b).toRat = a.toRat - b.toRat ∧
      (a * b).toRat = a.toRat * b.toRat ∧ (-a).toRat = -a.toRat) ∧
    ((a.divide? b = .error .divisionByZero ↔ b = zero) ∧
      (b ≠ zero → ∃ q, a.divide? b = .ok q ∧ q.toRat = a.toRat / b.toRat)) ∧
    compare a b = compare a.toRat b.toRat ∧
    (compare b a = (compare a b).swap ∧
      (∀ c, compare a b ≠ .gt → compare b c ≠ .gt → compare a c ≠ .gt) ∧
      (compare a b = .eq ↔ (a == b) = true)) ∧
    compare a b = compare (a - b).sign 0 := by
  refine ⟨⟨toRat_add a b, toRat_sub a b, toRat_mul a b, toRat_neg a⟩,
    ⟨divide?_eq_error_iff, exists_divide?_eq_ok⟩, compare_eq_compare_toRat a b,
    ⟨compare_swap a b, ?_, ?_⟩, compare_eq_compare_sign a b⟩
  · intro c hab hbc
    rw [compare_ne_gt_iff] at hab hbc ⊢
    exact hab.trans hbc
  · rw [beq_iff_eq, compare_eq_eq_iff]

/-- Of -1/6 and 3/4: the quotient is -2/9. -/
theorem arithmetic_and_order_sample :
    ∃ q, (reduce (-2) 12 (by decide)).divide? (reduce (-9) (-12) (by decide)) = .ok q ∧
      q.toRat = -2 / 9 := by
  have h := arithmetic_and_order (reduce (-2) 12 (by decide)) (reduce (-9) (-12) (by decide))
  obtain ⟨q, hq, hval⟩ := h.2.1.2 (by decide)
  refine ⟨q, hq, ?_⟩
  rw [hval, toRat_reduce, toRat_reduce]
  norm_num

end TypedTerms.Fraction
