import TypedTerms.Proofs.Division
import TypedTerms.Proofs.Fraction.Calculation

/-!
# Quotients and remainders of fractions

Quotient and remainder of two fractions are those of the cross products.
The cross products are the fractions multiplied by both denominators. The
quotient does not feel the common factor, but the remainder is multiplied
by it: it is what the quotient leaves over, times both denominators
(`toRat_remainder`).

So the division law `a = quotient * b + remainder` fails for fractions,
unless nothing is left over or both are integers
(`divide_with_remainder`).
-/

namespace TypedTerms.Fraction

variable {a b : Fraction}

/-- The remainder is what the quotient leaves over, times both denominators.
-/
theorem toRat_remainder (c : Division) (a b : Fraction) : (remainder c a b).toRat =
    (a.toRat - (quotient c a b).toRat * b.toRat) * (a.den * b.den) := by
  have ha := (den_cast_pos a).ne'
  have hb := (den_cast_pos b).ne'
  rw [remainder, quotient, toRat_ofInt, toRat_ofInt, c.remainder_eq_sub, toRat_eq_div a,
    toRat_eq_div b]
  push_cast
  field_simp

/-- Two fractions are integers when their denominators multiply to one. -/
theorem isInteger_and_isInteger_iff :
    a.isInteger = true ∧ b.isInteger = true ↔ (a.den * b.den : ℚ) = 1 := by
  rw [isInteger, isInteger, beq_iff_eq, beq_iff_eq, ← mul_eq_one]
  exact_mod_cast Iff.rfl

/-- The remainder is what the quotient leaves over, if nothing is left
over, or if both fractions are integers; and only then. -/
theorem quotient_mul_add_remainder_iff (c : Division) : quotient c a b * b + remainder c a b = a ↔
    remainder c a b = zero ∨ a.isInteger = true ∧ b.isInteger = true := by
  have hscale := toRat_remainder c a b
  have hden : (0 : ℚ) < a.den * b.den := mul_pos (den_cast_pos a) (den_cast_pos b)
  rw [← toRat_injective.eq_iff, toRat_add, toRat_mul, ← eq_sub_iff_add_eq', eq_zero_iff,
    isInteger_and_isInteger_iff, hscale]
  constructor
  · intro hrest
    rcases eq_or_ne (a.toRat - (quotient c a b).toRat * b.toRat) 0 with hzero | hne
    · exact .inl (by rw [hzero, zero_mul])
    · exact .inr (mul_left_cancel₀ hne (hrest.trans (mul_one _).symm))
  · rintro (hzero | hone)
    · rw [hzero, (mul_eq_zero_iff_right hden.ne').mp hzero]
    · rw [hone, mul_one]

/-- For a divisor that is not zero there are quotient and remainder. The
remainder is to be divided by both denominators before the division law
holds; as it is, it satisfies the law if it is zero or both fractions are
integers, and otherwise not. -/
theorem divide_with_remainder (c : Division) (hb : b ≠ zero) :
    ∃ k r, a.guardedQuotient c b = .ok k ∧ a.guardedRemainder c b = .ok r ∧
      a.toRat = k.toRat * b.toRat + r.toRat / (a.den * b.den) ∧
      (k * b + r = a ↔ r = zero ∨ a.isInteger = true ∧ b.isInteger = true) := by
  have hnum : b.num ≠ 0 := mt (fun h => eq_zero_iff.mpr (toRat_eq_zero_iff.mpr h)) hb
  have hden : (0 : ℚ) < a.den * b.den := mul_pos (den_cast_pos a) (den_cast_pos b)
  refine ⟨_, _, if_neg hnum, if_neg hnum, ?_, quotient_mul_add_remainder_iff c⟩
  rw [toRat_remainder, mul_div_cancel_right₀ _ hden.ne', add_sub_cancel]

/-- Of -7 by 2 the remainder is left over. -/
theorem divide_with_remainder_sample : ∃ k r,
    (ofInt (-7)).guardedQuotient .floor (ofInt 2) = .ok k ∧
      (ofInt (-7)).guardedRemainder .floor (ofInt 2) = .ok r ∧ k * ofInt 2 + r = ofInt (-7) := by
  obtain ⟨k, r, hk, hr, -, h⟩ :=
    divide_with_remainder (a := ofInt (-7)) (b := ofInt 2) .floor (by decide)
  exact ⟨k, r, hk, hr, h.mpr (.inr ⟨rfl, rfl⟩)⟩

/-- The law fails of 7/2 and 1/3, in every convention: the quotient is 10
and the remainder 1, where 1/6 is left over. -/
theorem quotient_mul_add_remainder_ne : reduce 1 3 (by decide) ≠ zero ∧ ∀ c : Division,
    quotient c (reduce 7 2 (by decide)) (reduce 1 3 (by decide)) * reduce 1 3 (by decide) +
      remainder c (reduce 7 2 (by decide)) (reduce 1 3 (by decide)) ≠ reduce 7 2 (by decide) := by
  refine ⟨by decide, fun c => ?_⟩
  cases c <;> decide +kernel

end TypedTerms.Fraction

/-!
## Integral quotients of fractions

A quotient of fractions in a division convention is the integer quotient
of the cross products. The cross products are in the ratio of the
fractions and the divisor keeps its sign among them, so what is rounded is
the quotient of the fractions, as the convention says
(`rounds_quotient`). Flooring and truncating give the integers next to the
exact quotient, and the Euclidean convention gives the one integer that
leaves a remainder in its range (`quotients_exact`).
-/

namespace TypedTerms

/-- How a convention rounds depends on the sign of the divisor only. -/
theorem Division.rounding_congr (c : Division) {b b' : ℚ} (h : 0 < b ↔ 0 < b') :
    c.rounding b = c.rounding b' := by
  cases c with
  | euclidean => exact if_congr h rfl rfl
  | floor | truncate => rfl

namespace Fraction

variable {a b : Fraction}

/-- The divisor among the cross products has the sign of the divisor. -/
theorem cross_pos_iff (a b : Fraction) : (0 : ℚ) < (a.den * b.num : ℤ) ↔ 0 < b.toRat := by
  rw [toRat_eq_div, div_pos_iff_of_pos_right b.den_cast_pos, Int.cast_mul, Int.cast_natCast,
    mul_pos_iff_of_pos_left a.den_cast_pos]

/-- The integer quotient of the cross products is the quotient of the
fractions, rounded as the convention says. -/
theorem rounds_quotient (c : Division) (hb : b.num ≠ 0) : (c.rounding b.toRat).Rounds
    (a.toRat / b.toRat) (c.quotient (a.num * b.den) (a.den * b.num)) := by
  have hcross : (a.den * b.num : ℤ) ≠ 0 := Int.mul_ne_zero a.den_ne_zero hb
  rw [c.quotient_eq_rounded _ hcross, cross_div_cross, c.rounding_congr (cross_pos_iff a b)]
  exact Rounding.rounds_rounded _ _

/-- The integral quotients of fractions are exact. For a divisor that is
not zero there is the exact quotient, and every convention has an integer
for it, over the denominator one. When flooring it is the greatest integer
not above the exact quotient; when truncating, the next integer from it
toward zero; in the Euclidean convention, the only integer that leaves a
remainder which is not negative and smaller than the divisor. -/
theorem quotients_exact (hb : b ≠ zero) : ∃ (q : Fraction) (k : Division → ℤ),
    (a.divide b = .ok q ∧ q.toRat = a.toRat / b.toRat) ∧
    (∀ c, a.guardedQuotient c b = .ok (ofInt (k c)) ∧
      a.pair.divideInt? c.quotient b.pair = some ⟨k c, 1⟩) ∧
    IsGreatest {n : ℤ | (n : ℚ) ≤ q.toRat} (k .floor) ∧
    ((0 ≤ q.toRat → IsGreatest {n : ℤ | (n : ℚ) ≤ q.toRat} (k .truncate)) ∧
      (q.toRat ≤ 0 → IsLeast {n : ℤ | q.toRat ≤ n} (k .truncate))) ∧
    ∀ n : ℤ, 0 ≤ a.toRat - n * b.toRat ∧ a.toRat - n * b.toRat < |b.toRat| ↔
      n = k .euclidean := by
  have hval : b.toRat ≠ 0 := mt eq_zero_iff.mpr hb
  have hnum : b.num ≠ 0 := mt toRat_eq_zero_iff.mpr hval
  obtain ⟨q, hdivide, hq⟩ := exists_divide?_eq_ok (a := a) hb
  have hquot : ∀ c, a.guardedQuotient c b =
      .ok (ofInt (c.quotient (a.num * b.den) (a.den * b.num))) := fun c => if_neg hnum
  have hrounds := fun c => rounds_quotient (a := a) c hnum
  have hleaves := Division.leaves_of_rounds hval (hrounds .euclidean)
  refine ⟨q, fun c => c.quotient (a.num * b.den) (a.den * b.num),
    ⟨by rw [divide, hdivide], hq⟩, fun c => ⟨hquot c, ?_⟩, ?_, ⟨?_, ?_⟩, fun n => ⟨?_, ?_⟩⟩
  · exact if_neg (Int.mul_ne_zero a.den_ne_zero hnum)
  · rw [hq]
    exact (hrounds .floor).isGreatest
  · rw [hq]
    exact fun hsign => Rounding.Rounds.isGreatest ((hrounds .truncate).1 hsign)
  · rw [hq]
    exact fun hsign => Rounding.Rounds.isLeast ((hrounds .truncate).2 hsign)
  · exact fun hn => Division.Leaves.unique (c := .euclidean) hn hleaves
  · rintro rfl
    exact hleaves

/-- Of -7/2 by -1/3: the Euclidean quotient is 11. -/
theorem quotients_exact_sample : reduce (-1) 3 (by decide) ≠ zero ∧
    (reduce (-7) 2 (by decide)).guardedQuotient .euclidean (reduce (-1) 3 (by decide)) =
      .ok (ofInt 11) := by
  have hb : reduce (-1) 3 (by decide) ≠ zero := by decide
  obtain ⟨q, k, -, hquot, -, -, heuclid⟩ := quotients_exact (a := reduce (-7) 2 (by decide)) hb
  refine ⟨hb, ?_⟩
  rw [(hquot .euclidean).1, ← (heuclid 11).mp ?_]
  rw [toRat_reduce, toRat_reduce]
  norm_num

end Fraction

end TypedTerms
