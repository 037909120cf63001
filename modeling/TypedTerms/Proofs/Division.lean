import Mathlib.Data.Sign.Basic
import TypedTerms.Proofs.Fraction.Rounded
import TypedTerms.Fraction.Error

/-!
# The laws of the three divisions

What distinguishes the conventions of division is which remainders they
leave. `Division.Leaves` says so for integers and for rational numbers
alike: a remainder is always smaller than the divisor, and it is of the
sign of the dividend, of the sign of the divisor, or not negative.
Remainders of one convention are closer to each other than two multiples
of the divisor, so one integer at most is a quotient with such a remainder
(`Leaves.unique`).

A rational quotient rounded as the convention says is that integer
(`leaves_of_rounds`). Quotient and remainder of integers are each computed
by a correction of their own, but the quotient is the rounded one and the
remainder is what it leaves over. So they satisfy the laws of their
convention, and no other pair does (`division_laws`).
-/

namespace TypedTerms

/-! ## What a rounding drops -/

namespace Rounding

variable {r : Rounding} {q : ℚ} {n : ℤ}

/-- No rounding moves a number by one or more. -/
theorem Rounds.abs_sub_lt_one (h : r.Rounds q n) : |q - n| < 1 := by
  cases r with
  | ceiling =>
    obtain ⟨hlow, hhigh⟩ := h
    exact abs_lt.mpr ⟨by linarith, by linarith⟩
  | floor =>
    obtain ⟨hlow, hhigh⟩ := h
    exact abs_lt.mpr ⟨by linarith, by linarith⟩
  | round => exact h.1.trans_lt one_half_lt_one
  | truncate =>
    rcases le_total 0 q with hq | hq
    · obtain ⟨hlow, hhigh⟩ := h.1 hq
      exact abs_lt.mpr ⟨by linarith, by linarith⟩
    · obtain ⟨hlow, hhigh⟩ := h.2 hq
      exact abs_lt.mpr ⟨by linarith, by linarith⟩

/-- What truncating drops has the sign of the number. -/
theorem Rounds.sign_sub (h : truncate.Rounds q n) :
    q - n = 0 ∨ SignType.sign (q - n) = SignType.sign q := by
  rcases lt_trichotomy 0 q with hpos | hzero | hneg
  · have hrest : 0 ≤ q - n := sub_nonneg.mpr (h.1 hpos.le).1
    exact hrest.eq_or_lt.imp Eq.symm fun hlt => by rw [sign_pos hlt, sign_pos hpos]
  · subst hzero
    have hlow := (h.1 le_rfl).1
    have hhigh := (h.2 le_rfl).2
    exact .inl (by linarith)
  · have hrest : q - n ≤ 0 := sub_nonpos.mpr (h.2 hneg.le).2
    exact hrest.eq_or_lt.imp id fun hlt => by rw [sign_neg hlt, sign_neg hneg]

end Rounding

namespace Division

/-! ## Remainders of a convention -/

section Remainders

variable {R : Type*} [CommRing R] [LinearOrder R] {c : Division} {a b r s x : R}

/-- Dividing `a` by `b`, the convention may leave `r` over. -/
def Leaves (c : Division) (a b r : R) : Prop :=
  match c with
  | .euclidean => 0 ≤ r ∧ r < |b|
  | .floor => |r| < |b| ∧ (r = 0 ∨ SignType.sign r = SignType.sign b)
  | .truncate => |r| < |b| ∧ (r = 0 ∨ SignType.sign r = SignType.sign a)

/-- Numbers that are zero or of the sign of `x` lie on one side of zero. -/
theorem nonneg_or_nonpos_of_sign (hr : r = 0 ∨ SignType.sign r = SignType.sign x)
    (hs : s = 0 ∨ SignType.sign s = SignType.sign x) : 0 ≤ r ∧ 0 ≤ s ∨ r ≤ 0 ∧ s ≤ 0 := by
  rcases le_total 0 x with hx | hx
  · have hside : ∀ {y : R}, y = 0 ∨ SignType.sign y = SignType.sign x → 0 ≤ y := by
      rintro y (rfl | hy)
      · exact le_rfl
      · rwa [← sign_nonneg_iff, hy, sign_nonneg_iff]
    exact .inl ⟨hside hr, hside hs⟩
  · have hside : ∀ {y : R}, y = 0 ∨ SignType.sign y = SignType.sign x → y ≤ 0 := by
      rintro y (rfl | hy)
      · exact le_rfl
      · rwa [← sign_nonpos_iff, hy, sign_nonpos_iff]
    exact .inr ⟨hside hr, hside hs⟩

variable [IsStrictOrderedRing R]

/-- Two remainders in the range of a convention that has the sign of one
number differ by less than the divisor. -/
theorem abs_sub_lt_of_sign (hr : |r| < |b| ∧ (r = 0 ∨ SignType.sign r = SignType.sign x))
    (hs : |s| < |b| ∧ (s = 0 ∨ SignType.sign s = SignType.sign x)) : |r - s| < |b| := by
  obtain ⟨hrlow, hrhigh⟩ := abs_lt.mp hr.1
  obtain ⟨hslow, hshigh⟩ := abs_lt.mp hs.1
  rw [abs_lt]
  rcases nonneg_or_nonpos_of_sign hr.2 hs.2 with ⟨hr, hs⟩ | ⟨hr, hs⟩
  · constructor <;> linarith
  · constructor <;> linarith

/-- Two remainders of a convention are less than a divisor apart. -/
theorem Leaves.abs_sub_lt (hr : c.Leaves a b r) (hs : c.Leaves a b s) : |r - s| < |b| := by
  cases c with
  | euclidean =>
    obtain ⟨hrlow, hrhigh⟩ := hr
    obtain ⟨hslow, hshigh⟩ := hs
    rw [abs_lt]
    constructor <;> linarith
  | floor => exact abs_sub_lt_of_sign hr hs
  | truncate => exact abs_sub_lt_of_sign hr hs

/-- One integer at most is a quotient of the convention. -/
theorem Leaves.unique {k m : ℤ} (hk : c.Leaves a b (a - k * b)) (hm : c.Leaves a b (a - m * b)) :
    k = m := by
  have hlt : |((m - k : ℤ) : R)| * |b| < 1 * |b| := by
    have hdiff : ((m - k : ℤ) : R) * b = a - k * b - (a - m * b) := by
      push_cast
      ring
    rw [← abs_mul, hdiff, one_mul]
    exact hk.abs_sub_lt hm
  have hone : |m - k| < 1 := by
    have hcast := lt_of_mul_lt_mul_right hlt (abs_nonneg b)
    rw [← Int.cast_abs] at hcast
    exact_mod_cast hcast
  exact (sub_eq_zero.mp (Int.abs_lt_one_iff.mp hone)).symm

end Remainders

/-- Integers leave over what they leave over as rational numbers. -/
theorem leaves_cast_iff {c : Division} {a b r : ℤ} :
    c.Leaves (a : ℚ) (b : ℚ) (r : ℚ) ↔ c.Leaves a b r := by
  have hlt : |(r : ℚ)| < |(b : ℚ)| ↔ |r| < |b| := by
    rw [← Int.cast_abs, ← Int.cast_abs, Int.cast_lt]
  cases c with
  | euclidean =>
    rw [Leaves, Leaves, ← Int.cast_abs, Int.cast_lt, Int.cast_nonneg_iff]
  | floor => rw [Leaves, Leaves, hlt, sign_intCast, sign_intCast, Int.cast_eq_zero]
  | truncate => rw [Leaves, Leaves, hlt, sign_intCast, sign_intCast, Int.cast_eq_zero]

/-! ## Quotient and remainder of integers -/

/-- The rational quotient, rounded as the convention says, leaves a
remainder of the convention. -/
theorem leaves_of_rounds {c : Division} {a b : ℚ} {n : ℤ} (hb : b ≠ 0)
    (h : (c.rounding b).Rounds (a / b) n) : c.Leaves a b (a - n * b) := by
  -- what rounding drops, times the divisor, is the remainder
  have hrest : a - n * b = (a / b - n) * b := by rw [sub_mul, div_mul_cancel₀ _ hb]
  have hsmall : |a - n * b| < |b| := by
    rw [hrest, abs_mul]
    exact mul_lt_of_lt_one_left (abs_pos.mpr hb) h.abs_sub_lt_one
  cases c with
  | euclidean =>
    refine ⟨?_, (le_abs_self _).trans_lt hsmall⟩
    rw [hrest]
    rcases lt_or_gt_of_ne hb with hneg | hpos
    · rw [rounding, if_neg hneg.not_gt] at h
      exact mul_nonneg_of_nonpos_of_nonpos (sub_nonpos.mpr h.2) hneg.le
    · rw [rounding, if_pos hpos] at h
      exact mul_nonneg (sub_nonneg.mpr h.1) hpos.le
  | floor =>
    refine ⟨hsmall, ?_⟩
    have hdrop : 0 ≤ a / b - n := sub_nonneg.mpr h.1
    rw [hrest]
    rcases hdrop.eq_or_lt with hzero | hpos
    · exact .inl (by rw [← hzero, zero_mul])
    · exact .inr (by rw [sign_mul, sign_pos hpos, one_mul])
  | truncate =>
    refine ⟨hsmall, ?_⟩
    rw [hrest]
    rcases h.sign_sub with hzero | hsign
    · exact .inl (by rw [hzero, zero_mul])
    · exact .inr (by rw [sign_mul, hsign, ← sign_mul, div_mul_cancel₀ _ hb])

/-- The remainder of integers is one of the convention. -/
theorem leaves_remainder (c : Division) (a : ℤ) {b : ℤ} (hb : b ≠ 0) :
    c.Leaves a b (c.remainder a b) := by
  have hb' : (b : ℚ) ≠ 0 := Int.cast_ne_zero.mpr hb
  have hrounds : (c.rounding b).Rounds (a / b : ℚ) (c.quotient a b) := by
    rw [quotient_eq_rounded c a hb]
    exact Rounding.rounds_rounded _ _
  have hleaves := leaves_of_rounds hb' hrounds
  rw [← leaves_cast_iff, remainder_eq_sub]
  push_cast
  exact hleaves

/-- The laws of division. For a divisor that is not zero there are a
quotient and a remainder that make up the dividend. The remainder is in
the range of the convention: smaller than the divisor, and not negative in
the Euclidean one, else zero or of the sign of the dividend when
truncating and of the divisor when flooring. No other quotient and
remainder are so. -/
theorem division_laws (c : Division) (a : ℤ) {b : ℤ} (hb : b ≠ 0) :
    ∃ q r, c.guardedQuotient a b = .ok q ∧ c.guardedRemainder a b = .ok r ∧
      q * b + r = a ∧ c.Leaves a b r ∧
      ∀ q' r', q' * b + r' = a → c.Leaves a b r' → q' = q ∧ r' = r := by
  have hlaw : c.quotient a b * b + c.remainder a b = a := by
    rw [remainder_eq_sub, add_sub_cancel]
  have hleaves := leaves_remainder c a hb
  refine ⟨_, _, if_neg hb, if_neg hb, hlaw, hleaves, fun q' r' hlaw' hleaves' => ?_⟩
  have hr : c.remainder a b = a - c.quotient a b * b := remainder_eq_sub c a b
  have hr' : r' = a - q' * b := eq_sub_of_add_eq' hlaw'
  obtain rfl : q' = c.quotient a b := Leaves.unique (hr' ▸ hleaves') (hr ▸ hleaves)
  exact ⟨rfl, hr'.trans hr.symm⟩

/-- Of -7 by -2: the Euclidean quotient is 4, and the remainder 1. -/
theorem division_laws_sample : (-2 : ℤ) ≠ 0 ∧ ∃ q r,
    Division.euclidean.guardedQuotient (-7) (-2) = .ok q ∧
      Division.euclidean.guardedRemainder (-7) (-2) = .ok r ∧ q = 4 ∧ r = 1 := by
  obtain ⟨q, r, hq, hr, -, -, hunique⟩ := division_laws .euclidean (-7) (b := -2) (by decide)
  obtain ⟨hfour, hone⟩ := hunique 4 1 (by decide) ⟨by decide, by decide⟩
  exact ⟨by decide, q, r, hq, hr, hfour.symm, hone.symm⟩

end Division

end TypedTerms
