import TypedTerms.Proofs.Fraction.Arithmetic
import Mathlib.Order.GaloisConnection.Basic

/-!
# Roundings as functions of rational numbers

`Rounding.rounded` says what a rounding makes of a rational number, by floor
and ceiling. It is the only integer that the rounding takes the number to
(`rounds_rounded`), and so what `Fraction.toInt` computes.

A division of integers rounds the rational quotient, and its convention
says how (`quotient_eq_rounded`). Flooring rounds down and truncating toward
zero, whatever the divisor; the Euclidean convention rounds down for a
positive divisor and up for a negative one. What is left over is the
remainder.
-/

namespace TypedTerms

namespace Rounding

/-- What the rounding makes of a rational number. -/
def rounded : Rounding → ℚ → ℤ
  | .ceiling, q => ⌈q⌉
  | .floor, q => ⌊q⌋
  | .truncate, q => if 0 ≤ q then ⌊q⌋ else ⌈q⌉
  | .round, q =>
    if Int.fract q < 1 / 2 then ⌊q⌋
    else if 1 / 2 < Int.fract q then ⌊q⌋ + 1
    -- half way the even neighbour is taken
    else ⌊q⌋ + ⌊q⌋ % 2

/-- Half way between two integers the even one is rounded to, and else the
nearest. -/
theorem rounds_rounded_round (q : ℚ) : round.Rounds q (round.rounded q) := by
  have hsplit := Int.fract_add_floor q
  have hnonneg := Int.fract_nonneg q
  have hlt := Int.fract_lt_one q
  rw [rounded]
  split_ifs with hlow hhigh
  · have hdist : |q - ⌊q⌋| = Int.fract q := abs_of_nonneg hnonneg
    exact ⟨hdist.trans_le hlow.le, fun h => absurd (hdist.symm.trans h) hlow.ne⟩
  · have hdist : |q - (⌊q⌋ + 1 : ℤ)| = 1 - Int.fract q := by
      rw [abs_of_nonpos (by push_cast; linarith)]
      push_cast
      linarith
    rw [Rounds, hdist]
    exact ⟨by linarith, fun h => by linarith⟩
  · have hhalf : Int.fract q = 1 / 2 := le_antisymm (not_lt.mp hhigh) (not_lt.mp hlow)
    rcases Int.even_or_odd ⌊q⌋ with heven | hodd
    · rw [Int.even_iff.mp heven, add_zero]
      exact ⟨((abs_of_nonneg hnonneg).trans hhalf).le, fun _ => heven⟩
    · rw [Int.odd_iff.mp hodd]
      have hdist : |q - (⌊q⌋ + 1 : ℤ)| = 1 / 2 := by
        rw [abs_of_nonpos (by push_cast; linarith)]
        push_cast
        linarith
      exact ⟨hdist.le, fun _ => hodd.add_one⟩

/-- What floor and ceiling make of a number is where the rounding puts it.
-/
theorem rounds_rounded (r : Rounding) (q : ℚ) : r.Rounds q (r.rounded q) := by
  have hfloor : floor.Rounds q ⌊q⌋ := ⟨Int.floor_le q, Int.lt_floor_add_one q⟩
  have hceil : ceiling.Rounds q ⌈q⌉ := ⟨by linarith [Int.ceil_lt_add_one q], Int.le_ceil q⟩
  cases r with
  | ceiling => exact hceil
  | floor => exact hfloor
  | round => exact rounds_rounded_round q
  | truncate =>
    rw [rounded]
    split_ifs with hq
    · refine ⟨fun _ => hfloor, fun hq' => ?_⟩
      obtain rfl := le_antisymm hq' hq
      norm_num
    · exact ⟨fun hq' => absurd hq' hq, fun _ => hceil⟩

end Rounding

/-- The integer computed from a fraction is the rounded number. -/
theorem Fraction.toInt_eq_rounded (r : Rounding) (q : Fraction) : q.toInt r = r.rounded q.toRat :=
  (rounds_toInt r q).unique (r.rounds_rounded q.toRat)

namespace Division

/-- How the convention rounds the quotient by a number. -/
def rounding (c : Division) (b : ℚ) : Rounding :=
  match c with
  | .euclidean => if 0 < b then .floor else .ceiling
  | .floor => .floor
  | .truncate => .truncate

/-- The Euclidean quotient rounds down for a positive divisor and up for a
negative one. -/
theorem quotient_euclidean_eq_rounded (a : ℤ) {b : ℤ} (hb : b ≠ 0) :
    quotient .euclidean a b = (rounding .euclidean b).rounded (a / b) := by
  obtain ⟨d, hd⟩ : ∃ d : ℕ, d = b.natAbs := ⟨_, rfl⟩
  rw [quotient_euclidean, rounding]
  rcases Int.natAbs_eq b with h | h <;> rw [← hd] at h <;> subst h
  · have hpos : (0 : ℚ) < (d : ℤ) := by
      exact_mod_cast Nat.pos_of_ne_zero (by rintro rfl; exact hb rfl)
    rw [if_pos hpos, Rounding.rounded, Int.cast_natCast, Rat.floor_intCast_div_natCast]
  · have hneg : ¬ (0 : ℚ) < (-d : ℤ) := by
      rw [not_lt]
      exact_mod_cast Int.neg_nonpos_of_nonneg (Int.natCast_nonneg d)
    rw [if_neg hneg, Rounding.rounded, Int.cast_neg, Int.cast_natCast, div_neg, Int.ceil_neg,
      Rat.floor_intCast_div_natCast, Int.ediv_neg]

/-- A quotient by a divisor that is not zero is that of the numbers with
their signs changed, and so one by a positive divisor. -/
theorem exists_natCast_div (a : ℤ) {b : ℤ} (hb : b ≠ 0) : ∃ (m : ℤ) (d : ℕ), d ≠ 0 ∧
    (a / b : ℚ) = m / d ∧ a.fdiv b = m.fdiv d ∧ a.tdiv b = m.tdiv d := by
  rcases Int.natAbs_eq b with h | h
  · refine ⟨a, b.natAbs, Int.natAbs_ne_zero.mpr hb, ?_, ?_, ?_⟩
    · rw [← Int.cast_natCast, ← h]
    · rw [← h]
    · rw [← h]
  · have h' : (b.natAbs : ℤ) = -b := by omega
    refine ⟨-a, b.natAbs, Int.natAbs_ne_zero.mpr hb, ?_, ?_, ?_⟩
    · rw [← Int.cast_natCast, h', Int.cast_neg, Int.cast_neg, neg_div_neg_eq]
    · rw [h', Int.neg_fdiv_neg]
    · rw [h', Int.neg_tdiv_neg]

/-- A quotient of integers is the rational quotient, rounded as the
convention says. -/
theorem quotient_eq_rounded (c : Division) (a : ℤ) {b : ℤ} (hb : b ≠ 0) :
    c.quotient a b = (c.rounding b).rounded (a / b) := by
  cases c with
  | euclidean => exact quotient_euclidean_eq_rounded a hb
  | floor =>
    obtain ⟨m, d, -, hdiv, hfloor, -⟩ := exists_natCast_div a hb
    rw [quotient_floor a hb, hfloor, rounding, Rounding.rounded, hdiv,
      Rat.floor_intCast_div_natCast, Int.fdiv_eq_ediv_of_nonneg _ (Int.natCast_nonneg d)]
  | truncate =>
    obtain ⟨m, d, hd, hdiv, -, htrunc⟩ := exists_natCast_div a hb
    have hpos : (0 : ℚ) < d := Nat.cast_pos.mpr (Nat.pos_of_ne_zero hd)
    have hsign : (0 : ℚ) ≤ m / d ↔ 0 ≤ m := by
      rw [le_div_iff₀ hpos, zero_mul, Int.cast_nonneg_iff]
    rw [quotient_truncate, htrunc, rounding, Rounding.rounded, hdiv]
    split_ifs with hq
    · rw [Rat.floor_intCast_div_natCast, Int.tdiv_eq_ediv_of_nonneg (hsign.mp hq)]
    · have hm : 0 ≤ -m := by
        rw [hsign] at hq
        omega
      rw [Rat.ceil_intCast_div_natCast, ← Int.tdiv_eq_ediv_of_nonneg hm, Int.neg_tdiv, neg_neg]

/-- What the quotient leaves over is the remainder. -/
theorem remainder_eq_sub (c : Division) (a b : ℤ) :
    c.remainder a b = a - c.quotient a b * b := by
  cases c with
  | euclidean => rw [remainder_euclidean, quotient_euclidean, Int.emod_def, Int.mul_comm]
  | floor => rfl
  | truncate => rw [remainder_truncate, quotient_truncate, Int.tmod_def, Int.mul_comm]

end Division

/-!
## Roundings among all integers

`Rounding.Rounds` says where the rounded integer lies. Here it stands
beside the other integers: the floor is the greatest one that is not above
the number (`Rounds.isGreatest`), the ceiling the least one that is not
below (`Rounds.isLeast`), and rounding takes the nearest one, and of two
nearest ones the even one (`Rounds.nearestEven`).

Changing the sign of the number turns floor and ceiling into each other
and leaves the other two roundings what they are (`toInt_neg`).
-/

namespace Rounding

variable {r : Rounding} {q : ℚ} {n : ℤ}

/-- The floor is the greatest integer that is not above the number. -/
theorem Rounds.isGreatest (h : floor.Rounds q n) : IsGreatest {m : ℤ | (m : ℚ) ≤ q} n := by
  rw [← Int.floor_eq_iff.mpr h]
  exact Int.gc_coe_floor.isGreatest_u

/-- The ceiling is the least integer that is not below the number. -/
theorem Rounds.isLeast (h : ceiling.Rounds q n) : IsLeast {m : ℤ | q ≤ m} n := by
  rw [← Int.ceil_eq_iff.mpr h]
  exact Int.gc_ceil_coe.isLeast_l

/-- Every other integer is farther from the number than `n`, or as far,
and then `n` is even. -/
def NearestEven (q : ℚ) (n : ℤ) : Prop :=
  ∀ m : ℤ, m ≠ n → |q - n| < |q - m| ∨ |q - n| = |q - m| ∧ Even n

/-- No integer is nearer to the number than the rounded one, and only an odd
one may be as near. -/
theorem Rounds.nearestEven (h : round.Rounds q n) : NearestEven q n := by
  intro m hm
  -- of two integers one is half a unit away or more
  have hapart : 1 ≤ |q - m| + |q - n| := by
    have hone : (1 : ℚ) ≤ |((n - m : ℤ) : ℚ)| := by
      rw [← Int.cast_abs]
      exact_mod_cast Int.one_le_abs (sub_ne_zero.mpr hm.symm)
    calc (1 : ℚ) ≤ |(q - m) - (q - n)| := by
          rwa [sub_sub_sub_cancel_left, ← Int.cast_sub]
      _ ≤ |q - m| + |q - n| := abs_sub _ _
  have hnear := h.1
  have hle : |q - n| ≤ |q - m| := by linarith
  refine hle.lt_or_eq.imp id fun heq => ⟨heq, h.2 ?_⟩
  linarith

/-- The rounding of the numbers with their signs changed. -/
def mirrored : Rounding → Rounding
  | .ceiling => .floor
  | .floor => .ceiling
  | .round => .round
  | .truncate => .truncate

/-- Changing the sign of a number changes the sign of the integer and turns
floor and ceiling into each other. -/
theorem Rounds.neg (h : r.Rounds q n) : r.mirrored.Rounds (-q) (-n) := by
  have hdown : floor.Rounds q n → ceiling.Rounds (-q) (-n : ℤ) := by
    rintro ⟨hlow, hhigh⟩
    constructor <;> push_cast <;> linarith
  have hup : ceiling.Rounds q n → floor.Rounds (-q) (-n : ℤ) := by
    rintro ⟨hlow, hhigh⟩
    constructor <;> push_cast <;> linarith
  cases r with
  | ceiling => exact hup h
  | floor => exact hdown h
  | round =>
    have hdist : |-q - (-n : ℤ)| = |q - n| := by
      rw [Int.cast_neg, neg_sub_neg, abs_sub_comm]
    exact ⟨hdist.trans_le h.1, fun hhalf => (h.2 (hdist.symm.trans hhalf)).neg⟩
  | truncate =>
    exact ⟨fun hq => hup (h.2 (neg_nonneg.mp hq)), fun hq => hdown (h.1 (neg_nonpos.mp hq))⟩

end Rounding

namespace Fraction

/-- The same for fractions: the negative is rounded to the negative, floor
and ceiling being exchanged. -/
theorem toInt_neg (r : Rounding) (q : Fraction) : (-q).toInt r.mirrored = -q.toInt r := by
  have hneg := (rounds_toInt r q).neg
  rw [← toRat_neg] at hneg
  exact (rounds_toInt r.mirrored (-q)).unique hneg

/-- Truncating rounds down above zero and up below. -/
theorem truncate_eq (q : Fraction) :
    q.truncate = if 0 ≤ q.toRat then q.floor else q.ceiling := by
  have hfloor : q.floor = ⌊q.toRat⌋ := floor_eq q
  have hceil : q.ceiling = ⌈q.toRat⌉ := toInt_eq_rounded .ceiling q
  rw [hfloor, hceil]
  exact toInt_eq_rounded .truncate q

/-- Every rounding is exact. The floor is the greatest integer not above
the fraction and the ceiling the least one not below; truncating takes the
one or the other by the sign; rounding takes the nearest integer, and half
way between two the even one. So rounding stays within a half and changes
its sign with the fraction, and the ceiling is the floor of the fraction
of the other sign, its own sign changed. -/
theorem rounding_exact (q : Fraction) :
    IsGreatest {n : ℤ | (n : ℚ) ≤ q.toRat} q.floor ∧
    IsLeast {n : ℤ | q.toRat ≤ n} q.ceiling ∧
    q.truncate = (if 0 ≤ q.toRat then q.floor else q.ceiling) ∧
    Rounding.NearestEven q.toRat q.round ∧
    |q.round - q.toRat| ≤ 1 / 2 ∧ (-q).round = -q.round ∧ q.ceiling = -(-q).floor := by
  have hnear : |q.round - q.toRat| ≤ 1 / 2 := by
    rw [abs_sub_comm]
    exact (rounds_round q).1
  have hceil : (-q).floor = -q.ceiling := toInt_neg .ceiling q
  exact ⟨(rounds_floor q).isGreatest, (rounds_ceiling q).isLeast, truncate_eq q,
    (rounds_round q).nearestEven, hnear, toInt_neg .round q, by rw [hceil, neg_neg]⟩

end Fraction

end TypedTerms
