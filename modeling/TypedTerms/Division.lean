/-!
# Division of integers, in three conventions

Dividing `a` by `b` leaves a choice when the division is inexact: which
neighbouring integer is the quotient, and so which sign the remainder
has. `Division` names the three usual choices, and `Division.quotient`
and `Division.remainder` compute them from one primitive, the division
that truncates toward zero, by a correction of at most one.

The two functions do not call each other except for the floor
remainder, which is what the quotient leaves over. Their laws
(`quotient * b + remainder = a`, and the range of each remainder)
therefore say something about both.

The zero divisor is not decided here: callers put their own test in
front of it.
-/

namespace TypedTerms

/-- Which integer an inexact quotient becomes. -/
inductive Division where
  /-- The one whose remainder is not negative. -/
  | euclidean
  /-- The next one down. -/
  | floor
  /-- The next one toward zero. -/
  | truncate
  deriving DecidableEq, Repr, Hashable

namespace Division

/-- The quotient of `a` by `b`.

A floored quotient is one below the truncated one exactly when the
division is inexact and the operands differ in sign. A Euclidean
quotient moves one step away from zero exactly when the truncated
division would leave a negative remainder. -/
def quotient : Division → Int → Int → Int
  | .truncate, a, b => a.tdiv b
  | .floor, a, b =>
    if (decide (a < 0) != decide (b < 0)) && a.tmod b != 0 then a.tdiv b - 1
    else a.tdiv b
  | .euclidean, a, b =>
    if a < 0 ∧ a.tdiv b * b ≠ a then a.tdiv b - b.sign
    else a.tdiv b

/-- The remainder of `a` by `b`: of the sign of `a` when truncating, of
the sign of `b` when flooring, never negative in the Euclidean
convention. -/
def remainder : Division → Int → Int → Int
  | .truncate, a, b => a.tmod b
  | .floor, a, b => a - quotient .floor a b * b
  | .euclidean, a, b =>
    if a.tmod b < 0 then a.tmod b + b.natAbs else a.tmod b

/-! ## Agreement with the named integer operations -/

theorem quotient_truncate (a b : Int) : quotient .truncate a b = a.tdiv b := rfl

theorem remainder_truncate (a b : Int) : remainder .truncate a b = a.tmod b := rfl

/-- Truncating leaves nothing over exactly when the divisor divides. -/
theorem tdiv_mul_eq_iff (a b : Int) : a.tdiv b * b = a ↔ b ∣ a :=
  ⟨fun h => ⟨a.tdiv b, by rw [Int.mul_comm, h]⟩, Int.tdiv_mul_cancel⟩

/-- The Euclidean quotient, as it is corrected here, is the `/` of the
integers. -/
theorem quotient_euclidean (a b : Int) : quotient .euclidean a b = a / b := by
  rw [Int.ediv_eq_tdiv]
  show (if a < 0 ∧ a.tdiv b * b ≠ a then a.tdiv b - b.sign else a.tdiv b) = _
  by_cases ha : 0 ≤ a
  · rw [if_neg (by omega), if_pos (Or.inl ha), Int.sub_zero]
  · by_cases hd : b ∣ a
    · rw [if_neg (fun h => h.2 ((tdiv_mul_eq_iff a b).mpr hd)), if_pos (Or.inr hd), Int.sub_zero]
    · rw [if_pos ⟨by omega, fun h => hd ((tdiv_mul_eq_iff a b).mp h)⟩,
        if_neg (by simp [ha, hd])]

/-- The Euclidean remainder, as it is corrected here, is the `%` of the
integers. -/
theorem remainder_euclidean (a b : Int) : remainder .euclidean a b = a % b := by
  rw [Int.emod_eq_tmod]
  show (if a.tmod b < 0 then a.tmod b + b.natAbs else a.tmod b) = _
  by_cases ha : 0 ≤ a
  · have := Int.tmod_nonneg b ha
    rw [if_neg (by omega), if_pos (Or.inl ha), Int.natCast_zero, Int.add_zero]
  · by_cases hd : b ∣ a
    · have := Int.tmod_eq_zero_of_dvd hd
      rw [if_neg (by omega), if_pos (Or.inr hd), Int.natCast_zero, Int.add_zero]
    · have hle : a.tmod b ≤ 0 := by
        have := Int.tmod_nonneg b (a := -a) (by omega)
        rw [Int.neg_tmod] at this
        omega
      have hne : a.tmod b ≠ 0 := fun h => hd (Int.dvd_of_tmod_eq_zero h)
      rw [if_pos (by omega), if_neg (by simp [ha, hd])]

/-- The corrected quotient is the floored one, for a divisor other than
zero. -/
theorem quotient_floor (a : Int) {b : Int} (hb : b ≠ 0) : quotient .floor a b = a.fdiv b := by
  rw [Int.fdiv_eq_tdiv]
  show (if (decide (a < 0) != decide (b < 0)) && a.tmod b != 0 then a.tdiv b - 1
    else a.tdiv b) = _
  by_cases hd : b ∣ a
  · have := Int.tmod_eq_zero_of_dvd hd
    simp [this, hd]
  · have hne : a.tmod b ≠ 0 := fun h => hd (Int.dvd_of_tmod_eq_zero h)
    rcases Int.lt_or_gt_of_ne hb with hneg | hpos
    · have hs : b.sign = -1 := Int.sign_eq_neg_one_of_neg hneg
      by_cases ha : a < 0
      · have : ¬ 0 ≤ a := by omega
        have hb' : ¬ 0 ≤ b := by omega
        simp [ha, hneg, hd, this, hb', hs]
      · have : 0 ≤ a := by omega
        have hb' : ¬ 0 ≤ b := by omega
        simp [ha, hneg, hne, hd, this, hb']
    · have hs : b.sign = 1 := Int.sign_eq_one_of_pos hpos
      have hb' : 0 ≤ b := by omega
      have hnb : ¬ b < 0 := by omega
      by_cases ha : a < 0
      · have : ¬ 0 ≤ a := by omega
        simp [ha, hnb, hne, hd, this, hb', hs]
      · have : 0 ≤ a := by omega
        simp [ha, hnb, hd, this, hb']

/-- The corrected remainder is the floored one, for a divisor other than
zero. -/
theorem remainder_floor (a : Int) {b : Int} (hb : b ≠ 0) : remainder .floor a b = a.fmod b := by
  rw [Int.fmod_def, Int.mul_comm, ← quotient_floor a hb]
  rfl

end Division

end TypedTerms
