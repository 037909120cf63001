import Mathlib.Data.List.Induction
import TypedTerms.Proofs.Fraction.Text

/-!
# Fractions are read back from their text

Writing a fraction and reading it back is writing and reading two integers.
So it is said first what text an integer is written as, and then that what
is written of a fraction is read as that fraction.
-/

/-!
## How integers are written

An integer has many spellings: a plus may stand in front of it, and any
number of zeros. One of them is the text that is written, with a minus
where the number is negative, no plus, and no zero in front of another
digit (`Written`). A number has one such text and no more, the one that
`toString` gives (`written_iff`), so all that write integers in this way
write the same.
-/

namespace TypedTerms.Text

variable {cs ds : List Char} {n : Int}

/-- No zero stands in front of another digit. -/
def Unpadded (ds : List Char) : Prop := ds.head? = some '0' → ds = ['0']

/-- The sign that is written. -/
def minus (n : Int) : List Char := if n < 0 then ['-'] else []

/-- The text is the integer as it is written. -/
inductive Written : List Char → Int → Prop where
  | mk {ds : List Char} {n : Int} (digits : IsNumeral ds) (unpadded : Unpadded ds)
    (value : digitsValue ds = n.natAbs) : Written (minus n ++ ds) n

/-! ### The digits of a natural number -/

theorem isNumeral_toDigits (k : Nat) : IsNumeral (Nat.toDigits 10 k) :=
  ⟨Nat.toDigits_ne_nil, fun _ hc => Nat.isDigit_of_mem_toDigits (by decide) (by decide) hc⟩

theorem digitsValue_toDigits (k : Nat) : digitsValue (Nat.toDigits 10 k) = k :=
  Nat.ofDigitChars_ten_toDigits

/-- The digits of a number have no zero in front, unless it is the only one.
-/
theorem unpadded_toDigits (k : Nat) : Unpadded (Nat.toDigits 10 k) := by
  induction k using Nat.strongRecOn with
  | ind k ih =>
    rcases Nat.lt_or_ge k 10 with hk | hk
    · rw [Nat.toDigits_of_lt_base hk]
      intro h
      rw [Option.some.inj h]
    · rw [Nat.toDigits_of_base_le (by decide) hk]
      intro h
      rw [List.head?_append, Option.or_of_isSome (by simp [Nat.toDigits_ne_nil])] at h
      -- The digits in front would be a zero alone, but then the number is less than ten.
      have hfront := ih (k / 10) (by omega) h
      have hzero : k / 10 = 0 := by
        rw [← digitsValue_toDigits (k / 10), hfront]
        rfl
      omega

/-- A digit is the character of a number below ten. -/
theorem exists_digitChar {c : Char} (hc : isDigit c = true) : ∃ d < 10, c = Nat.digitChar d := by
  obtain ⟨hlow, hhigh⟩ := Bool.and_eq_true_iff.mp hc
  have hlow : 48 ≤ c.toNat := UInt32.le_iff_toNat_le.mp (of_decide_eq_true hlow)
  have hhigh : c.toNat ≤ 57 := UInt32.le_iff_toNat_le.mp (of_decide_eq_true hhigh)
  refine ⟨c.toNat - 48, by omega, Char.toNat_inj.mp ?_⟩
  rw [Nat.toNat_digitChar_of_lt_ten (by omega)]
  omega

/-- One digit more multiplies by ten and adds the digit. -/
theorem digitsValue_concat {d : Nat} (hd : d < 10) (ds : List Char) :
    digitsValue (ds ++ [Nat.digitChar d]) = 10 * digitsValue ds + d := by
  rw [digitsValue, Nat.ofDigitChars_append, Nat.ofDigitChars_cons_digitChar_of_lt_ten hd,
    Nat.ofDigitChars_nil, digitsValue]

/-- Digits without zeros in front are the digits of their value. -/
theorem toDigits_digitsValue (hds : IsNumeral ds) (hpad : Unpadded ds) :
    Nat.toDigits 10 (digitsValue ds) = ds := by
  -- Numbers grow at the last digit, so the digits are taken from the end.
  induction ds using List.reverseRecOn with
  | nil => exact absurd rfl hds.1
  | append_singleton ds c ih =>
    obtain ⟨d, hd, rfl⟩ := exists_digitChar (hds.2 c (List.mem_append_right ds List.mem_cons_self))
    rw [digitsValue_concat hd]
    cases ds with
    | nil =>
      rw [digitsValue, Nat.ofDigitChars_nil, Nat.mul_zero, Nat.zero_add,
        Nat.toDigits_of_lt_base hd, List.nil_append]
    | cons e es =>
      have hlead : e ≠ '0' := by
        rintro rfl
        have hnil := List.tail_eq_of_cons_eq (hpad rfl)
        exact List.cons_ne_nil _ _ (List.append_eq_nil_iff.mp hnil).2
      have hfront := ih ⟨List.cons_ne_nil e es, fun x hx => hds.2 x (List.mem_append_left _ hx)⟩
        fun h => absurd (Option.some.inj h) hlead
      have hpos : 0 < digitsValue (e :: es) := by
        rw [Nat.pos_iff_ne_zero]
        intro hzero
        rw [hzero, Nat.toDigits_zero] at hfront
        exact hlead (List.head_eq_of_cons_eq hfront).symm
      rw [← Nat.toDigits_append_toDigits (by decide) hpos hd, hfront, Nat.toDigits_of_lt_base hd]

/-! ### The text of an integer -/

/-- The text of an integer is its sign and its digits. -/
theorem toList_toString (n : Int) :
    (toString n).toList = minus n ++ Nat.toDigits 10 n.natAbs := by
  rw [Int.toString_eq_repr]
  cases n with
  | ofNat m =>
    rw [Int.repr, Nat.toList_repr, minus, if_neg (by simp)]
    rfl
  | negSucc m =>
    rw [Int.repr, String.toList_append, Nat.toList_repr, minus, if_pos (Int.negSucc_lt_zero m)]
    rfl

/-- An integer is written in one way only, the one of `toString`. -/
theorem written_iff : Written cs n ↔ cs = (toString n).toList := by
  rw [toList_toString]
  constructor
  · rintro ⟨hds, hpad, hvalue⟩
    rw [← hvalue, toDigits_digitsValue hds hpad]
  · rintro rfl
    exact .mk (isNumeral_toDigits _) (unpadded_toDigits _) (digitsValue_toDigits _)

/-- The text that is written is a spelling of the integer. -/
theorem Written.spellsInt (h : Written cs n) : SpellsInt cs n := by
  obtain ⟨hds, -, hvalue⟩ := h
  by_cases hn : n < 0
  · have hspells := SpellsInt.mk .minus hds
    rw [signed, if_pos rfl, hvalue, Int.ofNat_natAbs_of_nonpos (Int.le_of_lt hn),
      Int.neg_neg] at hspells
    rwa [minus, if_pos hn]
  · have hspells := SpellsInt.mk .none hds
    rw [signed, if_neg Bool.false_ne_true, hvalue,
      Int.natAbs_of_nonneg (Int.not_lt.mp hn)] at hspells
    rwa [minus, if_neg hn]

/-- The writer writes every integer as a sign, where it is negative, and
digits without zeros in front. -/
def WritesIntegers (write : Int → String) : Prop := ∀ n, Written (write n).toList n

theorem writesIntegers_toString : WritesIntegers toString := fun _ => written_iff.mpr rfl

/-- All that write integers without superfluous signs and zeros write alike.
-/
theorem WritesIntegers.eq_toString {write : Int → String} (h : WritesIntegers write) :
    write = toString := by
  ext1 n
  exact String.toList_inj.mp (written_iff.mp (h n))

end TypedTerms.Text

/-!
## Texts of fractions

The text of a fraction is two written integers with a slash between them,
which is one of the spellings that are read. What is read is the quotient
of the two, and for a fraction in lowest terms that is the fraction itself
(`ofText?_text`). Whatever text a fraction was read from, its own text is
read as the same fraction, and different fractions have different texts
(`text_round_trip`).

This holds for every reader of integers behind the filter, and for every
writer that writes integers without a plus and without zeros in front.
-/

namespace TypedTerms.Fraction

open Text

variable {write : Int → String}

/-- Nothing is left to be reduced in a fraction. -/
theorem ofRatio?_num_den (q : Fraction) : ofRatio? q.num q.den = .ok q :=
  ofRatio?_eq_ok_iff.mpr ⟨q.den_ne_zero, by rw [toRat_eq_div, Int.cast_natCast]⟩

/-- The text of a fraction is a spelling of its numerator over its
denominator. -/
theorem spellsRatio_textBy (hwrite : WritesIntegers write) (q : Fraction) :
    SpellsRatio (textBy write q).toList q.num q.den := by
  have h := SpellsRatio.ratio (hwrite q.num).spellsInt (hwrite q.den).spellsInt
  rw [textBy, String.toList_append, String.toList_append, List.append_assoc]
  exact h

/-- Whatever the writer of integers, the text of a fraction is the same. -/
theorem textBy_eq_text (hwrite : WritesIntegers write) (q : Fraction) :
    textBy write q = q.text := by
  rw [hwrite.eq_toString]
  rfl

/-- A fraction is read back from its own text. -/
theorem ofText?_text (q : Fraction) : ofText? q.text = .ok q := by
  rw [← textBy_eq_text writesIntegers_toString,
    ofText?_of_spells (spellsRatio_textBy writesIntegers_toString q), ofRatio?_num_den]

/-- A fraction is read back from its text. So its text identifies it, and
once a text has been read, the text of what was read is read as the same.
It is the same text, whoever writes the integers, and the same fraction,
whoever reads them. -/
theorem text_round_trip {read : List Char → Option Int} {write : Int → String}
    (hread : ReadsIntegers read) (hwrite : WritesIntegers write) :
    (∀ q, ofTextBy? read (textBy write q) = .ok q) ∧
    (∀ p q, textBy write p = textBy write q → p = q) ∧
    (∀ s q, ofTextBy? read s = .ok q →
      ofTextBy? read (textBy write q) = ofTextBy? read s) ∧
    ∀ q, textBy write q = q.text ∧ ofText? q.text = .ok q := by
  have hback (q : Fraction) : ofTextBy? read (textBy write q) = .ok q := by
    rw [ofTextBy?_eq hread, textBy_eq_text hwrite, ofText?_text]
  refine ⟨hback, fun p q h => ?_, fun s q hs => ?_,
    fun q => ⟨textBy_eq_text hwrite q, ofText?_text q⟩⟩
  · have hp := hback p
    rw [h, hback q] at hp
    exact (Except.ok.inj hp).symm
  · rw [hback q, hs]

/-- The text `-06/+4` is read as -3/2, whose own text is `-3/2`. -/
theorem text_round_trip_sample :
    ReadsIntegers readSeparated? ∧ WritesIntegers toString ∧
    ofTextBy? readSeparated? "-06/+4" = .ok (reduce (-3) 2 (by decide)) ∧
    textBy toString (reduce (-3) 2 (by decide)) = "-3/2" ∧
    ofTextBy? readSeparated? "-3/2" = ofTextBy? readSeparated? "-06/+4" := by
  have hs : ofTextBy? readSeparated? "-06/+4" = .ok (reduce (-3) 2 (by decide)) := by decide
  have htext : textBy toString (reduce (-3) 2 (by decide)) = "-3/2" := by decide
  obtain ⟨-, -, hagain, -⟩ := text_round_trip readsIntegers_readSeparated writesIntegers_toString
  have h := hagain _ _ hs
  rw [htext] at h
  exact ⟨readsIntegers_readSeparated, writesIntegers_toString, hs, htext, h⟩

end TypedTerms.Fraction
