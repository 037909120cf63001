import TypedTerms.Fraction.Text
import TypedTerms.Proofs.Fraction.Scan

/-!
# How fractions are spelled, and what they denote

A fraction is spelled as an integer, or as two with a slash between them
(`SpellsRatio`). No integer holds a slash, so the first slash of such a
text is the only one, and reading accepts what is spelled and nothing
else (`ofText?_of_spells`, `ofText?_of_not_spells`). A zero denominator is
noticed of a text that is spelled, and of no other.

A reader of integers that knows more spellings makes no difference, as
long as it reads the integers that are spelled with digits alone: the
filter lets those pass and nothing else (`readBy?_eq`). So a fraction is
read behind the filter exactly as it is spelled (`reading_exact`).
-/

namespace TypedTerms

open Text

namespace Text

variable {cs : List Char} {read : List Char → Option Int}

/-- The reader reads every integer in base ten. What it makes of another
text is left open. -/
def ReadsIntegers (read : List Char → Option Int) : Prop :=
  ∀ ⦃cs : List Char⦄ ⦃n : Int⦄, SpellsInt cs n → read cs = some n

/-- The bytes of a character are digits exactly when the character is one.
-/
theorem all_isDigit_utf8EncodeChar (c : Char) :
    (String.utf8EncodeChar c).all ByteScan.isDigit = isDigit c := by
  by_cases hc : IsAscii c
  · rw [utf8EncodeChar_of_isAscii hc, List.all_cons, isDigit_toUInt8 hc, List.all_nil,
      Bool.and_true]
  · obtain ⟨b, bs, hbs, hb⟩ := exists_utf8EncodeChar hc
    rw [hbs, List.all_cons, not_isDigit_of_le hb, Bool.false_and, eq_comm, Bool.eq_false_iff]
    exact fun hd => hc (isAscii_of_isDigit hd)

/-- The filter lets through what is a numeral behind at most one sign. -/
theorem isPlain_iff : isPlain cs = true ↔ IsNumeral (takeSign cs).2 := by
  rw [isPlain, List.all_flatMap, Bool.and_eq_true, Bool.not_eq_true', List.isEmpty_eq_false_iff,
    List.all_eq_true]
  simp only [all_isDigit_utf8EncodeChar]
  rfl

/-- Behind the filter every reader of integers reads the same. -/
theorem readBy?_eq (hread : ReadsIntegers read) (cs : List Char) :
    readBy? read cs = readInt? cs := by
  by_cases hplain : isPlain cs = true
  · have hdigits := isPlain_iff.mp hplain
    rcases hsign : takeSign cs with ⟨negative, digits⟩
    obtain ⟨ss, hs, rfl⟩ := exists_spellsSign hsign
    rw [hsign] at hdigits
    have hspells := SpellsInt.mk hs hdigits
    rw [readBy?, if_pos hplain, hread hspells, readInt?_eq_some_iff.mpr hspells]
  · rw [readBy?, if_neg hplain, eq_comm, Option.eq_none_iff_forall_ne_some]
    exact fun n hn => hplain (isPlain_iff.mpr (readInt?_eq_some_iff.mp hn).isNumeral_takeSign)

/-! ## A reader that knows more spellings -/

/-- Reads integers that may have underscores behind their first digit. -/
def readSeparated? (cs : List Char) : Option Int :=
  let (negative, ds) := takeSign cs
  if ds.head? = some '_' then none
  else
    match takeDigits? (ds.filter (· != '_')) with
    | some (ds, []) => some (signed negative (digitsValue ds))
    | _ => none

/-- The reader that tolerates underscores reads every integer. -/
theorem readsIntegers_readSeparated : ReadsIntegers readSeparated? := by
  rintro _ _ (@⟨ss, ds, negative, hs, hds⟩)
  have hsign : takeSign (ss ++ (ds ++ [])) = (negative, ds ++ []) := takeSign_append hs hds
  have hplain : ∀ c ∈ ds, c ≠ '_' := by
    rintro _ hc rfl
    cases hds.2 _ hc
  have hhead : ds.head? ≠ some '_' := fun h => hplain _ (List.mem_of_mem_head? h) rfl
  have hfilter : ds.filter (· != '_') = ds :=
    List.filter_eq_self.mpr fun c hc => bne_iff_ne.mpr (hplain c hc)
  have htake := takeDigits?_eq_some_iff.mpr ⟨(List.append_nil ds).symm, hds, ended_nil⟩
  rw [List.append_nil] at hsign
  simp only [readSeparated?, hsign, if_neg hhead, hfilter, htake]

end Text

namespace Fraction

variable {cs : List Char} {n d : Int} {s : String} {q : Fraction} {e : FractionError}
  {read : List Char → Option Int}

/-- The whole text is an integer, or a numerator, a slash and a
denominator. -/
inductive SpellsRatio : List Char → Int → Int → Prop where
  | integer {cs : List Char} {n : Int} (integer : SpellsInt cs n) : SpellsRatio cs n 1
  | ratio {ns ds : List Char} {n d : Int} (num : SpellsInt ns n) (den : SpellsInt ds d) :
    SpellsRatio (ns ++ '/' :: ds) n d

/-- No slash stands in the text of an integer. -/
theorem bne_slash_of_spellsInt (h : SpellsInt cs n) : ∀ c ∈ cs, (c != '/') = true := by
  rintro c hc
  rw [bne_iff_ne]
  rintro rfl
  exact h.notMem rfl (by decide) (by decide) hc

/-- A fraction is refused exactly for the denominator zero. -/
theorem ofRatio?_eq_error_iff : ofRatio? n d = .error e ↔ d = 0 ∧ e = .divisionByZero := by
  rw [ofRatio?]
  by_cases hd : d = 0
  · simp [hd, eq_comm]
  · simp [hd]

theorem ofRatio?_one (n : Int) : ofRatio? n 1 = .ok (ofInt n) :=
  ofRatio?_eq_ok_iff.mpr ⟨one_ne_zero, by rw [toRat_ofInt, Int.cast_one, div_one]⟩

/-- A text that spells a fraction is read as the quotient. -/
theorem ofText?_of_spells (h : SpellsRatio s.toList n d) : ofText? s = ofRatio? n d := by
  rw [ofText?]
  generalize s.toList = cs at h
  cases h with
  | integer h =>
    have hspan : (cs ++ []).span (· != '/') = (cs, []) :=
      span_append (bne_slash_of_spellsInt h) nofun
    rw [List.append_nil] at hspan
    rw [hspan]
    simp only [readInt?_eq_some_iff.mpr h, ofRatio?_one]
  | @ratio ns ds _ _ hn hd =>
    have hslash : ∀ c ∈ ('/' :: ds).head?, (c != '/') = false := by
      rintro _ ⟨⟩
      rfl
    rw [span_append (bne_slash_of_spellsInt hn) hslash]
    simp only [readInt?_eq_some_iff.mpr hn, readInt?_eq_some_iff.mpr hd]

/-- Every other text is malformed. -/
theorem ofText?_of_not_spells (h : ∀ n d, ¬ SpellsRatio s.toList n d) :
    ofText? s = .error (.malformed s) := by
  obtain ⟨ns, rest, hspan, hs, -, hslash⟩ := exists_span (· != '/') s.toList
  rw [ofText?, hspan]
  rw [hs] at h
  cases rest with
  | nil =>
    rw [List.append_nil] at h
    cases hn : readInt? ns with
    | none => simp only [hn]
    | some n => exact absurd (.integer (readInt?_eq_some_iff.mp hn)) (h n 1)
  | cons slash ds =>
    obtain rfl : slash = '/' := by simpa using hslash slash rfl
    cases hn : readInt? ns with
    | none => simp only [hn]
    | some n =>
      cases hd : readInt? ds with
      | none => simp only [hn, hd]
      | some d =>
        have hspells := SpellsRatio.ratio (readInt?_eq_some_iff.mp hn) (readInt?_eq_some_iff.mp hd)
        exact absurd hspells (h n d)

/-- A text is read exactly when it spells a ratio whose denominator is not
zero, and as this number. -/
theorem ofText?_eq_ok_iff :
    ofText? s = .ok q ↔ ∃ n d, SpellsRatio s.toList n d ∧ d ≠ 0 ∧ q.toRat = n / d := by
  by_cases hspells : ∃ n d, SpellsRatio s.toList n d
  · constructor
    · obtain ⟨n, d, hs⟩ := hspells
      intro h
      rw [ofText?_of_spells hs, ofRatio?_eq_ok_iff] at h
      exact ⟨n, d, hs, h⟩
    · rintro ⟨n, d, hs, h⟩
      rw [ofText?_of_spells hs, ofRatio?_eq_ok_iff]
      exact h
  · have hnone : ∀ n d, ¬ SpellsRatio s.toList n d := fun n d hs => hspells ⟨n, d, hs⟩
    rw [ofText?_of_not_spells hnone]
    exact iff_of_false nofun fun ⟨n, d, hs, _⟩ => hnone n d hs

/-- A text is refused as a division by zero when it spells one, and as
malformed when it spells no ratio. -/
theorem ofText?_eq_error_iff : ofText? s = .error e ↔
    (∃ n, SpellsRatio s.toList n 0) ∧ e = .divisionByZero ∨
      (∀ n d, ¬ SpellsRatio s.toList n d) ∧ e = .malformed s := by
  by_cases hspells : ∃ n d, SpellsRatio s.toList n d
  · obtain ⟨n, d, hs⟩ := hspells
    rw [or_iff_left fun h => h.1 n d hs]
    constructor
    · intro h
      rw [ofText?_of_spells hs, ofRatio?_eq_error_iff] at h
      exact ⟨⟨n, h.1 ▸ hs⟩, h.2⟩
    · rintro ⟨⟨n, hs⟩, he⟩
      rw [ofText?_of_spells hs, ofRatio?_eq_error_iff]
      exact ⟨rfl, he⟩
  · have hnone : ∀ n d, ¬ SpellsRatio s.toList n d := fun n d hs => hspells ⟨n, d, hs⟩
    rw [ofText?_of_not_spells hnone, or_iff_right fun ⟨⟨n, hs⟩, _⟩ => hnone n 0 hs,
      and_iff_right hnone, Except.error.injEq, eq_comm]

/-- Behind the filter every reader of integers reads the same fractions. -/
theorem ofTextBy?_eq (hread : ReadsIntegers read) (s : String) :
    ofTextBy? read s = ofText? s := by
  obtain ⟨ns, rest, hspan, hs, -, -⟩ := exists_span (· != '/') s.toList
  rw [ofTextBy?, ofText?, splitOnce?, hspan]
  simp only [readBy?_eq hread]
  cases rest with
  | nil =>
    rw [List.append_nil] at hs
    simp only [hs]
    cases readInt? ns <;> rfl
  | cons slash ds =>
    dsimp only
    cases readInt? ns with
    | none => rfl
    | some n => cases readInt? ds <;> rfl

end Fraction

/-! ## Integers among the decimal literals -/

namespace DecimalLiteral

variable {ss ds : List Char} {negative : Bool}

/-- The literal without places and exponent. -/
def ofDigits (negative : Bool) (ds : List Char) : DecimalLiteral := ⟨negative, ds, [], 0⟩

theorem spells_ofDigits (hs : SpellsSign ss negative) (hds : IsNumeral ds) :
    Spells (ss ++ ds) (ofDigits negative ds) := by
  have h := Spells.mk (l := ofDigits negative ds) hs hds .none .none
  rwa [List.append_nil, List.append_nil] at h

theorem power_ofDigits (negative : Bool) (ds : List Char) : (ofDigits negative ds).power = 0 := rfl

/-- A literal without places and exponent denotes an integer. -/
theorem value_ofDigits (negative : Bool) (ds : List Char) :
    (ofDigits negative ds).value = Fraction.ofInt (signed negative (digitsValue ds)) := by
  have hdigits : (ofDigits negative ds).digits = signed negative (digitsValue ds) := by
    rw [digits, ofDigits]
    dsimp only
    rw [List.append_nil]
  apply Fraction.toRat_injective
  rw [toRat_value, number, power_ofDigits, zpow_zero, mul_one, hdigits, Fraction.toRat_ofInt]

end DecimalLiteral

namespace Fraction

open DecimalLiteral

variable {s : String} {n : Int}

/-- As a decimal literal an integer is itself. -/
theorem ofDecimal?_of_spellsInt (h : SpellsInt s.toList n) : ofDecimal? s = .ok (ofInt n) := by
  generalize hcs : s.toList = cs at h
  cases h with
  | mk hs hds =>
    have hspells := spells_ofDigits hs hds
    rw [← hcs] at hspells
    refine ofDecimal?_eq_ok_iff.mpr ⟨_, hspells, Nat.zero_le _, ?_⟩
    rw [← value_ofDigits, toRat_value]

open ByteScan in
/-- No power of ten is counted along an integer, so that the words are
wide enough for every text whose bytes they can number. -/
theorem scanDecimal_of_spellsInt (hs : s.utf8ByteSize < 2 ^ 64) (h : SpellsInt s.toList n) :
    scanDecimal s = .ok (ofInt n) := by
  have hb : s.toByteArray.data.toList.length < Word.count := hs
  have hzero := at_zero s
  generalize s.toList = cs at h hzero
  cases h with
  | @mk ss ds negative hsign hds =>
    have htake : takeSign (ss ++ (ds ++ [])) = (negative, ds ++ []) := takeSign_append hsign hds
    rw [List.append_nil] at htake
    obtain ⟨i, hscan, hi⟩ := hzero.scanSign htake
    rw [← List.append_nil ds] at hi
    have hskip := hi.skipNumeral (s := s) hb hds ended_nil
    have hslice := hi.slice hds.isAscii
    have hend := hi.advance hds.isAscii
    have hpoint := fun whole => hend.scanPlaces_of_end (s := s) whole
    have hmark := fun scale => hend.scanExponent_of_end (s := s) scale
    have hdigits : IsNumeral ((ofDigits negative ds).whole ++ (ofDigits negative ds).places) := by
      rwa [ofDigits, List.append_nil]
    have hfinish := hend.finish (s := s) hdigits (by rw [power_ofDigits]; decide)
    rw [if_pos ⟨rfl, by rw [power_ofDigits]; decide⟩, value_ofDigits] at hfinish
    simp only [scanDecimal, hscan, hskip, hslice, hpoint, hmark, bind, Except.bind]
    rw [← hfinish, power_ofDigits, neg_zero, ofDigits, encode_nil, List.append_nil]

/-! ## Reading behind the filter -/

/-- Fractions are read exactly. Whatever reader of integers stands behind
the filter, a text is read when it is an integer, or two with a slash
between them of which the second is not zero, and the fraction is the
quotient. A zero denominator is the error when the text is two integers
with a slash between them, the second zero. Every other text is malformed,
and the error carries it. An integer is read as the decimal literal that
it is, by the reader and by the scan. -/
theorem reading_exact {read : List Char → Option Int} (hread : ReadsIntegers read) (s : String) :
    (∀ q, ofTextBy? read s = .ok q ↔
      ∃ n d, SpellsRatio s.toList n d ∧ d ≠ 0 ∧ q.toRat = n / d) ∧
    (ofTextBy? read s = .error .divisionByZero ↔ ∃ n, SpellsRatio s.toList n 0) ∧
    (ofTextBy? read s = .error (.malformed s) ↔ ∀ n d, ¬ SpellsRatio s.toList n d) ∧
    (∀ n, SpellsInt s.toList n → ofTextBy? read s = ofDecimal? s ∧
      (s.utf8ByteSize < 2 ^ 64 → (ofTextBy? read s).mapError .refused = scanDecimal s)) ∧
    ofTextBy? read s = ofText? s := by
  rw [ofTextBy?_eq hread]
  refine ⟨fun q => ofText?_eq_ok_iff, ?_, ?_, fun n hs => ?_, rfl⟩
  · rw [ofText?_eq_error_iff]
    simp
  · rw [ofText?_eq_error_iff]
    simp
  · have htext : ofText? s = .ok (ofInt n) := by
      rw [ofText?_of_spells (.integer hs), ofRatio?_one]
    rw [htext, ofDecimal?_of_spellsInt hs]
    exact ⟨rfl, fun hlen => (scanDecimal_of_spellsInt hlen hs).symm⟩

/-- The text `-6/4` is -3/2. The reader would read `1_0`, but the filter
keeps it out. -/
theorem reading_exact_sample : ReadsIntegers readSeparated? ∧
    (∃ q, ofTextBy? readSeparated? "-6/4" = .ok q ∧ q.toRat = -3 / 2) ∧
    readSeparated? "1_0".toList = some 10 ∧
      ofTextBy? readSeparated? "1_0" = .error (.malformed "1_0") := by
  have hparts : SpellsRatio (['-', '6'] ++ '/' :: ['4']) (-6) 4 :=
    .ratio (readInt?_eq_some_iff.mp (by decide)) (readInt?_eq_some_iff.mp (by decide))
  have hspells : SpellsRatio "-6/4".toList (-6) 4 := hparts
  obtain ⟨hok, -⟩ := reading_exact readsIntegers_readSeparated "-6/4"
  obtain ⟨-, -, -, -, hplain⟩ := reading_exact readsIntegers_readSeparated "1_0"
  refine ⟨readsIntegers_readSeparated, ⟨reduce (-3) 2 (by decide), ?_, ?_⟩, by decide, ?_⟩
  · refine (hok _).mpr ⟨_, _, hspells, by decide, ?_⟩
    rw [toRat_reduce]
    norm_num
  · rw [toRat_reduce]
    norm_num
  · rw [hplain]
    decide

end Fraction

end TypedTerms
