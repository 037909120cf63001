import Mathlib.Data.Rat.Cast.Defs
import TypedTerms.Proofs.Fraction.Arithmetic
import TypedTerms.Proofs.Text.Utf8

/-!
# How decimal literals are spelled, and what they denote

The grammar of decimal literals, `[+-]?\d+(\.\d+)?([eE][+-]?\d+)?`, as
what a text spells: `Spells cs l` says that the whole text is the
literal `l`. Reading accepts exactly that (`read?_eq_some_iff`). The
fraction made of a literal is its number, the digits times a power of
ten, on both sides of the point (`toRat_value`).
-/

namespace TypedTerms

open Text

namespace DecimalLiteral

variable {cs ds rest : List Char} {n : Int} {l : DecimalLiteral}

/-- The text is a point and the digits after it, or nothing. -/
inductive SpellsPlaces : List Char → List Char → Prop where
  | none : SpellsPlaces [] []
  | point {ds : List Char} (digits : IsNumeral ds) : SpellsPlaces ('.' :: ds) ds

/-- The text is an exponent with its mark, or nothing for zero. -/
inductive SpellsExponent : List Char → Int → Prop where
  | none : SpellsExponent [] 0
  | lower {is : List Char} {n : Int} (integer : SpellsInt is n) : SpellsExponent ('e' :: is) n
  | upper {is : List Char} {n : Int} (integer : SpellsInt is n) : SpellsExponent ('E' :: is) n

/-- The whole text is the literal. -/
inductive Spells : List Char → DecimalLiteral → Prop where
  | mk {ss ps es : List Char} {l : DecimalLiteral} (sign : SpellsSign ss l.negative)
    (whole : IsNumeral l.whole) (places : SpellsPlaces ps l.places)
    (exponent : SpellsExponent es l.exponent) : Spells (ss ++ (l.whole ++ (ps ++ es))) l

/-- The text of an exponent does not begin with a digit. -/
theorem SpellsExponent.ended (h : SpellsExponent cs n) : Ended cs := by
  cases h with
  | none => exact ended_nil
  | lower | upper => exact ended_cons rfl

/-- Places begin with a point, so a digit comes next only where there are
none and the rest begins with one. -/
theorem SpellsPlaces.ended (h : SpellsPlaces cs ds) (hrest : Ended rest) : Ended (cs ++ rest) := by
  cases h with
  | none => exact hrest
  | point => exact ended_cons rfl

theorem SpellsPlaces.isDigit (h : SpellsPlaces cs ds) : ∀ d ∈ ds, isDigit d = true := by
  cases h with
  | none => exact fun _ hd => nomatch hd
  | point hds => exact hds.2

/-- What is taken as places spells them, and the rest is what follows. -/
theorem exists_spellsPlaces (h : takePlaces? cs = some (ds, rest)) :
    ∃ ps, SpellsPlaces ps ds ∧ cs = ps ++ rest := by
  unfold takePlaces? at h
  split at h
  · obtain ⟨rfl, hds, -⟩ := takeDigits?_eq_some_iff.mp h
    exact ⟨_, .point hds, rfl⟩
  · cases h
    exact ⟨_, .none, rfl⟩

/-- Places are taken as far as they go when an exponent or the end follows.
-/
theorem takePlaces?_append (h : SpellsPlaces cs ds) (hrest : SpellsExponent rest n) :
    takePlaces? (cs ++ rest) = some (ds, rest) := by
  cases h with
  | point hds => exact takeDigits?_eq_some_iff.mpr ⟨rfl, hds, hrest.ended⟩
  | none => cases hrest <;> rfl

/-- An exponent is taken after its mark, and is zero where no mark comes
next. -/
theorem takeExponent?_cases (cs : List Char) :
    (∃ c is, (c = 'e' ∨ c = 'E') ∧ cs = c :: is ∧ takeExponent? cs = takeInt? is) ∨
      takeExponent? cs = some (0, cs) ∧ cs.head? ≠ some 'e' ∧ cs.head? ≠ some 'E' := by
  unfold takeExponent?
  split
  · exact .inl ⟨_, _, .inl rfl, rfl, rfl⟩
  · exact .inl ⟨_, _, .inr rfl, rfl, rfl⟩
  · next hlower hupper =>
    refine .inr ⟨rfl, fun hhead => ?_, fun hhead => ?_⟩
    · obtain ⟨is, hcs⟩ := List.head?_eq_some_iff.mp hhead
      exact hlower is hcs
    · obtain ⟨is, hcs⟩ := List.head?_eq_some_iff.mp hhead
      exact hupper is hcs

/-- What is taken as an exponent spells it, and the rest is what follows. -/
theorem exists_spellsExponent (h : takeExponent? cs = some (n, rest)) :
    ∃ es, SpellsExponent es n ∧ cs = es ++ rest := by
  obtain ⟨c, digits, hmark, rfl, htake⟩ | ⟨htake, -, -⟩ := takeExponent?_cases cs
  · obtain ⟨is, rfl, his, -⟩ := takeInt?_eq_some_iff.mp (htake ▸ h)
    obtain rfl | rfl := hmark
    · exact ⟨_, .lower his, rfl⟩
    · exact ⟨_, .upper his, rfl⟩
  · cases htake.symm.trans h
    exact ⟨_, .none, rfl⟩

/-- A text that spells an exponent is taken as a whole. -/
theorem takeExponent?_of_spells (h : SpellsExponent cs n) : takeExponent? cs = some (n, []) := by
  cases h with
  | none => rfl
  | lower h | upper h =>
    exact takeInt?_eq_some_iff.mpr ⟨_, (List.append_nil _).symm, h, ended_nil⟩

/-- Reading accepts the texts that spell a literal, and answers the
literal. -/
theorem read?_eq_some_iff : read? cs = some l ↔ Spells cs l := by
  constructor
  · intro h
    rcases hsign : takeSign cs with ⟨negative, afterSign⟩
    rw [read?, hsign] at h
    obtain ⟨⟨whole, afterWhole⟩, hwhole, h⟩ := Option.bind_eq_some_iff.mp h
    obtain ⟨⟨places, afterPlaces⟩, hplaces, h⟩ := Option.bind_eq_some_iff.mp h
    obtain ⟨⟨exponent, left⟩, hexponent, hend⟩ := Option.bind_eq_some_iff.mp h
    obtain ⟨ss, hs, rfl⟩ := exists_spellsSign hsign
    obtain ⟨rfl, hnum, -⟩ := takeDigits?_eq_some_iff.mp hwhole
    obtain ⟨ps, hps, rfl⟩ := exists_spellsPlaces hplaces
    obtain ⟨es, hes, rfl⟩ := exists_spellsExponent hexponent
    cases left with
    | cons => cases hend
    | nil =>
      cases hend
      rw [List.append_nil]
      exact .mk (l := ⟨negative, whole, places, exponent⟩) hs hnum hps hes
  · rintro ⟨hs, hwhole, hps, hes⟩
    have hdigits := takeDigits?_eq_some_iff.mpr ⟨rfl, hwhole, hps.ended hes.ended⟩
    rw [read?, takeSign_append hs hwhole]
    refine Option.bind_eq_some_iff.mpr ⟨_, hdigits, ?_⟩
    refine Option.bind_eq_some_iff.mpr ⟨_, takePlaces?_append hps hes, ?_⟩
    exact Option.bind_eq_some_iff.mpr ⟨_, takeExponent?_of_spells hes, rfl⟩

/-- A text is one literal at most. -/
theorem Spells.unique {l l' : DecimalLiteral} (h : Spells cs l) (h' : Spells cs l') : l = l' :=
  Option.some.inj ((read?_eq_some_iff.mpr h).symm.trans (read?_eq_some_iff.mpr h'))

/-! ## The number -/

/-- The number that a literal denotes: its digits, before and after the
point, as one integer, times a power of ten. -/
def number (l : DecimalLiteral) : ℚ := l.digits * 10 ^ l.power

theorem cast_pow_ten (k : Nat) : ((Int.pow 10 k : ℤ) : ℚ) = 10 ^ k := by
  rw [show Int.pow 10 k = (10 : ℤ) ^ k from rfl]
  push_cast
  rfl

/-- The fraction made of a literal is the number that the literal denotes.
-/
theorem toRat_value (l : DecimalLiteral) : l.value.toRat = l.number := by
  rw [value, number]
  split
  · next h =>
    have hpower : l.power = -(l.power.natAbs : ℤ) := by omega
    rw [Fraction.toRat_reduce, cast_pow_ten, hpower, zpow_neg, zpow_natCast, Int.natAbs_neg,
      Int.natAbs_natCast, div_eq_mul_inv]
  · next h =>
    have hpower : l.power = (l.power.natAbs : ℤ) := by omega
    rw [Fraction.toRat_ofInt, Int.cast_mul, cast_pow_ten, hpower, zpow_natCast, Int.natAbs_natCast]

end DecimalLiteral

namespace Fraction

open DecimalLiteral

variable {s : String} {q : Fraction} {e : FractionError}

/-- A text is read as a decimal literal that it spells, if the power of
ten is within bounds. -/
theorem ofDecimal?_eq_ok_iff :
    ofDecimal? s = .ok q ↔
      ∃ l, Spells s.toList l ∧ l.power.natAbs ≤ maxPower ∧ q.toRat = l.number := by
  simp only [← read?_eq_some_iff, ← toRat_value, toRat_injective.eq_iff]
  unfold ofDecimal?
  split
  · next l hl =>
    rw [hl]
    split
    · next hpower => simp [hpower, eq_comm]
    · next hpower => simp [hpower]
  · next hl => simp [hl]

/-- Every other text is malformed. -/
theorem ofDecimal?_eq_error_iff :
    ofDecimal? s = .error e ↔
      (∀ l, Spells s.toList l → maxPower < l.power.natAbs) ∧ e = .malformed s := by
  simp only [← read?_eq_some_iff]
  unfold ofDecimal?
  split
  · next l hl =>
    rw [hl]
    split
    · next hpower => simp [hpower]
    · next hpower => simp [Nat.not_le.mp hpower, eq_comm]
  · next hl => simp [hl, eq_comm]

end Fraction

end TypedTerms

/-!
## The scan in machine words reads decimal literals

The scanner goes over the bytes of a text, the reader over its
characters. Step by step they take the same: where the reader has the
characters `cs` left and the scanner has come to an index with
`At bytes i cs`, the part that the reader takes next is the part that the
scanner passes, and afterwards they stand at the same place again
(`At.scanSign`, `At.skipNumeral`, `At.scanPlaces`, `At.scanExponent`,
`At.finish`). Whatever the scanner slices out is ASCII, so a slice never
divides a character.

In a text shorter than 2^62 bytes no index and no number of places comes
near the end of a word. An exponent may be longer than a word, but then
its power of ten is out of bounds, and both refuse the text. So the two
agree on every such text (`scanDecimal_eq`), and the grammar and the
number of a literal say what both answer (`scanDecimal_exact`).
-/

namespace TypedTerms

open Text DecimalLiteral

namespace Word

/-- The signed words are the integers from -2^63 up to below 2^63. -/
theorem isSigned_iff {n : Int} :
    isSigned n = true ↔ -0x8000000000000000 ≤ n ∧ n < 0x8000000000000000 := by
  rw [isSigned, Bool.and_eq_true, decide_eq_true_iff, decide_eq_true_iff]

/-- A number that fits into a word is an index as it is. -/
theorem index_natCast {n : Nat} (hn : n < count) : index n = .ok n :=
  if_pos ⟨Int.natCast_nonneg n, Int.ofNat_lt.mpr hn⟩

/-- An index in the lower half of the words is the same number as a signed
word. -/
theorem reinterpret_of_lt {n : Nat} (hn : n * 2 < count) : reinterpret n = n :=
  Int.bmod_eq_of_le_mul_two (by omega) (by omega)

end Word

namespace ByteScan

variable {s : String} {bytes : List UInt8} {i : Nat} {cs ds rest : List Char} {negative : Bool}
  {scale e : Int}

/-- The text is so short that no index into it comes near the end of a
word. -/
def Short (bytes : List UInt8) : Prop := bytes.length < 0x4000000000000000

/-- In a short text every place is an index. -/
theorem Short.lt_count (hb : Short bytes) {n : Nat} (hn : n ≤ bytes.length) : n < Word.count :=
  Nat.lt_trans (Nat.lt_of_le_of_lt hn hb) (by decide)

/-- In a short text twice any place is still an index, so every place is in
the lower half. -/
theorem Short.mul_two_lt (hb : Short bytes) {n : Nat} (hn : n ≤ bytes.length) :
    n * 2 < Word.count :=
  Nat.lt_of_lt_of_le (Nat.mul_lt_mul_of_pos_right (Nat.lt_of_le_of_lt hn hb) Nat.two_pos)
    (by decide)

/-- In a short text going to a place never overflows. -/
theorem Short.index (hb : Short bytes) {n : Nat} (hn : n ≤ bytes.length) :
    Word.index n = .ok n :=
  Word.index_natCast (hb.lt_count hn)

theorem Short.index_succ (hb : Short bytes) (hi : i + 1 ≤ bytes.length) :
    Word.index (i + 1) = .ok (i + 1) :=
  hb.index hi

/-- The byte at an index is a digit when the character that begins there
is one. -/
theorem At.isDigit_getElem {c : Char} (h : At bytes i (c :: cs)) (hi : i < bytes.length) :
    isDigit bytes[i] = Text.isDigit c := by
  have hget := h.getElem?_eq
  rw [List.getElem?_eq_getElem hi, encode, List.flatMap_cons] at hget
  by_cases hc : IsAscii c
  · rw [utf8EncodeChar_of_isAscii hc] at hget
    rw [Option.some.inj hget, isDigit_toUInt8 hc]
  · obtain ⟨b, bs, hbs, hb⟩ := exists_utf8EncodeChar hc
    rw [hbs] at hget
    rw [Option.some.inj hget, not_isDigit_of_le hb, eq_comm, Bool.eq_false_iff]
    exact fun hd => hc (isAscii_of_isDigit hd)

/-- Digits are skipped up to the first character that is none. -/
theorem At.skipDigits (h : At bytes i (ds ++ rest)) (hb : bytes.length < Word.count)
    (hds : ∀ d ∈ ds, Text.isDigit d = true) (hrest : Ended rest) :
    skipDigits bytes i = .ok (i + ds.length) := by
  induction ds generalizing i with
  | nil =>
    rw [ByteScan.skipDigits]
    split
    · next hi =>
      cases rest with
      | nil => exact absurd (h.end_iff.mpr rfl) hi.ne
      | cons c rest => rw [h.isDigit_getElem hi, hrest c rfl, if_neg Bool.false_ne_true]; rfl
    · rfl
  | cons d ds ih =>
    obtain ⟨hd, hds⟩ := List.forall_mem_cons.mp hds
    obtain ⟨hget, hnext⟩ := h.next (isAscii_of_isDigit hd)
    have hi := (List.getElem?_eq_some_iff.mp hget).1
    rw [ByteScan.skipDigits, dif_pos hi, h.isDigit_getElem hi, if_pos hd,
      if_pos (hnext.le_length.trans_lt hb), ih hnext hds, List.length_cons, Nat.add_assoc,
      Nat.add_comm 1]

/-- A numeral is skipped when one can be taken. -/
theorem At.skipNumeral (h : At bytes i (ds ++ rest)) (hb : bytes.length < Word.count)
    (hds : IsNumeral ds) (hrest : Ended rest) :
    skipNumeral s bytes i = .ok (i + ds.length) := by
  have hne : i + ds.length ≠ i := by
    have := List.length_pos_of_ne_nil hds.1
    omega
  rw [ByteScan.skipNumeral, h.skipDigits hb hds.2 hrest]
  exact if_neg hne

/-- A text that should go on with a digit and does not is refused. -/
theorem At.skipNumeral_of_ended (h : At bytes i cs) (hb : bytes.length < Word.count)
    (hcs : Ended cs) :
    ByteScan.skipNumeral s bytes i = .error (.refused (.malformed s)) := by
  have hskip : ByteScan.skipDigits bytes i = .ok i :=
    At.skipDigits (show At bytes i ([] ++ cs) from h) hb (fun _ hd => nomatch hd) hcs
  rw [ByteScan.skipNumeral, hskip]
  exact if_pos rfl

/-! ### Signs -/

/-- Scanner and reader take the same sign. -/
theorem At.scanSign (h : At bytes 0 cs) (hsign : takeSign cs = (negative, rest)) :
    ∃ i, scanSign bytes = (negative, i) ∧ At bytes i rest := by
  obtain ⟨rfl, rfl⟩ | ⟨rfl, rfl⟩ | ⟨rfl, rfl, hminus, hplus⟩ := takeSign_cases hsign
  · obtain ⟨hget, hnext⟩ := h.next (by decide)
    exact ⟨1, if_pos hget, hnext⟩
  · obtain ⟨hget, hnext⟩ := h.next (by decide)
    exact ⟨1, by rw [ByteScan.scanSign, hget]; rfl, hnext⟩
  · refine ⟨0, ?_, h⟩
    rw [ByteScan.scanSign, if_neg (mt (h.getElem?_eq_some_iff (by decide)).mp hminus),
      if_neg (mt (h.getElem?_eq_some_iff (by decide)).mp hplus)]

/-- The sign that is taken is the sign that is skipped. -/
theorem At.skipSign (h : At bytes i cs) (hb : Short bytes)
    (hsign : takeSign cs = (negative, rest)) :
    ∃ ss, SpellsSign ss negative ∧ cs = ss ++ rest ∧ skipSign bytes i = .ok (i + ss.length) := by
  obtain ⟨rfl, rfl⟩ | ⟨rfl, rfl⟩ | ⟨rfl, rfl, hminus, hplus⟩ := takeSign_cases hsign
  · obtain ⟨hget, hnext⟩ := h.next (by decide)
    exact ⟨_, .minus, rfl, (if_pos (.inr hget)).trans (hb.index_succ hnext.le_length)⟩
  · obtain ⟨hget, hnext⟩ := h.next (by decide)
    exact ⟨_, .plus, rfl, (if_pos (.inl hget)).trans (hb.index_succ hnext.le_length)⟩
  · refine ⟨[], .none, rfl, if_neg ?_⟩
    rw [h.getElem?_eq_some_iff (by decide), h.getElem?_eq_some_iff (by decide)]
    exact not_or.mpr ⟨hplus, hminus⟩

/-! ### The parts of a literal -/

/-- Characters of one byte each are no more than the bytes that are left. -/
theorem At.length_le (h : At bytes i (ds ++ rest)) (hds : ∀ d ∈ ds, IsAscii d) :
    ds.length ≤ bytes.length :=
  Nat.le_trans (Nat.le_add_left _ i) (h.advance hds).le_length

/-- The digits after a point are scanned as they are taken. -/
theorem At.scanPlaces (h : At bytes i cs) (hb : Short bytes)
    (hplaces : takePlaces? cs = some (ds, rest)) (whole : List UInt8) :
    ∃ j, scanPlaces s bytes whole i = .ok (whole ++ encode ds, ds.length, j) ∧
      At bytes j rest ∧ ds.length ≤ bytes.length := by
  unfold takePlaces? at hplaces
  split at hplaces
  · obtain ⟨rfl, hds, hended⟩ := takeDigits?_eq_some_iff.mp hplaces
    obtain ⟨hget, hnext⟩ := h.next (by decide)
    have hlen := hnext.length_le hds.isAscii
    refine ⟨i + 1 + ds.length, ?_, hnext.advance hds.isAscii, hlen⟩
    have hlength : Word.index (((i + 1 + ds.length : ℕ) : ℤ) - (i + 1 : ℕ)) = .ok ds.length := by
      rw [Nat.cast_add, add_sub_cancel_left, hb.index hlen]
    rw [ByteScan.scanPlaces, if_pos hget, hb.index_succ hnext.le_length]
    simp only [bind, Except.bind, hnext.skipNumeral (hb.lt_count le_rfl) hds hended,
      hnext.slice hds.isAscii, hlength, Word.reinterpret_of_lt (hb.mul_two_lt hlen)]
    rfl
  · next hpoint =>
    cases hplaces
    refine ⟨i, ?_, h, Nat.zero_le _⟩
    rw [ByteScan.scanPlaces, if_neg, encode_nil, List.append_nil]
    · rfl
    · rw [h.getElem?_eq_some_iff (by decide)]
      intro hhead
      obtain ⟨cs', rfl⟩ := List.head?_eq_some_iff.mp hhead
      exact hpoint cs' rfl

/-- Where the reader finds no places after the point, the scanner refuses
the text. -/
theorem At.scanPlaces_of_none (h : At bytes i cs) (hb : Short bytes)
    (hplaces : takePlaces? cs = none) (whole : List UInt8) :
    ByteScan.scanPlaces s bytes whole i = .error (.refused (.malformed s)) := by
  unfold takePlaces? at hplaces
  split at hplaces
  · obtain ⟨hget, hnext⟩ := h.next (by decide)
    rw [ByteScan.scanPlaces, if_pos hget, hb.index_succ hnext.le_length]
    simp only [bind, Except.bind,
      hnext.skipNumeral_of_ended (hb.lt_count le_rfl) (takeDigits?_eq_none_iff.mp hplaces)]
  · cases hplaces

/-- Where the text ends there is neither point nor mark to scan. -/
theorem At.scanPlaces_of_end (h : At bytes i []) (whole : List UInt8) :
    ByteScan.scanPlaces s bytes whole i = .ok (whole, 0, i) := by
  have hpoint : bytes[i]? ≠ some '.'.toUInt8 := by
    rw [h.getElem?_eq]
    nofun
  exact if_neg hpoint

/-- At the end of the text no exponent is scanned, and the scale stays. -/
theorem At.scanExponent_of_end (h : At bytes i []) (scale : Int) :
    ByteScan.scanExponent s bytes scale i = .ok (scale, i) := by
  have hmark : ¬ (bytes[i]? = some 'e'.toUInt8 ∨ bytes[i]? = some 'E'.toUInt8) := by
    rw [h.getElem?_eq]
    nofun
  exact if_neg hmark

/-- The bytes of an integer are read as the integer. -/
theorem readInt?_encode {is : List Char} {n : Int} (h : SpellsInt is n) :
    readInt? (encode is) = some n := by
  have hascii : ∀ c ∈ is, IsAscii c := by
    obtain ⟨hs, hds⟩ := h
    exact List.forall_mem_append.mpr ⟨hs.isAscii, hds.isAscii⟩
  rw [ByteScan.readInt?, map_ofUInt8_encode hascii, Text.readInt?_eq_some_iff]
  exact h

/-- The integer that is taken is the one that the slice over its sign and
its digits spells. -/
theorem At.readInt (h : At bytes i cs) (hb : Short bytes) (hint : takeInt? cs = some (e, rest)) :
    ∃ digits stop is, ByteScan.skipSign bytes i = .ok digits ∧
      ByteScan.skipNumeral s bytes digits = .ok stop ∧ ByteScan.slice bytes i stop = .ok is ∧
      readInt? is = some e ∧ At bytes stop rest := by
  rcases hsign : takeSign cs with ⟨negative, afterSign⟩
  obtain ⟨ss, hs, rfl, hskip⟩ := h.skipSign hb hsign
  rw [takeInt?, hsign] at hint
  obtain ⟨⟨ds, left⟩, htake, he⟩ := Option.bind_eq_some_iff.mp hint
  cases he
  obtain ⟨rfl, hds, hended⟩ := takeDigits?_eq_some_iff.mp htake
  have hdigits := h.advance hs.isAscii
  rw [← List.append_assoc] at h
  have hascii := List.forall_mem_append.mpr ⟨hs.isAscii, hds.isAscii⟩
  have hslice := h.slice hascii
  have hstop := h.advance hascii
  rw [List.length_append, ← Nat.add_assoc] at hslice hstop
  exact ⟨_, _, _, hskip, hdigits.skipNumeral (hb.lt_count le_rfl) hds hended, hslice,
    readInt?_encode (.mk hs hds), hstop⟩

/-- Where the reader finds no integer, the scanner passes the sign and
refuses the text at the digits. -/
theorem At.readInt_of_none (h : At bytes i cs) (hb : Short bytes) (hint : takeInt? cs = none) :
    ∃ digits, ByteScan.skipSign bytes i = .ok digits ∧
      ByteScan.skipNumeral s bytes digits = .error (.refused (.malformed s)) := by
  rcases hsign : takeSign cs with ⟨negative, afterSign⟩
  obtain ⟨ss, hs, rfl, hskip⟩ := h.skipSign hb hsign
  rw [takeInt?, hsign] at hint
  rcases htake : takeDigits? afterSign with _ | ⟨ds, left⟩
  · exact ⟨_, hskip,
      (h.advance hs.isAscii).skipNumeral_of_ended (hb.lt_count le_rfl)
        (takeDigits?_eq_none_iff.mp htake)⟩
  · cases (Option.bind_eq_none_iff.mp hint) _ htake

/-- Where the reader is at the mark of an exponent, so is the scanner. -/
theorem At.next_mark {c : Char} (h : At bytes i (c :: cs)) (hc : c = 'e' ∨ c = 'E') :
    (bytes[i]? = some 'e'.toUInt8 ∨ bytes[i]? = some 'E'.toUInt8) ∧ At bytes (i + 1) cs := by
  obtain rfl | rfl := hc
  · obtain ⟨hget, hnext⟩ := h.next (by decide)
    exact ⟨.inl hget, hnext⟩
  · obtain ⟨hget, hnext⟩ := h.next (by decide)
    exact ⟨.inr hget, hnext⟩

/-- The exponent is subtracted if it and the difference fit a word. -/
theorem At.scanExponent (h : At bytes i cs) (hb : Short bytes)
    (hexponent : takeExponent? cs = some (e, rest)) (hscale : Word.isSigned scale = true) :
    ∃ j, At bytes j rest ∧ scanExponent s bytes scale i =
      if Word.isSigned e ∧ Word.isSigned (scale - e) then .ok (scale - e, j)
      else .error (.refused (.malformed s)) := by
  obtain ⟨c, digits, hmark, rfl, htake⟩ | ⟨htake, hlower, hupper⟩ := takeExponent?_cases cs
  · obtain ⟨hget, hnext⟩ := h.next_mark hmark
    obtain ⟨_, stop, _, hskip, hnum, hslice, hread, hat⟩ :=
      hnext.readInt (s := s) hb (htake ▸ hexponent)
    refine ⟨stop, hat, ?_⟩
    rw [ByteScan.scanExponent, if_pos hget, hb.index_succ hnext.le_length]
    simp only [bind, Except.bind, hskip, hnum, hslice, hread, Option.bind_some, Word.signed?]
    by_cases he : Word.isSigned e = true
    · by_cases hdiff : Word.isSigned (scale - e) = true
      · simp only [if_pos he, if_pos hdiff, if_pos (And.intro he hdiff)]
        rfl
      · simp only [if_pos he, if_neg hdiff, if_neg (fun h => hdiff (And.right h))]
        rfl
    · simp only [if_neg he, if_neg (fun h => he (And.left h))]
      rfl
  · cases htake.symm.trans hexponent
    refine ⟨i, h, ?_⟩
    rw [ByteScan.scanExponent, if_neg, if_pos, sub_zero]
    · rfl
    · exact ⟨rfl, (sub_zero scale).symm ▸ hscale⟩
    · rw [h.getElem?_eq_some_iff (by decide), h.getElem?_eq_some_iff (by decide)]
      exact not_or.mpr ⟨hlower, hupper⟩

/-- Where the reader finds no exponent behind the mark, the scanner refuses
the text. -/
theorem At.scanExponent_of_none (h : At bytes i cs) (hb : Short bytes)
    (hexponent : takeExponent? cs = none) (scale : Int) :
    ByteScan.scanExponent s bytes scale i = .error (.refused (.malformed s)) := by
  obtain ⟨c, digits, hmark, rfl, htake⟩ | ⟨htake, -, -⟩ := takeExponent?_cases cs
  · obtain ⟨hget, hnext⟩ := h.next_mark hmark
    obtain ⟨_, hskip, hnum⟩ := hnext.readInt_of_none (s := s) hb (htake ▸ hexponent)
    rw [ByteScan.scanExponent, if_pos hget, hb.index_succ hnext.le_length]
    simp only [bind, Except.bind, hskip, hnum]
  · cases htake.symm.trans hexponent

/-! ### The scaled number -/

/-- A power that is not negative is refused above the bound only. -/
theorem checkPower_natCast (k : Nat) :
    checkPower s k = if k ≤ maxPower then .ok k else .error (.refused (.malformed s)) := by
  by_cases hk : k ≤ maxPower
  · have hle : k ≤ 100000 := hk
    rw [checkPower, if_neg (by omega), if_pos (by omega), if_pos hk, Int.toNat_natCast]
  · rw [checkPower, if_pos (by omega), if_neg hk]

/-- Scaling by a power within bounds gives the value of the literal, and
the other powers are refused. -/
theorem scaleDown_eq (l : DecimalLiteral) (hl : Word.isSigned l.power = true) :
    scaleDown s l.digits (-l.power) =
      if l.power.natAbs ≤ maxPower then .ok l.value else .error (.refused (.malformed s)) := by
  by_cases hsign : l.power ≤ 0
  · have hpower : -l.power = (l.power.natAbs : ℤ) := by omega
    rw [scaleDown, if_pos (by omega), hpower, checkPower_natCast, value, if_pos hsign]
    split <;> rfl
  · have hpower : l.power = (l.power.natAbs : ℤ) := by omega
    have hneg : Word.negate (-l.power) = .ok l.power := by
      rw [Word.negate, neg_neg, if_pos hl]
    have hcheck : checkPower s l.power =
        if l.power.natAbs ≤ maxPower then .ok l.power.natAbs
        else .error (.refused (.malformed s)) :=
      hpower ▸ checkPower_natCast l.power.natAbs
    rw [scaleDown, if_neg (by omega), hneg, value, if_neg hsign]
    by_cases hk : l.power.natAbs ≤ maxPower
    · rw [if_pos hk] at hcheck ⊢
      simp only [bind, Except.bind, hcheck, pure, Except.pure]
    · rw [if_neg hk] at hcheck ⊢
      simp only [bind, Except.bind, hcheck]

theorem readInt?_digits (hds : IsNumeral ds) : readInt? (encode ds) = some (digitsValue ds : ℤ) :=
  readInt?_encode (.mk .none hds)

/-- The literal is valued if nothing is left after its parts. -/
theorem At.finish {l : DecimalLiteral} (h : At bytes i rest)
    (hds : IsNumeral (l.whole ++ l.places)) (hl : Word.isSigned l.power = true) :
    finish s bytes (encode l.whole ++ encode l.places) l.negative (-l.power) i =
      if rest = [] ∧ l.power.natAbs ≤ maxPower then .ok l.value
      else .error (.refused (.malformed s)) := by
  have hdigits : (if l.negative = true then -(digitsValue (l.whole ++ l.places) : ℤ)
      else digitsValue (l.whole ++ l.places)) = l.digits := rfl
  rw [ByteScan.finish, ← encode_append, readInt?_digits hds]
  by_cases hrest : rest = []
  · rw [if_pos (h.end_iff.mpr hrest)]
    simp only [hdigits, scaleDown_eq l hl, hrest, true_and]
  · rw [if_neg (mt h.end_iff.mp hrest), if_neg (fun hboth => hrest hboth.1)]
    rfl

end ByteScan

namespace Fraction

open ByteScan

/-- The scan answers as the reader does. -/
theorem scanDecimal_eq {s : String} (hs : s.utf8ByteSize < 2 ^ 62) :
    scanDecimal s = (ofDecimal? s).mapError .refused := by
  have hb : Short s.toByteArray.data.toList := hs
  rcases hsign : takeSign s.toList with ⟨negative, afterSign⟩
  obtain ⟨i, hscan, hi⟩ := (at_zero s).scanSign hsign
  -- part by part; where the reader finds no such part the scanner refuses the text
  rcases hwhole : takeDigits? afterSign with _ | ⟨whole, afterWhole⟩
  · have hended := takeDigits?_eq_none_iff.mp hwhole
    have hskip := hi.skipNumeral_of_ended (s := s) (hb.lt_count le_rfl) hended
    simp only [scanDecimal, ofDecimal?, read?, hsign, hwhole, hscan, hskip, bind, Except.bind,
      Option.bind, Except.mapError]
  obtain ⟨rfl, hnum, hended⟩ := takeDigits?_eq_some_iff.mp hwhole
  have hskip := hi.skipNumeral (s := s) (hb.lt_count le_rfl) hnum hended
  have hslice := hi.slice hnum.isAscii
  have hj := hi.advance hnum.isAscii
  rcases hplaces : takePlaces? afterWhole with _ | ⟨places, afterPlaces⟩
  · have hpoint := hj.scanPlaces_of_none (s := s) hb hplaces (encode whole)
    simp only [scanDecimal, ofDecimal?, read?, hsign, hwhole, hplaces, hscan, hskip, hslice,
      hpoint, bind, Except.bind, Option.bind, Except.mapError]
  obtain ⟨j, hpoint, hj, hlen⟩ := hj.scanPlaces (s := s) hb hplaces (encode whole)
  rcases hexp : takeExponent? afterPlaces with _ | ⟨e, left⟩
  · have hmark := hj.scanExponent_of_none (s := s) hb hexp places.length
    simp only [scanDecimal, ofDecimal?, read?, hsign, hwhole, hplaces, hexp, hscan, hskip, hslice,
      hpoint, hmark, bind, Except.bind, Option.bind, Except.mapError]
  set l : DecimalLiteral := ⟨negative, whole, places, e⟩ with hl
  have hdigits : IsNumeral (l.whole ++ l.places) := by
    obtain ⟨_, hps, -⟩ := exists_spellsPlaces hplaces
    exact ⟨List.append_ne_nil_of_left_ne_nil hnum.1 _,
      List.forall_mem_append.mpr ⟨hnum.2, hps.isDigit⟩⟩
  have hreader : ofDecimal? s = if left = [] ∧ l.power.natAbs ≤ maxPower then .ok l.value
      else .error (.malformed s) := by
    cases left <;>
    simp only [ofDecimal?, read?, hsign, hwhole, hplaces, hexp, bind, Option.bind, ← hl,
      List.isEmpty_nil, List.isEmpty_cons, if_true, true_and, reduceCtorEq, false_and, if_false,
      pure]
  have hlen : places.length < 0x4000000000000000 := Nat.lt_of_le_of_lt hlen hb
  have hscale : Word.isSigned places.length = true := Word.isSigned_iff.mpr (by omega)
  obtain ⟨k, hk, hmark⟩ := hj.scanExponent (s := s) hb hexp hscale
  have hpower : (places.length : ℤ) - e = -l.power := (neg_sub _ _).symm
  rw [hreader]
  simp only [scanDecimal, hscan, hskip, hslice, hpoint, hmark, bind, Except.bind]
  by_cases hword : Word.isSigned e = true ∧ Word.isSigned (places.length - e) = true
  · rw [if_pos hword, hpower]
    refine (hk.finish hdigits ?_).trans (by split <;> rfl)
    rw [Word.isSigned_iff, Word.isSigned_iff] at hword
    rw [Word.isSigned_iff]
    omega
  · -- a power that does not fit a word is far out of bounds
    have hbound : ¬ l.power.natAbs ≤ maxPower := by
      rw [Word.isSigned_iff, Word.isSigned_iff] at hword
      unfold maxPower
      omega
    rw [if_neg hword, if_neg (fun h => hbound h.2)]
    rfl

/-- Decimal literals are read exactly. The scan of a text shorter than
2^62 bytes ends in a number when the text spells a literal whose power of
ten is at most 100000 either way, and the number is the one that the
literal denotes. It ends with the whole text as malformed otherwise: it
never overflows a word or breaks a slice. The reader that takes the text
apart by characters answers the same. -/
theorem scanDecimal_exact {s : String} (hs : s.utf8ByteSize < 2 ^ 62) :
    ((∃ q, scanDecimal s = .ok q) ↔ ∃ l, Spells s.toList l ∧ l.power.natAbs ≤ 100000) ∧
    (∀ q, scanDecimal s = .ok q → ∀ l, Spells s.toList l → q.toRat = l.number) ∧
    (∀ stop, scanDecimal s = .error stop → stop = .refused (.malformed s)) ∧
    scanDecimal s = (ofDecimal? s).mapError .refused := by
  have hscan := scanDecimal_eq hs
  have hok : ∀ q, scanDecimal s = .ok q ↔ ofDecimal? s = .ok q := by
    intro q
    rw [hscan]
    cases ofDecimal? s <;> simp [Except.mapError]
  refine ⟨⟨?_, ?_⟩, ?_, ?_, hscan⟩
  · rintro ⟨q, hq⟩
    obtain ⟨l, hl, hpower, -⟩ := ofDecimal?_eq_ok_iff.mp ((hok q).mp hq)
    exact ⟨l, hl, hpower⟩
  · rintro ⟨l, hl, hpower⟩
    refine ⟨l.value, (hok _).mpr (ofDecimal?_eq_ok_iff.mpr ⟨l, hl, hpower, toRat_value l⟩)⟩
  · intro q hq l hl
    obtain ⟨l', hl', -, hval⟩ := ofDecimal?_eq_ok_iff.mp ((hok q).mp hq)
    rw [hval, hl'.unique hl]
  · intro stop hstop
    rw [hscan] at hstop
    rcases hread : ofDecimal? s with e | q
    · rw [hread] at hstop
      cases hstop
      rw [(ofDecimal?_eq_error_iff.mp hread).2]
    · rw [hread] at hstop
      cases hstop

/-- The text `-1.50e1` is -15. -/
theorem scanDecimal_exact_sample :
    "-1.50e1".utf8ByteSize < 2 ^ 62 ∧ ∃ q, scanDecimal "-1.50e1" = .ok q ∧ q.toRat = -15 := by
  have hs : "-1.50e1".utf8ByteSize < 2 ^ 62 := by decide
  obtain ⟨hok, hval, -, -⟩ := scanDecimal_exact hs
  have hspells : Spells "-1.50e1".toList ⟨true, ['1'], ['5', '0'], 1⟩ :=
    read?_eq_some_iff.mp (by decide)
  obtain ⟨q, hq⟩ := hok.mpr ⟨_, hspells, by decide⟩
  refine ⟨hs, q, hq, (hval q hq _ hspells).trans ?_⟩
  have hdigits : DecimalLiteral.digits ⟨true, ['1'], ['5', '0'], 1⟩ = -150 := by decide
  have hpower : DecimalLiteral.power ⟨true, ['1'], ['5', '0'], 1⟩ = -1 := by decide
  rw [number, hdigits, hpower]
  norm_num

end Fraction

end TypedTerms
