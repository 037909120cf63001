import Mathlib.Data.List.TakeDrop
import Mathlib.Data.List.TakeWhile
import TypedTerms.Text.CodePoint

/-!
# How signs, numerals and integers are spelled

The readers of signs and digits take as much as they can from the front
of a text. Beside them stands the grammar, which says of a text as a
whole what it spells: a sign is a plus, a minus or nothing, a numeral is
one digit or more, an integer is a sign and a numeral. Reading accepts
exactly what the grammar spells, up to the first character that is no
digit (`takeDigits?_eq_some_iff`, `takeInt?_eq_some_iff`).
-/

namespace TypedTerms.Text

variable {cs ds rest : List Char} {negative : Bool} {n : Int}

/-- One digit or more, and nothing else. -/
def IsNumeral (ds : List Char) : Prop := ds ≠ [] ∧ ∀ d ∈ ds, isDigit d = true

/-- The text does not go on with a digit. -/
def Ended (cs : List Char) : Prop := ∀ c ∈ cs.head?, isDigit c = false

/-- The text is the sign of a negative number, or of one that is not. -/
inductive SpellsSign : List Char → Bool → Prop where
  | none : SpellsSign [] false
  | plus : SpellsSign ['+'] false
  | minus : SpellsSign ['-'] true

/-- The text is an integer in base ten. -/
inductive SpellsInt : List Char → Int → Prop where
  | mk {ss ds : List Char} {negative : Bool} (sign : SpellsSign ss negative)
    (digits : IsNumeral ds) : SpellsInt (ss ++ ds) (signed negative (digitsValue ds))

theorem ended_nil : Ended [] := fun _ hc => nomatch hc

theorem ended_cons {c : Char} (hc : isDigit c = false) : Ended (c :: cs) := by
  rintro _ ⟨⟩
  exact hc

/-! ## Where a text is divided -/

section Span

variable {p : Char → Bool}

/-- The leading part is taken as far as it goes when what follows does not
belong to it. -/
theorem span_append (hds : ∀ d ∈ ds, p d = true) (hrest : ∀ c ∈ rest.head?, p c = false) :
    (ds ++ rest).span p = (ds, rest) := by
  rw [List.span_eq_takeWhile_dropWhile, List.takeWhile_append_of_pos hds,
    List.dropWhile_append_of_pos hds]
  cases rest with
  | nil => rw [List.takeWhile_nil, List.append_nil, List.dropWhile_nil]
  | cons c rest =>
    have hc : ¬ p c = true := Bool.eq_false_iff.mp (hrest c rfl)
    rw [List.takeWhile_cons_of_neg hc, List.dropWhile_cons_of_neg hc, List.append_nil]

/-- Taking a leading part splits the text where it ends. -/
theorem exists_span (p : Char → Bool) (cs : List Char) :
    ∃ ds rest, cs.span p = (ds, rest) ∧ cs = ds ++ rest ∧
      (∀ d ∈ ds, p d = true) ∧ ∀ c ∈ rest.head?, p c = false := by
  refine ⟨_, _, List.span_eq_takeWhile_dropWhile p cs,
    List.takeWhile_append_dropWhile.symm, fun d hd => List.mem_takeWhile_imp hd, ?_⟩
  intro c hc
  have hnot := List.head?_dropWhile_not p cs
  rwa [hc] at hnot

end Span

/-! ## Digits, signs and integers -/

/-- Digits are taken up to the first character that is none. -/
theorem takeDigits?_eq_some_iff :
    takeDigits? cs = some (ds, rest) ↔ cs = ds ++ rest ∧ IsNumeral ds ∧ Ended rest := by
  constructor
  · obtain ⟨taken, left, hspan, hcs, hdigits, hended⟩ := exists_span isDigit cs
    intro h
    rw [takeDigits?, hspan] at h
    cases taken with
    | nil => cases h
    | cons d taken =>
      cases h
      exact ⟨hcs, ⟨List.cons_ne_nil d taken, hdigits⟩, hended⟩
  · rintro ⟨rfl, ⟨hne, hdigits⟩, hended⟩
    rw [takeDigits?, span_append hdigits hended]
    cases ds with
    | nil => exact absurd rfl hne
    | cons d ds => rfl

/-- Where no digit comes next there is none to take. -/
theorem takeDigits?_eq_none_iff : takeDigits? cs = none ↔ Ended cs := by
  obtain ⟨ds, rest, hspan, rfl, hdigits, hended⟩ := exists_span isDigit cs
  rw [takeDigits?, hspan]
  cases ds with
  | nil => exact iff_of_true rfl hended
  | cons d ds =>
    refine iff_of_false (fun h => nomatch h) fun h => ?_
    cases (h d rfl).symm.trans (hdigits d List.mem_cons_self)

/-- Whichever sign is taken, it stood in front, and when none is taken
none did. -/
theorem takeSign_cases (h : takeSign cs = (negative, rest)) :
    cs = '-' :: rest ∧ negative = true ∨ cs = '+' :: rest ∧ negative = false ∨
      cs = rest ∧ negative = false ∧ cs.head? ≠ some '-' ∧ cs.head? ≠ some '+' := by
  unfold takeSign at h
  split at h
  · cases h
    exact .inl ⟨rfl, rfl⟩
  · cases h
    exact .inr (.inl ⟨rfl, rfl⟩)
  · next hminus hplus =>
    cases h
    refine .inr (.inr ⟨rfl, rfl, fun hhead => ?_, fun hhead => ?_⟩)
    · obtain ⟨cs', hcs⟩ := List.head?_eq_some_iff.mp hhead
      exact hminus cs' hcs
    · obtain ⟨cs', hcs⟩ := List.head?_eq_some_iff.mp hhead
      exact hplus cs' hcs

/-- What is taken as a sign spells one, and the rest is what follows. -/
theorem exists_spellsSign (h : takeSign cs = (negative, rest)) :
    ∃ ss, SpellsSign ss negative ∧ cs = ss ++ rest := by
  obtain ⟨rfl, rfl⟩ | ⟨rfl, rfl⟩ | ⟨rfl, rfl, -, -⟩ := takeSign_cases h
  · exact ⟨_, .minus, rfl⟩
  · exact ⟨_, .plus, rfl⟩
  · exact ⟨_, .none, rfl⟩

theorem not_isDigit_plus : isDigit '+' = false := rfl

theorem not_isDigit_minus : isDigit '-' = false := rfl

/-- A sign in front of a digit is taken whole. -/
theorem takeSign_append {ss : List Char} (hs : SpellsSign ss negative) (hds : IsNumeral ds) :
    takeSign (ss ++ (ds ++ rest)) = (negative, ds ++ rest) := by
  obtain ⟨hne, hdigits⟩ := hds
  cases hs with
  | plus | minus => rfl
  | none =>
    cases ds with
    | nil => exact absurd rfl hne
    | cons d ds =>
      have hd := hdigits d List.mem_cons_self
      rw [List.nil_append, List.cons_append, takeSign]
      · rintro _ ⟨⟩
        cases not_isDigit_minus.symm.trans hd
      · rintro _ ⟨⟩
        cases not_isDigit_plus.symm.trans hd

/-- An integer is taken up to the first character that is no digit. -/
theorem takeInt?_eq_some_iff :
    takeInt? cs = some (n, rest) ↔ ∃ is, cs = is ++ rest ∧ SpellsInt is n ∧ Ended rest := by
  constructor
  · intro h
    rcases hsign : takeSign cs with ⟨negative, digits⟩
    obtain ⟨ss, hs, rfl⟩ := exists_spellsSign hsign
    rw [takeInt?, hsign] at h
    obtain ⟨⟨ds, left⟩, hds, hn⟩ := Option.bind_eq_some_iff.mp h
    cases hn
    obtain ⟨rfl, hnum, hended⟩ := takeDigits?_eq_some_iff.mp hds
    exact ⟨ss ++ ds, (List.append_assoc ss ds rest).symm, .mk hs hnum, hended⟩
  · rintro ⟨_, rfl, ⟨hs, hds⟩, hended⟩
    rw [List.append_assoc, takeInt?, takeSign_append hs hds]
    exact Option.bind_eq_some_iff.mpr
      ⟨_, takeDigits?_eq_some_iff.mpr ⟨rfl, hds, hended⟩, rfl⟩

/-- An integer is read of the texts that spell it, and of no others. -/
theorem readInt?_eq_some_iff : readInt? cs = some n ↔ SpellsInt cs n := by
  have htake : takeInt? cs = some (n, []) ↔ SpellsInt cs n := by
    rw [takeInt?_eq_some_iff]
    constructor
    · rintro ⟨is, rfl, his, -⟩
      rwa [List.append_nil]
    · exact fun h => ⟨cs, (List.append_nil cs).symm, h, ended_nil⟩
  rw [← htake, readInt?]
  split
  · next m heq => rw [heq, Option.some_inj, Option.some_inj, Prod.mk.injEq, and_iff_left rfl]
  · next hrest => exact iff_of_false nofun fun heq => hrest n heq

/-- Behind the sign of an integer there are digits. -/
theorem SpellsInt.isNumeral_takeSign (h : SpellsInt cs n) : IsNumeral (takeSign cs).2 := by
  obtain @⟨ss, ds, negative, hs, hds⟩ := h
  have hsign : takeSign (ss ++ (ds ++ [])) = (negative, ds ++ []) := takeSign_append hs hds
  rw [List.append_nil] at hsign
  rwa [hsign]

/-- The text of an integer holds digits and signs only. -/
theorem SpellsInt.notMem {c : Char} (h : SpellsInt cs n) (hdigit : isDigit c = false)
    (hplus : c ≠ '+') (hminus : c ≠ '-') : c ∉ cs := by
  obtain ⟨hs, hds⟩ := h
  rw [List.mem_append, not_or]
  constructor
  · cases hs with
    | none => exact List.not_mem_nil
    | plus => exact fun hc => hplus (List.mem_singleton.mp hc)
    | minus => exact fun hc => hminus (List.mem_singleton.mp hc)
  · intro hc
    cases hdigit.symm.trans (hds.2 c hc)

end TypedTerms.Text
