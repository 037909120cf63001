import TypedTerms.Fraction.Decimal
import TypedTerms.Proofs.Text.Digits

/-!
# Characters and their bytes

A text is stored as the bytes of its characters in UTF-8. An ASCII
character is one byte, its code; any other character begins with a byte
that is no ASCII code and marks a beginning. So the bytes from an index
on tell which ASCII character comes next, if one does, and whether a
character begins there.

`At bytes i cs` says that the characters `cs` are what is left of the
text at an index. A scanner over the bytes and a reader of characters
that have come to the same place see the same.
-/

namespace TypedTerms

namespace Text

/-- The bytes of characters in UTF-8. -/
def encode (cs : List Char) : List UInt8 := cs.flatMap String.utf8EncodeChar

/-- The bytes of a text are those of its characters, one after the other. -/
theorem toByteArray_toList (s : String) : s.toByteArray.data.toList = encode s.toList := by
  rw [← String.utf8Encode_toList, List.utf8Encode, List.data_toByteArray]
  rfl

/-- The character is an ASCII character. -/
def IsAscii (c : Char) : Prop := c.toNat < 0x80

instance (c : Char) : Decidable (IsAscii c) := inferInstanceAs (Decidable (_ < _))

/-- An ASCII character is one byte. -/
theorem utf8EncodeChar_of_isAscii {c : Char} (hc : IsAscii c) :
    String.utf8EncodeChar c = [c.toUInt8] := by
  have hle : c.val.toNat ≤ 0x7f := Nat.le_of_lt_succ hc
  simp only [String.utf8EncodeChar, if_pos hle]
  rfl

/-- Any other character begins with a byte that no ASCII character has. -/
theorem exists_utf8EncodeChar {c : Char} (hc : ¬ IsAscii c) :
    ∃ b bs, String.utf8EncodeChar c = b :: bs ∧ 0xC0 ≤ b.toNat := by
  have hlt : ¬ c.val.toNat ≤ 0x7f := fun hle => hc (Nat.lt_succ_of_le hle)
  simp only [String.utf8EncodeChar, if_neg hlt]
  split
  · exact ⟨_, _, rfl, by rw [UInt8.toNat_ofNat']; omega⟩
  split
  · exact ⟨_, _, rfl, by rw [UInt8.toNat_ofNat']; omega⟩
  · exact ⟨_, _, rfl, by rw [UInt8.toNat_ofNat']; omega⟩

theorem toUInt32_toUInt8 {c : Char} (hc : IsAscii c) : c.toUInt8.toUInt32 = c.val := by
  apply UInt32.toNat_inj.mp
  rw [UInt8.toNat_toUInt32, ← Char.toUInt8_val, UInt32.toNat_toUInt8]
  exact Nat.mod_eq_of_lt (Nat.lt_trans hc (by decide))

theorem toNat_toUInt8 {c : Char} (hc : IsAscii c) : c.toUInt8.toNat = c.toNat := by
  rw [← UInt8.toNat_toUInt32, toUInt32_toUInt8 hc]
  rfl

theorem ofUInt8_toUInt8 {c : Char} (hc : IsAscii c) : Char.ofUInt8 c.toUInt8 = c :=
  Char.ext (toUInt32_toUInt8 hc)

theorem isAscii_of_isDigit {c : Char} (hc : isDigit c = true) : IsAscii c := by
  have hle := of_decide_eq_true (Bool.and_eq_true_iff.mp hc).2
  exact Nat.lt_of_le_of_lt (UInt32.le_iff_toNat_le.mp hle) (by decide)

/-- A byte is a digit when it is the one byte of a digit. -/
theorem isDigit_toUInt8 {c : Char} (hc : IsAscii c) :
    ByteScan.isDigit c.toUInt8 = isDigit c := by
  rw [ByteScan.isDigit, toUInt32_toUInt8 hc, isDigit]

/-- The first byte of a longer character is no digit. -/
theorem not_isDigit_of_le {b : UInt8} (hb : 0xC0 ≤ b.toNat) : ByteScan.isDigit b = false := by
  have hlt : ¬ b.toUInt32 ≤ '9'.val := by
    rw [UInt32.le_iff_toNat_le, UInt8.toNat_toUInt32]
    exact Nat.not_le.mpr (Nat.lt_of_lt_of_le (by decide) hb)
  rw [ByteScan.isDigit, CodePoint.isDigit, decide_eq_false hlt, Bool.and_false]

theorem encode_nil : encode [] = [] := rfl

theorem encode_append (cs ds : List Char) : encode (cs ++ ds) = encode cs ++ encode ds :=
  List.flatMap_append

/-- A text of ASCII characters has one byte for each. -/
theorem encode_of_isAscii {cs : List Char} (hcs : ∀ c ∈ cs, IsAscii c) :
    encode cs = cs.map Char.toUInt8 := by
  induction cs with
  | nil => rfl
  | cons c cs ih =>
    obtain ⟨hc, hcs⟩ := List.forall_mem_cons.mp hcs
    rw [encode, List.flatMap_cons, utf8EncodeChar_of_isAscii hc, List.map_cons, ← ih hcs]
    rfl

/-- A text of ASCII characters is read back from its bytes. -/
theorem map_ofUInt8_encode {cs : List Char} (hcs : ∀ c ∈ cs, IsAscii c) :
    (encode cs).map Char.ofUInt8 = cs := by
  rw [encode_of_isAscii hcs, List.map_map]
  exact (List.map_congr_left fun c hc => ofUInt8_toUInt8 (hcs c hc)).trans (List.map_id cs)

theorem SpellsSign.isAscii {ss : List Char} {negative : Bool} (h : SpellsSign ss negative) :
    ∀ c ∈ ss, IsAscii c := by
  cases h with
  | none => exact List.forall_mem_nil _
  | plus | minus =>
    rw [List.forall_mem_singleton]
    decide

theorem IsNumeral.isAscii {ds : List Char} (h : IsNumeral ds) : ∀ c ∈ ds, IsAscii c :=
  fun c hc => isAscii_of_isDigit (h.2 c hc)

end Text

namespace ByteScan

open Text

variable {bytes : List UInt8} {i : Nat} {c : Char} {cs ds rest : List Char}

/-- The characters are what is left of the text at the index. -/
structure At (bytes : List UInt8) (i : Nat) (cs : List Char) : Prop where
  le_length : i ≤ bytes.length
  drop_eq : bytes.drop i = encode cs

/-- At the beginning all characters are left. -/
theorem at_zero (s : String) : At s.toByteArray.data.toList 0 s.toList :=
  ⟨Nat.zero_le _, toByteArray_toList s⟩

/-- The byte at the index is the first one of what is left. -/
theorem At.getElem?_eq (h : At bytes i cs) : bytes[i]? = (encode cs).head? := by
  rw [← h.drop_eq, List.head?_drop]

/-- The index is at the end when nothing is left. -/
theorem At.end_iff (h : At bytes i cs) : i = bytes.length ↔ cs = [] := by
  have hlen : (bytes.drop i).length = (encode cs).length := by rw [h.drop_eq]
  rw [List.length_drop] at hlen
  have hle := h.le_length
  cases cs with
  | nil => exact iff_of_true (by rw [encode_nil, List.length_nil] at hlen; omega) rfl
  | cons c cs =>
    refine iff_of_false ?_ (List.cons_ne_nil c cs)
    rw [encode, List.flatMap_cons, List.length_append, String.length_utf8EncodeChar] at hlen
    have hpos := c.utf8Size_pos
    omega

/-- An ASCII character that comes next is one byte, and behind it the rest
is left. -/
theorem At.next (h : At bytes i (c :: cs)) (hc : IsAscii c) :
    bytes[i]? = some c.toUInt8 ∧ At bytes (i + 1) cs := by
  have hcons : bytes.drop i = c.toUInt8 :: encode cs := by
    rw [h.drop_eq, encode, List.flatMap_cons, utf8EncodeChar_of_isAscii hc]
    rfl
  have hget : bytes[i]? = some c.toUInt8 := by rw [← List.head?_drop, hcons, List.head?_cons]
  refine ⟨hget, (List.getElem?_eq_some_iff.mp hget).1, ?_⟩
  rw [← List.tail_drop, hcons, List.tail_cons]

/-- Behind ASCII characters the rest is left as many bytes further on. -/
theorem At.advance (h : At bytes i (ds ++ rest)) (hds : ∀ d ∈ ds, IsAscii d) :
    At bytes (i + ds.length) rest := by
  induction ds generalizing i with
  | nil => exact h
  | cons d ds ih =>
    obtain ⟨hd, hds⟩ := List.forall_mem_cons.mp hds
    rw [List.length_cons, Nat.add_comm ds.length, ← Nat.add_assoc]
    exact ih (h.next hd).2 hds

/-- The byte at the index tells which ASCII character comes next. -/
theorem At.getElem?_eq_some_iff (h : At bytes i cs) (hc : IsAscii c) :
    bytes[i]? = some c.toUInt8 ↔ cs.head? = some c := by
  rw [h.getElem?_eq]
  cases cs with
  | nil => exact iff_of_false (fun h => nomatch h) fun h => nomatch h
  | cons d cs =>
    rw [encode, List.flatMap_cons, List.head?_cons]
    by_cases hd : IsAscii d
    · rw [utf8EncodeChar_of_isAscii hd, List.cons_append, List.head?_cons, Option.some_inj,
        Option.some_inj]
      constructor
      · intro heq
        rw [← ofUInt8_toUInt8 hd, heq, ofUInt8_toUInt8 hc]
      · rintro rfl
        rfl
    · obtain ⟨b, bs, hbs, hb⟩ := exists_utf8EncodeChar hd
      rw [hbs, List.cons_append, List.head?_cons]
      refine iff_of_false ?_ ?_
      · rintro ⟨⟩
        rw [toNat_toUInt8 hc] at hb
        exact Nat.not_lt.mpr (Nat.le_trans (by decide) hb) hc
      · rintro ⟨⟩
        exact hd hc

/-- Where characters are left, none is divided. -/
theorem At.isBoundary (h : At bytes i cs) : isBoundary bytes i = true := by
  unfold ByteScan.isBoundary
  cases cs with
  | nil =>
    rw [h.getElem?_eq]
    exact beq_iff_eq.mpr (h.end_iff.mpr rfl)
  | cons c cs =>
    rw [h.getElem?_eq, encode, List.flatMap_cons]
    by_cases hc : IsAscii c
    · rw [utf8EncodeChar_of_isAscii hc]
      have hlt : c.toUInt8 < 0x80 := UInt8.lt_iff_toNat_lt.mpr (by rw [toNat_toUInt8 hc]; exact hc)
      exact Bool.or_eq_true_iff.mpr (.inl (decide_eq_true hlt))
    · obtain ⟨b, bs, hbs, hb⟩ := exists_utf8EncodeChar hc
      rw [hbs]
      exact Bool.or_eq_true_iff.mpr (.inr (decide_eq_true (UInt8.le_iff_toNat_le.mpr hb)))

/-- ASCII characters that come next are sliced out whole. -/
theorem At.slice (h : At bytes i (ds ++ rest)) (hds : ∀ d ∈ ds, IsAscii d) :
    slice bytes i (i + ds.length) = .ok (encode ds) := by
  have hlen : (encode ds).length = ds.length := by
    rw [encode_of_isAscii hds, List.length_map]
  rw [ByteScan.slice, if_pos ⟨Nat.le_add_right _ _, h.isBoundary, (h.advance hds).isBoundary⟩,
    h.drop_eq, encode_append, Nat.add_sub_cancel_left, ← hlen, List.take_left]

end ByteScan

end TypedTerms
