import TypedTerms.Proofs.Text.Digits
import TypedTerms.Ty.Text

/-!
# The text of a type is readable in one way

The name of a kind is letters, and behind it stands no letter. So the
name can be told from what follows it, and the first character that
follows says whether the type is atomic or a compound: only behind the
name of a compound a bracket opens. Behind an element comes a comma or
the bracket that closes, and neither begins or continues a type.

Whatever follows the text of a type, as long as it could not belong to
it, the text therefore ends in one place only and is the text of one type
only (`readable`). Two types with the same text are the same type
(`text_inj`).
-/

namespace TypedTerms

namespace Kind

theorem name_inj {k l : Kind} : k.name.toList = l.name.toList ↔ k = l := by
  cases k <;> cases l <;> decide

/-- The names of kinds are made of letters. -/
theorem isAlpha_of_mem_name (k : Kind) : ∀ c ∈ k.name.toList, c.isAlpha = true := by
  refine List.all_eq_true.mp ?_
  cases k <;> rfl

theorem name_ne_nil (k : Kind) : k.name.toList ≠ [] := by
  cases k <;> decide

end Kind

namespace Ty

variable {a b : Ty} {as bs : List Ty} {xs ys : List Char}

/-! ## The parts of the text -/

/-- What stands in the text behind the name of the kind: nothing, or the
elements in brackets. -/
def brackets : Ty → List Char
  | .compound _ es => '[' :: (textList es).toList ++ [']']
  | _ => []

/-- The text of a type is the name of its kind and what stands in brackets
behind it. -/
theorem toList_text (t : Ty) : t.text.toList = t.kind.name.toList ++ t.brackets := by
  cases t <;> simp [text, kind, brackets]

/-- Without brackets the type is atomic, and with them it is a compound. -/
theorem atomic_or_compound (t : Ty) : t.brackets = [] ∨ ∃ es, t = .compound t.kind es := by
  cases t with
  | compound k es => exact .inr ⟨es, rfl⟩
  | _ => exact .inl rfl

/-- Atomic types of one kind are one type. -/
theorem eq_of_kind_eq (ha : a.brackets = []) (hb : b.brackets = []) (h : a.kind = b.kind) :
    a = b := by
  cases a <;> cases b <;> simp_all [brackets, kind]

/-- The elements behind the first, the bracket that closes, and what
follows it. -/
def closing : List Ty → List Char → List Char
  | [], xs => ']' :: xs
  | t :: ts, xs => ',' :: ' ' :: t.text.toList ++ closing ts xs

/-- The text of a list begins with that of its first type, and goes on
behind it. -/
theorem toList_textList_cons (t : Ty) (ts : List Ty) (xs : List Char) :
    (textList (t :: ts)).toList ++ ']' :: xs = t.text.toList ++ closing ts xs := by
  induction ts generalizing t with
  | nil => rw [textList, closing]
  | cons u us ih =>
    rw [textList, closing]
    · simp [ih]
    · exact List.cons_ne_nil u us

/-! ## Where the text ends -/

/-- The characters do not begin with one that would belong to the type in
front of them. -/
def Stops (xs : List Char) : Prop := ∀ c ∈ xs.head?, c.isAlpha = false ∧ c ≠ '['

theorem stops_nil : Stops [] := fun _ hc => nomatch hc

/-- What stands behind an element begins with a comma or a bracket, which
does not belong to the element. -/
theorem stops_closing (ts : List Ty) (xs : List Char) : Stops (closing ts xs) := by
  cases ts <;> rintro _ ⟨⟩ <;> decide

/-- What follows an atomic type does not begin as the brackets of a
compound. -/
theorem Stops.ne_brackets (hxs : Stops xs) (k : Kind) (es : List Ty) (ys : List Char) :
    xs ≠ (compound k es).brackets ++ ys := by
  rintro rfl
  exact absurd rfl (hxs '[' rfl).2

/-- Behind the name of the kind no letter comes next. -/
theorem not_isAlpha_brackets (t : Ty) (hxs : Stops xs) :
    ∀ c ∈ (t.brackets ++ xs).head?, c.isAlpha = false := by
  cases t with
  | compound k es =>
    rintro _ ⟨⟩
    decide
  | _ => exact fun c hc => (hxs c hc).1

/-- No text of a type begins with a closing bracket, so it is seen where a
list ends. -/
theorem text_append_ne_bracket (t : Ty) (xs ys : List Char) :
    t.text.toList ++ xs ≠ ']' :: ys := by
  obtain ⟨c, cs, hname⟩ := List.exists_cons_of_ne_nil t.kind.name_ne_nil
  have hc := t.kind.isAlpha_of_mem_name c (hname ▸ List.mem_cons_self)
  rw [toList_text, hname]
  rintro ⟨⟩
  cases hc

/-- The name of the kind can be told from what follows it. -/
theorem kind_eq_of_text_append (hxs : Stops xs) (hys : Stops ys)
    (h : a.text.toList ++ xs = b.text.toList ++ ys) :
    a.kind = b.kind ∧ a.brackets ++ xs = b.brackets ++ ys := by
  rw [toList_text, toList_text, List.append_assoc, List.append_assoc] at h
  have hspan := congrArg (List.span Char.isAlpha) h
  rw [Text.span_append a.kind.isAlpha_of_mem_name (not_isAlpha_brackets a hxs),
    Text.span_append b.kind.isAlpha_of_mem_name (not_isAlpha_brackets b hys)] at hspan
  obtain ⟨hname, hrest⟩ := Prod.mk.inj hspan
  exact ⟨Kind.name_inj.mp hname, hrest⟩

/-! ## Reading in one way -/

/-- The text of the type, with anything behind it that does not belong to
it, is not the text of another type with something behind it. -/
def Readable (a : Ty) : Prop := ∀ ⦃b : Ty⦄ ⦃xs ys : List Char⦄, Stops xs → Stops ys →
  a.text.toList ++ xs = b.text.toList ++ ys → a = b ∧ xs = ys

/-- If the elements behind the first are read in one way, so are all. -/
theorem text_append_closing_inj (iha : Readable a)
    (ihas : closing as xs = closing bs ys → as = bs ∧ xs = ys)
    (h : a.text.toList ++ closing as xs = b.text.toList ++ closing bs ys) :
    a :: as = b :: bs ∧ xs = ys := by
  obtain ⟨rfl, hrest⟩ := iha (stops_closing as xs) (stops_closing bs ys) h
  obtain ⟨rfl, rfl⟩ := ihas hrest
  exact ⟨rfl, rfl⟩

/-- What stands behind the first element tells the other elements. -/
theorem closing_inj (ih : ∀ a ∈ as, Readable a) (h : closing as xs = closing bs ys) :
    as = bs ∧ xs = ys := by
  induction as generalizing bs with
  | nil =>
    cases bs with
    | nil => exact ⟨rfl, List.tail_eq_of_cons_eq h⟩
    | cons b bs => cases h
  | cons a as iht =>
    cases bs with
    | nil => cases h
    | cons b bs =>
      obtain ⟨iha, ihas⟩ := List.forall_mem_cons.mp ih
      have htext := List.tail_eq_of_cons_eq (List.tail_eq_of_cons_eq h)
      exact text_append_closing_inj iha (iht ihas) htext

/-- The text of a list, closed by a bracket, tells the list. -/
theorem textList_append_inj (ih : ∀ a ∈ as, Readable a)
    (h : (textList as).toList ++ ']' :: xs = (textList bs).toList ++ ']' :: ys) :
    as = bs ∧ xs = ys := by
  cases as with
  | nil =>
    cases bs with
    | nil => exact ⟨rfl, List.tail_eq_of_cons_eq h⟩
    | cons b bs =>
      rw [toList_textList_cons] at h
      exact absurd h.symm (text_append_ne_bracket b _ xs)
  | cons a as =>
    cases bs with
    | nil =>
      rw [toList_textList_cons] at h
      exact absurd h (text_append_ne_bracket a _ ys)
    | cons b bs =>
      rw [toList_textList_cons, toList_textList_cons] at h
      obtain ⟨iha, ihas⟩ := List.forall_mem_cons.mp ih
      exact text_append_closing_inj iha (closing_inj ihas) h

/-- Every text of a type tells the type, whatever follows that does not
belong to it. -/
theorem readable (a : Ty) : Readable a := by
  induction a using ind with
  | node a ih =>
    intro b xs ys hxs hys h
    obtain ⟨hkind, hrest⟩ := kind_eq_of_text_append hxs hys h
    rcases atomic_or_compound a with ha | ⟨as, ha⟩ <;>
      rcases atomic_or_compound b with hb | ⟨bs, hb⟩
    · rw [ha, hb] at hrest
      exact ⟨eq_of_kind_eq ha hb hkind, hrest⟩
    · rw [ha, hb] at hrest
      exact absurd hrest (hxs.ne_brackets _ bs ys)
    · rw [ha, hb] at hrest
      exact absurd hrest.symm (hys.ne_brackets _ as xs)
    · rw [ha] at ih hrest
      rw [hb, brackets, brackets, List.append_assoc, List.append_assoc] at hrest
      obtain ⟨rfl, rfl⟩ := textList_append_inj ih (List.tail_eq_of_cons_eq hrest)
      rw [ha, hb, hkind]
      exact ⟨rfl, rfl⟩

/-- The text of a type identifies it. -/
theorem text_inj : a.text = b.text ↔ a = b := by
  constructor
  · intro h
    exact (readable a stops_nil stops_nil (by rw [h])).1
  · exact congrArg text

end Ty

end TypedTerms
