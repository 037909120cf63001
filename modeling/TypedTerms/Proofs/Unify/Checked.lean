import TypedTerms.Proofs.Contains
import TypedTerms.Proofs.Typing.Passes

/-!
# Unification keeps terms well typed

Unification compares the types of the two sides of an equation and never
runs the checker. What it binds is a side of an equation, and the sides
stand somewhere inside the terms that it was called for, or inside values
that were bound before: in an argument, at the head of a call, under a
quantifier or among its variables. A well-typed term is well typed at all
of these places, so every value that the checker would pass at the
beginning is followed by values that it passes (`unifyWith_checks`).
-/

namespace TypedTerms.TermStore

variable {st : TermStore} {s s' m : Subst} {a b x v t t₁ t₂ : TermId}
  {pending new rest : List Equation} {A B : Ty} {l : Leaf} {V : Tree} {n : Nat}

/-- The term stands for a well-typed tree. -/
def WellTyped (st : TermStore) (t : TermId) : Prop := ∃ T, st.Denotes t T ∧ T.WellTyped

/-- The checker passes a term at a type when that is its type and the term
is well typed. -/
theorem check_eq_ok_iff_wellTyped :
    (st.check t A).run = .ok (.ok ()) ↔ st.ty t = .ok A ∧ st.WellTyped t := by
  rw [check_eq_ok_iff]
  constructor
  · rintro ⟨T, hT, hty, hwt⟩
    exact ⟨(ty_of_denotes hT).trans hty, T, hT, hwt⟩
  · rintro ⟨hty, T, hT, hwt⟩
    exact ⟨T, hT, (ty_of_denotes hT).symm.trans hty, hwt⟩

theorem WellTyped.wellFormed (h : st.WellTyped t) : st.WellFormed t := by
  obtain ⟨T, hT, hwt⟩ := h
  exact ⟨T, hT, hwt.wellFormed⟩

/-- Whatever the place, a child of a well-typed term is well typed. -/
theorem WellTyped.child {c : TermId} (h : st.WellTyped t) (hc : st.IsChild c t) :
    st.WellTyped c := by
  obtain ⟨T, hT, hwt⟩ := h
  obtain ⟨C, hC, hcC⟩ := hT.child hc
  cases hwt with
  | leaf => cases hC
  | app _ children => exact ⟨C, hcC, children C hC⟩

/-- The checker passes the second term at the type of the first. -/
def Suits (st : TermStore) (x v : TermId) : Prop :=
  ∃ A, st.ty x = .ok A ∧ (st.check v A).run = .ok (.ok ())

/-- A term suits a variable when it is well typed and of the type of the
variable. -/
theorem suits_iff : st.Suits x v ↔ st.ty x = st.ty v ∧ st.WellTyped v := by
  simp only [Suits, check_eq_ok_iff_wellTyped]
  constructor
  · rintro ⟨A, hx, hv, hwt⟩
    exact ⟨hx.trans hv.symm, hwt⟩
  · rintro ⟨hty, hwt⟩
    obtain ⟨A, hA⟩ := hwt.wellFormed.exists_ty
    exact ⟨A, hty.trans hA, hA, hwt⟩

/-- A chain without a circle that binds variables to terms which the
checker passes at the types of the variables. -/
structure Checked (st : TermStore) (s : Subst) : Prop where
  key_var : ∀ ⦃x v⦄, s.get? x = some v → st.IsVariable x
  suits : ∀ ⦃x v⦄, s.get? x = some v → st.Suits x v
  acyclic : st.Acyclic s

theorem Checked.wellTyped (hs : st.Checked s) (hv : s.get? x = some v) : st.WellTyped v :=
  (suits_iff.mp (hs.suits hv)).2

/-- The trees that leaves are bound to are well typed. -/
theorem Checked.wellTyped_of_binds (hs : st.Checked s) (hV : st.Binds s l V) : V.WellTyped := by
  obtain ⟨x, v, -, hv, hV⟩ := hV
  obtain ⟨W, hW, hwt⟩ := hs.wellTyped hv
  rwa [denotes_unique hV hW]

theorem Checked.keepsTypes (hs : st.Checked s) : st.KeepsTypes s := fun _ _ hv =>
  (suits_iff.mp (hs.suits hv)).1

theorem Checked.admissible (hs : st.Checked s) : st.Admissible s where
  key_var := hs.key_var
  value_wf _ _ hv := (hs.wellTyped hv).wellFormed
  acyclic := hs.acyclic

theorem checked_empty (st : TermStore) : st.Checked .empty where
  key_var _ _ hv := nomatch hv
  suits _ _ hv := nomatch hv
  acyclic := (admissible_empty st).acyclic

/-- A well-typed term may be bound wherever the rule binds. -/
theorem Checked.bind (hs : st.Checked s) (hbind : st.Bindable s x v) (hv : st.WellTyped v) :
    st.Checked (s.bind x v) where
  key_var := Subst.forall_get?_bind hbind.isVariable hs.key_var
  suits := Subst.forall_get?_bind (suits_iff.mpr ⟨hbind.ty_eq, hv⟩) hs.suits
  acyclic := (hs.admissible.bind hbind.isVariable hv.wellFormed hbind.check).acyclic

/-- A variable may be bound to any other leaf that is of its type. -/
theorem checked_singleton (hvar : st.IsVariable x) (hv : st.node? v = some (.leaf l))
    (hty : st.ty x = st.ty v) (hl : l.Fits) (hne : x ≠ v) : st.Checked (Subst.empty.bind x v) := by
  have hsub : ¬ st.Reaches .empty v x := by
    rw [reaches_empty_iff]
    exact fun h => hne (h.eq_of_leaf hv)
  exact (checked_empty st).bind ⟨hvar, rfl, hty, hsub⟩ ⟨_, denotes_leaf_iff.mpr hv, .leaf hl⟩

/-- A state of unification between well-typed terms, on a chain whose new
bindings suit. -/
structure TypedState (st : TermStore) (s₀ s : Subst) (pending : List Equation) : Prop where
  checked : st.Checked s
  wellTyped : ∀ e ∈ pending, st.WellTyped e.1 ∧ st.WellTyped e.2
  added : ∀ b ∈ s.bindings, b ∈ s₀.bindings ∨ st.Suits b.1 b.2

/-- Unification may be in such a state. -/
theorem TypedState.unifying {s₀ : Subst} (h : st.TypedState s₀ s pending) :
    st.Unifying s pending where
  admissible := h.checked.admissible
  wf e he := (h.wellTyped e he).imp WellTyped.wellFormed WellTyped.wellFormed

/-- Every application of the rule leaves such a state: what it binds stands
in the terms or is a value already. -/
theorem TypedState.step {s₀ : Subst} (h : st.TypedState s₀ s ((a, b) :: rest))
    (hr : st.unifyRule s a b = .ok (some (s', new))) : st.TypedState s₀ s' (new ++ rest) := by
  have hstep := h.unifying.unifyStep hr
  obtain ⟨⟨ha, hb⟩, hrest⟩ := List.forall_mem_cons.mp h.wellTyped
  have hnew := hstep.parts WellTyped.child h.checked.wellTyped ha hb
  have hsides := List.forall_mem_append.mpr ⟨hnew, hrest⟩
  rcases hstep.chain with rfl | ⟨x, v, rfl, hbind, hside⟩
  · exact ⟨h.checked, hsides, h.added⟩
  · have hv : st.WellTyped v := by
      rcases hside with rfl | rfl
      · exact ha
      · exact hb
    refine ⟨h.checked.bind hbind hv, hsides, List.forall_mem_cons.mpr ⟨?_, h.added⟩⟩
    exact .inr (suits_iff.mpr ⟨hbind.ty_eq, hv⟩)

/-- Unification keeps terms well typed. Let the checker pass the two
terms, each at some type, and every value of the chain at the type of its
key. Then it passes every value of the answer at the type of its key. Of
bindings that are hidden by newer ones the same is true: each binding of
the answer suits, or stood in the chain before. -/
theorem unifyWith_checks (hs : st.Checked s) (h₁ : (st.check t₁ A).run = .ok (.ok ()))
    (h₂ : (st.check t₂ B).run = .ok (.ok ())) (hm : st.unifyWith n s t₁ t₂ = .ok (some m)) :
    st.Checked m ∧ ∀ b ∈ m.bindings, b ∈ s.bindings ∨ st.Suits b.1 b.2 := by
  obtain ⟨-, hwt₁⟩ := check_eq_ok_iff_wellTyped.mp h₁
  obtain ⟨-, hwt₂⟩ := check_eq_ok_iff_wellTyped.mp h₂
  have hstart : st.TypedState s s [(t₁, t₂)] :=
    ⟨hs, List.forall_mem_singleton.mpr ⟨hwt₁, hwt₂⟩, fun _ => .inl⟩
  have hend : st.TypedState s m [] :=
    Rule.invariant_of_solve (I := st.TypedState s) TypedState.step hstart hm
  exact ⟨hend.checked, hend.added⟩

theorem checked_sampleChain : sample.Checked sampleChain where
  key_var := respects_sampleChain_iff.1.key_var
  suits := Subst.forall_get?_bind (s := .empty) ⟨.individual, rfl, rfl⟩ fun _ _ hv => nomatch hv
  acyclic := respects_sampleChain_iff.1.acyclic

/-- Under `x ↦ g(y)`, unifying `f(x, z)` with `f(g(a), x)` binds `y` to
`a` and `z` to `g(y)`, which are individuals as the variables are. -/
theorem unifyWith_checks_sample :
    sample.Checked sampleChain ∧
      (sample.check ⟨8⟩ .individual).run = .ok (.ok ()) ∧
      (sample.check ⟨9⟩ .individual).run = .ok (.ok ()) ∧
      sample.unifyWith 20 sampleChain ⟨8⟩ ⟨9⟩ = .ok (some sampleAnswer) ∧
      sample.Checked sampleAnswer ∧
      ∀ b ∈ sampleAnswer.bindings, b ∈ sampleChain.bindings ∨ sample.Suits b.1 b.2 := by
  have h₁ : (sample.check ⟨8⟩ .individual).run = .ok (.ok ()) := rfl
  have h₂ : (sample.check ⟨9⟩ .individual).run = .ok (.ok ()) := rfl
  have hm : sample.unifyWith 20 sampleChain ⟨8⟩ ⟨9⟩ = .ok (some sampleAnswer) := rfl
  exact ⟨checked_sampleChain, h₁, h₂, hm, unifyWith_checks checked_sampleChain h₁ h₂ hm⟩

end TypedTerms.TermStore
