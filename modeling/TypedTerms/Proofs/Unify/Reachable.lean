import TypedTerms.Proofs.Unify.Correct

/-!
# Chains that unification makes

A chain is reachable when calls of unification have made it from the
empty one, with any terms made in between. The only guard against circles
is the occurs check at the time of a binding, against the bindings there
are then. It is enough: one binding more leaves a regular chain regular
(`Regular.bind`), so every step of every call does, and replacing and the
occurs check come to an end on every reachable chain
(`Reachable.invariant`).
-/

namespace TypedTerms.TermStore

variable {st st' : TermStore} {s s' m m' : Subst} {t₁ t₂ x v : TermId}
  {pending new rest : List Equation} {n : Nat}

/-- A chain that binds variables, each once, to well-formed terms of
their types, and has no circle. -/
structure Regular (st : TermStore) (m : Subst) : Prop where
  key_var : ∀ b ∈ m.bindings, st.IsVariable b.1
  keys_nodup : (m.bindings.map Prod.fst).Nodup
  value_wf : ∀ b ∈ m.bindings, st.WellFormed b.2
  same_ty : ∀ b ∈ m.bindings, ∃ A, st.ty b.1 = .ok A ∧ st.ty b.2 = .ok A
  acyclic : st.Acyclic m

theorem Regular.admissible (h : st.Regular m) : st.Admissible m where
  key_var _ _ hv := h.key_var _ (Subst.mem_of_get? hv)
  value_wf _ _ hv := h.value_wf _ (Subst.mem_of_get? hv)
  acyclic := h.acyclic

theorem regular_empty (st : TermStore) : st.Regular .empty where
  key_var _ hb := nomatch hb
  keys_nodup := .nil
  value_wf _ hb := nomatch hb
  same_ty _ hb := nomatch hb
  acyclic := (admissible_empty st).acyclic

/-- A regular chain stays so with a binding that the rule makes. -/
theorem Regular.bind (h : st.Regular s) (hbind : st.Bindable s x v) (hv : st.WellFormed v) :
    st.Regular (s.bind x v) where
  key_var := List.forall_mem_cons.mpr ⟨hbind.isVariable, h.key_var⟩
  keys_nodup := List.nodup_cons.mpr ⟨Subst.get?_eq_none_iff.mp hbind.free, h.keys_nodup⟩
  value_wf := List.forall_mem_cons.mpr ⟨hv, h.value_wf⟩
  same_ty := by
    obtain ⟨A, hA⟩ := hv.exists_ty
    exact List.forall_mem_cons.mpr ⟨⟨A, hbind.ty_eq.trans hA, hA⟩, h.same_ty⟩
  acyclic := (h.admissible.bind hbind.isVariable hv hbind.check).acyclic

/-- A regular chain stays so when the store grows. -/
theorem Regular.of_extends (h : st.Regular m) (hst : st.Extends st') : st'.Regular m where
  key_var b hb :=
    have ⟨l, hl, hvar⟩ := h.key_var b hb
    ⟨l, hst hl, hvar⟩
  keys_nodup := h.keys_nodup
  value_wf b hb := (h.value_wf b hb).of_extends hst
  same_ty b hb := by
    obtain ⟨A, hkey, hvalue⟩ := h.same_ty b hb
    obtain ⟨l, hl, -⟩ := h.key_var b hb
    obtain ⟨V, hV, -⟩ := h.value_wf b hb
    rw [← ty_of_extends (denotes_leaf_iff.mpr hl) hst] at hkey
    rw [← ty_of_extends hV hst] at hvalue
    exact ⟨A, hkey, hvalue⟩
  acyclic := h.admissible.resolvable.acyclic_of_extends hst

/-! ## One call -/

/-- The term stands in one of the two terms, or in a value of the
chain. -/
def StemsFrom (st : TermStore) (m : Subst) (t₁ t₂ v : TermId) : Prop :=
  st.Subterm v t₁ ∨ st.Subterm v t₂ ∨ ∃ b ∈ m.bindings, st.Subterm v b.2

/-- What stems from the terms does so with its children. -/
theorem StemsFrom.child {c : TermId} (h : st.StemsFrom m t₁ t₂ v) (hc : st.IsChild c v) :
    st.StemsFrom m t₁ t₂ c := by
  rcases h with h | h | ⟨b, hb, h⟩
  · exact .inl (h.tail hc)
  · exact .inr (.inl (h.tail hc))
  · exact .inr (.inr ⟨b, hb, h.tail hc⟩)

/-- The second chain has bindings put in front of the first, of terms
with the property. -/
def Prepends (P : TermId → Prop) (m m' : Subst) : Prop :=
  ∃ frames, m'.bindings = frames ++ m.bindings ∧ ∀ b ∈ frames, P b.2

/-- One binding more may be put in front, of a term with the property. -/
theorem Prepends.bind {P : TermId → Prop} (h : Prepends P m s) (hv : P v) :
    Prepends P m (s.bind x v) := by
  obtain ⟨frames, heq, hframes⟩ := h
  refine ⟨(x, v) :: frames, ?_, List.forall_mem_cons.mpr ⟨hv, hframes⟩⟩
  rw [Subst.bind, heq, List.cons_append]

/-- A state of the call for two terms that began with the chain `m`. -/
structure Calling (st : TermStore) (m : Subst) (t₁ t₂ : TermId) (s : Subst)
    (pending : List Equation) : Prop where
  regular : st.Regular s
  wf : ∀ e ∈ pending, st.WellFormed e.1 ∧ st.WellFormed e.2
  prepends : Prepends (st.StemsFrom m t₁ t₂) m s
  stems : ∀ e ∈ pending, st.StemsFrom m t₁ t₂ e.1 ∧ st.StemsFrom m t₁ t₂ e.2

/-- A call may begin from any regular chain, between well-formed terms. -/
theorem calling_start (h : st.Regular m) (h₁ : st.WellFormed t₁) (h₂ : st.WellFormed t₂) :
    st.Calling m t₁ t₂ m [(t₁, t₂)] where
  regular := h
  wf := List.forall_mem_singleton.mpr ⟨h₁, h₂⟩
  prepends := ⟨[], rfl, fun _ hb => nomatch hb⟩
  stems := List.forall_mem_singleton.mpr ⟨.inl .refl, .inr (.inl .refl)⟩

/-- A state of a call is one that unification may be in. -/
theorem Calling.unifying (h : st.Calling m t₁ t₂ s pending) : st.Unifying s pending :=
  ⟨h.regular.admissible, h.wf⟩

/-- All values of the chain stem from where the call began, those that it
has bound itself included. -/
theorem Calling.stemsFrom_of_get? (h : st.Calling m t₁ t₂ s pending) (hv : s.get? x = some v) :
    st.StemsFrom m t₁ t₂ v := by
  obtain ⟨frames, heq, hframes⟩ := h.prepends
  have hmem := Subst.mem_of_get? hv
  rw [heq] at hmem
  rcases List.mem_append.mp hmem with hmem | hmem
  · exact hframes _ hmem
  · exact .inr (.inr ⟨_, hmem, .refl⟩)

/-- Every application of the rule leaves such a state: what it binds suits,
has not been bound, and stems from where the call began. -/
theorem Calling.step {a b : TermId} (h : st.Calling m t₁ t₂ s ((a, b) :: rest))
    (hr : st.unifyRule s a b = .ok (some (s', new))) : st.Calling m t₁ t₂ s' (new ++ rest) := by
  have hstep := h.unifying.unifyStep hr
  obtain ⟨⟨ha, hb⟩, -⟩ := List.forall_mem_cons.mp h.wf
  obtain ⟨⟨hsa, hsb⟩, hsrest⟩ := List.forall_mem_cons.mp h.stems
  have hnew := hstep.parts StemsFrom.child h.stemsFrom_of_get? hsa hsb
  have hstems := List.forall_mem_append.mpr ⟨hnew, hsrest⟩
  have hwf := (hstep.unifying h.unifying).wf
  rcases hstep.chain with rfl | ⟨x, v, rfl, hbind, hside⟩
  · exact ⟨h.regular, hwf, h.prepends, hstems⟩
  · have hv : st.WellFormed v ∧ st.StemsFrom m t₁ t₂ v := by
      rcases hside with rfl | rfl
      · exact ⟨ha, hsa⟩
      · exact ⟨hb, hsb⟩
    exact ⟨h.regular.bind hbind hv.1, hwf, h.prepends.bind hv.2, hstems⟩

/-- A call on a regular chain answers a regular chain, with bindings put
in front. -/
theorem Regular.unifyWith (h : st.Regular m) (h₁ : st.WellFormed t₁) (h₂ : st.WellFormed t₂)
    (hm : st.unifyWith n m t₁ t₂ = .ok (some m')) :
    st.Regular m' ∧ Prepends (st.StemsFrom m t₁ t₂) m m' := by
  have hend : st.Calling m t₁ t₂ m' [] :=
    Rule.invariant_of_solve (I := st.Calling m t₁ t₂) Calling.step (calling_start h h₁ h₂) hm
  exact ⟨hend.regular, hend.prepends⟩

/-! ## All calls -/

/-- The chains that calls of unification make from the empty one. Between
the calls terms may be made. -/
inductive Reachable : TermStore → Subst → Prop where
  | empty (st : TermStore) : Reachable st .empty
  | grow {st st' : TermStore} {m : Subst} (h : Reachable st m) (hst : st.Extends st') :
    Reachable st' m
  | unify {st : TermStore} {m m' : Subst} {t₁ t₂ : TermId} {n : Nat} (h : Reachable st m)
    (h₁ : st.WellFormed t₁) (h₂ : st.WellFormed t₂)
    (hm : st.unifyWith n m t₁ t₂ = .ok (some m')) : Reachable st m'

/-- Every chain that calls make is regular. -/
theorem Reachable.regular (h : Reachable st m) : st.Regular m := by
  induction h with
  | empty st => exact regular_empty st
  | grow _ hst ih => exact ih.of_extends hst
  | unify _ h₁ h₂ hm ih => exact (ih.unifyWith h₁ h₂ hm).1

/-- A reachable chain binds variables, each once, to well-formed terms of
their types, without a circle; replacing and the occurs check therefore
answer for every well-formed term, and meet no variable that is bound to
itself. The next call only puts bindings in front, of terms that stand in
its two terms or in values that were there before. -/
theorem Reachable.invariant (h : Reachable st m) :
    st.Regular m ∧
      (∀ t, st.WellFormed t →
        (∃ r st', (m.replace t).on st = (.ok r, st')) ∧ ∀ v, ∃ b, st.occurs m v t = .ok b) ∧
      ∀ n t₁ t₂ m', st.WellFormed t₁ → st.WellFormed t₂ →
        st.unifyWith n m t₁ t₂ = .ok (some m') → Prepends (st.StemsFrom m t₁ t₂) m m' := by
  have hreg := h.regular
  have hs := hreg.admissible.resolvable
  refine ⟨hreg, ?_, fun n t₁ t₂ m' h₁ h₂ hm => (hreg.unifyWith h₁ h₂ hm).2⟩
  rintro t ⟨T, hT, -⟩
  constructor
  · obtain ⟨σ, hσ⟩ := hs.acyclic.exists_resolves
    obtain ⟨r, st', hr, -⟩ := Subst.yields_replace hs hσ hT (extends_refl st)
    exact ⟨r, st', hr⟩
  · intro v
    obtain ⟨b, hb, -⟩ := occurs_of_denotes hs hT v
    exact ⟨b, hb⟩

/-- One call on the sample makes the chain from the empty one. -/
theorem reachable_sampleAnswer : Reachable sample sampleAnswer := by
  have hchain : sample.unifyWith 1 .empty ⟨0⟩ ⟨6⟩ = .ok (some sampleChain) := rfl
  have hanswer : sample.unifyWith 20 sampleChain ⟨8⟩ ⟨9⟩ = .ok (some sampleAnswer) := rfl
  have hreach := (Reachable.empty sample).unify (by decide) (by decide) hchain
  exact hreach.unify (by decide) (by decide) hanswer

/-- Along the chain that a call has made, replacing and the occurs check
answer. -/
theorem Reachable.invariant_sample :
    Reachable sample sampleAnswer ∧ sample.Regular sampleAnswer ∧
      (∃ r st', (sampleAnswer.replace ⟨8⟩).on sample = (.ok r, st')) ∧
      ∀ v, ∃ b, sample.occurs sampleAnswer v ⟨8⟩ = .ok b :=
  have h := Reachable.invariant reachable_sampleAnswer
  have h8 := h.2.1 ⟨8⟩ (by decide)
  ⟨reachable_sampleAnswer, h.1, h8.1, h8.2⟩

end TypedTerms.TermStore
