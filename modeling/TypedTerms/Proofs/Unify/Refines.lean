import TypedTerms.Proofs.Growth.Solve
import TypedTerms.Proofs.Unify.Reachable

/-!
# What a call of unification adds

A call of unification puts bindings in front of the chain that it is given,
and nothing else. Whether it puts any says whether the equation followed
from the chain already; and what it puts there refines the chain, so terms
may be instantiated after each call or after the last one.
-/

/-!
## Equations that say nothing new

Unification that has nothing to learn from an equation binds nothing.
The length of the chain therefore tells whether an equation followed from
the bindings before it: the chain is answered as it was exactly when
replacing makes one term of the two sides (`unifyWith_adds_nothing_iff`).

The one step that binds is between two sides that have no binding. The
resolution of the chain leaves such a variable as it is, so it makes one
tree of the two only if they are one term to begin with
(`Resolves.eq_of_holds`). No way through bound variables and half-replaced
terms ends in a binding, as long as the equation holds under the
resolution, and every step hands that down to the equations that it
leaves.
-/

namespace TypedTerms.TermStore

variable {st : TermStore} {s s' m : Subst} {a b x other : TermId} {new rest pending : List Equation}
  {σ : Leaf → Tree} {η : Instantiation} {n : Nat}

/-- A free variable and a free term that the resolution makes equal are
one term. -/
theorem Resolves.eq_of_holds (hσ : st.Resolves s σ) (hx : st.IsVariable x)
    (free : s.get? x = none) (freeOther : s.get? other = none) (h : st.Holds σ (x, other)) :
    x = other := by
  obtain ⟨l, hl, -⟩ := hx
  obtain ⟨W, hxW, T, hT, hTW⟩ := h
  rw [becomes_leaf_iff hl, hσ.free (not_binds_of_free hl free)] at hxW
  cases T with
  | leaf k =>
    have hk := denotes_leaf_iff.mp hT
    rw [Tree.subst_leaf, hσ.free (not_binds_of_free hk freeOther), ← hxW] at hTW
    cases hTW
    exact node?_inj hl hk
  | app op first rest =>
    rw [Tree.subst_app, ← hxW] at hTW
    cases hTW

/-- Nothing is bound where the equation holds under the resolution, a free
variable being its own resolution. -/
theorem VarStep.chain_eq (h : st.VarStep s x other (some (s', new))) (hσ : st.Resolves s σ)
    (hvar : st.IsVariable x) (hne : x ≠ other) (holds : st.Holds σ (x, other)) : s' = s := by
  cases h with
  | follow | followOther => rfl
  | bind hx ho _ => exact absurd (hσ.eq_of_holds hvar hx ho holds) hne

/-- A step binds nothing if its equation holds under the resolution. -/
theorem UnifyStep.chain_eq (h : st.UnifyStep s a b (some (s', new))) (hσ : st.Resolves s σ)
    (holds : st.Holds σ (a, b)) : s' = s := by
  cases h with
  | same | split => rfl
  | right hne _ hvar step => exact step.chain_eq hσ hvar hne.symm holds.symm
  | left hne _ hvar step => exact step.chain_eq hσ hvar hne holds

/-- A state that is still on the first chain, all of whose equations the
resolution of the chain solves. -/
structure Redundant (st : TermStore) (s₀ : Subst) (σ : Leaf → Tree) (s : Subst)
    (pending : List Equation) : Prop where
  chain_eq : s = s₀
  unifying : st.Unifying s pending
  solves : st.Solves s pending σ

/-- Every application of the rule stays on the chain, and leaves equations
that its resolution solves. -/
theorem Redundant.step {s₀ : Subst} (h : st.Redundant s₀ σ s ((a, b) :: rest))
    (hσ : st.Resolves s₀ σ) (hr : st.unifyRule s a b = .ok (some (s', new))) :
    st.Redundant s₀ σ s' (new ++ rest) := by
  obtain ⟨rfl, hI, hsol⟩ := h
  have hstep := hI.unifyStep hr
  exact ⟨hstep.chain_eq hσ (hsol.2 _ List.mem_cons_self), hstep.unifying hI,
    (hstep.solves_iff hI).mpr hsol⟩

/-- A run whose equations hold under a resolution that keeps types ends
with the chain it began with. -/
theorem Unifying.solve_eq_self (h : st.Unifying s pending) (hη : st.Resolves s η.image)
    (hsol : st.Solves s pending η.image) :
    ∃ N, ∀ n ≥ N, st.unifyRule.solve n s pending = .ok (some s) := by
  obtain ⟨N, r, hN, -⟩ := h.ends
  cases r with
  | none => exact absurd hsol (h.not_solves (hN N le_rfl) η)
  | some m =>
    have hend : st.Redundant s η.image m [] :=
      Rule.invariant_of_solve (I := st.Redundant s η.image) (fun hI => hI.step hη)
        ⟨rfl, h, hsol⟩ (hN N le_rfl)
    exact ⟨N, hend.chain_eq ▸ hN⟩

/-- What unification has answered leaves nothing to bind in the same
equations. -/
theorem TypedUnifying.solve_again (h : st.TypedUnifying s pending)
    (hm : st.unifyRule.solve n s pending = .ok (some m)) :
    ∃ N, ∀ k ≥ N, st.unifyRule.solve k m pending = .ok (some m) := by
  obtain ⟨hadm, hiff⟩ := h.unifying.respects_iff hm
  obtain ⟨μ, -, hμ⟩ := hadm.exists_instantiation (h.keepsTypes_of_solve hm)
  have hsol := (hiff _).mp hμ.respects
  exact Unifying.solve_eq_self ⟨hadm, h.unifying.wf⟩ hμ ⟨hμ.respects, hsol.2⟩

/-- No new binding means already equal. On an admissible chain whose keys
have the types of their values, unifying two terms comes to an end, and
answers the chain itself exactly when the chain replaces both terms by
one term. Whatever chain is answered, unifying the terms once more on it
answers it as it is. -/
theorem unifyWith_adds_nothing_iff (hs : st.Admissible s) (hty : st.KeepsTypes s)
    (ha : st.WellFormed a) (hb : st.WellFormed b) :
    ∃ a' st₁ b' st₂ N r, (s.replace a).on st = (.ok a', st₁) ∧
      (s.replace b).on st₁ = (.ok b', st₂) ∧ (∀ n ≥ N, st.unifyWith n s a b = .ok r) ∧
      (r = some s ↔ a' = b') ∧
      ∀ m, r = some m → ∃ M, ∀ n ≥ M, st.unifyWith n m a b = .ok (some m) := by
  have hI := unifying_singleton hs ha hb
  obtain ⟨σ, -, hσ⟩ := hs.exists_instantiation hty
  obtain ⟨A, hA, -⟩ := id ha
  obtain ⟨B, hB, -⟩ := id hb
  obtain ⟨a', st₁, hra, hst₁, ha'⟩ :=
    Subst.yields_replace hs.resolvable hσ hA (extends_refl st)
  obtain ⟨b', st₂, hrb, hst₂, hb'⟩ := Subst.yields_replace hs.resolvable hσ hB hst₁
  replace ha' := denotes_of_extends hst₂ ha'
  obtain ⟨N, r, hN, -⟩ := hI.ends
  refine ⟨a', st₁, b', st₂, N, r, hra, hrb, hN, ?_, ?_⟩
  · constructor
    · -- the resolution agrees with the chain, and so with the answer, which solves the equation
      rintro rfl
      obtain ⟨W, hAW, hBW⟩ :=
        ((hI.respects_iff (hN N le_rfl)).2 _).mp hσ.respects |>.2 _ List.mem_cons_self
      rw [← hAW.unique ⟨A, hA, rfl⟩, hBW.unique ⟨B, hB, rfl⟩] at ha'
      exact denotes_inj ha' hb'
    · rintro rfl
      have holds : st.Holds σ.image (a, b) :=
        ⟨_, ⟨A, hA, rfl⟩, B, hB, denotes_unique hb' ha'⟩
      obtain ⟨M, hM⟩ := hI.solve_eq_self hσ ⟨hσ.respects, List.forall_mem_singleton.mpr holds⟩
      have hlast := (hN _ (le_max_left N M)).symm.trans (hM _ (le_max_right N M))
      exact Except.ok.inj hlast
  · rintro m rfl
    exact TypedUnifying.solve_again ⟨hI, hty⟩ (hN N le_rfl)

/-- Under `x ↦ g(y)` the terms `f(x, z)` and `f(g(a), x)` are not replaced
by one term, and two bindings are added. Under the chain with these
bindings nothing more is. -/
theorem unifyWith_adds_nothing_iff_sample :
    sample.Admissible sampleChain ∧ sample.KeepsTypes sampleChain ∧
      sample.unifyWith 20 sampleChain ⟨8⟩ ⟨9⟩ = .ok (some sampleAnswer) ∧
      ∃ a' st₁ b' st₂ N r, (sampleChain.replace ⟨8⟩).on sample = (.ok a', st₁) ∧
        (sampleChain.replace ⟨9⟩).on st₁ = (.ok b', st₂) ∧
        (∀ n ≥ N, sample.unifyWith n sampleChain ⟨8⟩ ⟨9⟩ = .ok r) ∧
        (r = some sampleChain ↔ a' = b') ∧
        ∀ m, r = some m → ∃ M, ∀ n ≥ M, sample.unifyWith n m ⟨8⟩ ⟨9⟩ = .ok (some m) :=
  have hs := respects_sampleChain_iff.1
  ⟨hs, keepsTypes_sampleChain, rfl,
    unifyWith_adds_nothing_iff hs keepsTypes_sampleChain (by decide) (by decide)⟩

end TypedTerms.TermStore

/-!
## Later bindings refine the earlier ones

A chain refines another one when it has bindings put in front of it, of
terms that the other one leaves free. Nothing that was bound is hidden
then, so what agrees with the new chain agrees with the old one, and
replacing along the new one absorbs replacing along the old one.

A call of unification refines the chain that it is given
(`Unifying.refines`). A term may therefore be instantiated after every
call, along what the call has answered, or once after the last one
(`InSteps.instantiates`).
-/

namespace TypedTerms

variable {s m m' : Subst} {x v : TermId}

/-- The first chain is the second with bindings put in front, of terms
that the second leaves free. -/
def Subst.Refines (m s : Subst) : Prop :=
  ∃ frames, m.bindings = frames ++ s.bindings ∧ ∀ b ∈ frames, s.get? b.1 = none

namespace Subst

theorem Refines.refl (s : Subst) : s.Refines s := ⟨[], rfl, fun _ hb => nomatch hb⟩

/-- What a chain binds is bound the same in every chain that refines it. -/
theorem Refines.get? (h : m.Refines s) (hv : s.get? x = some v) : m.get? x = some v := by
  obtain ⟨frames, heq, hfree⟩ := h
  have hnew : frames.lookup x = none := by
    rw [List.lookup_eq_none_iff]
    rintro ⟨k, w⟩ hb
    rw [bne_iff_ne]
    rintro rfl
    cases hv.symm.trans (hfree _ hb)
  rw [Subst.get?, heq, List.lookup_append, hnew]
  exact hv

/-- A chain still refines another one with a binding more of a free term. -/
theorem Refines.bind (h : m.Refines s) (free : m.get? x = none) (v : TermId) :
    (m.bind x v).Refines s := by
  have hx : s.get? x = none := by
    cases hw : s.get? x with
    | none => rfl
    | some w => cases free.symm.trans (h.get? hw)
  obtain ⟨frames, heq, hfree⟩ := h
  refine ⟨(x, v) :: frames, ?_, List.forall_mem_cons.mpr ⟨hx, hfree⟩⟩
  rw [Subst.bind, heq, List.cons_append]

end Subst

namespace TermStore

open Subst Build

variable {st st' : TermStore} {t t₁ t₂ r : TermId} {l : Leaf} {V : Tree} {θ : Leaf → Tree}
  {pending rest new : List Equation} {n : Nat}

/-- A leaf is bound to the same tree along a chain that refines. -/
theorem Binds.of_refines (h : m.Refines s) (hb : st.Binds s l V) : st.Binds m l V :=
  have ⟨x, v, hx, hv, hV⟩ := hb
  ⟨x, v, hx, h.get? hv, hV⟩

/-- What agrees with a chain agrees with every chain that it refines. -/
theorem Respects.of_refines (h : m.Refines s) (hθ : st.Respects m θ) : st.Respects s θ :=
  fun _ _ hb => hθ (hb.of_refines h)

/-- If a chain can be followed to its end, so can every chain that it
refines. -/
theorem Resolvable.of_refines (h : m.Refines s) (hm : st.Resolvable m) : st.Resolvable s where
  key_leaf _ _ hv := hm.key_leaf (h.get? hv)
  value_denotes _ _ hv := hm.value_denotes (h.get? hv)
  acyclic := hm.acyclic.of_binds fun _ _ hV => hV.of_refines h

/-! ### Calls of unification -/

/-- A state of a run that began with the chain. -/
structure Refining (st : TermStore) (s₀ s : Subst) (pending : List Equation) : Prop where
  unifying : st.Unifying s pending
  refines : s.Refines s₀

/-- Every application of the rule leaves such a state, since it binds free
variables only. -/
theorem Refining.step {s₀ s' : Subst} {a b : TermId} (h : st.Refining s₀ s ((a, b) :: rest))
    (hr : st.unifyRule s a b = .ok (some (s', new))) : st.Refining s₀ s' (new ++ rest) := by
  have hstep := h.unifying.unifyStep hr
  have hunifying := hstep.unifying h.unifying
  rcases hstep.chain with rfl | ⟨x, v, rfl, hbind, -⟩
  · exact ⟨hunifying, h.refines⟩
  · exact ⟨hunifying, h.refines.bind hbind.free v⟩

/-- What a run answers refines the chain that it began with. -/
theorem Unifying.refines (h : st.Unifying s pending)
    (hm : st.unifyRule.solve n s pending = .ok (some m)) : st.Admissible m ∧ m.Refines s :=
  have hend : st.Refining s m [] :=
    Rule.invariant_of_solve (I := st.Refining s) Refining.step ⟨h, .refl s⟩ hm
  ⟨hend.unifying.admissible, hend.refines⟩

theorem Admissible.of_extends (h : st.Admissible s) (hst : st.Extends st') : st'.Admissible s where
  key_var _ _ hv :=
    have ⟨l, hl, hvar⟩ := h.key_var hv
    ⟨l, hst hl, hvar⟩
  value_wf _ _ hv := (h.value_wf hv).of_extends hst
  acyclic := h.resolvable.acyclic_of_extends hst

/-- What a term has become, being replaced along the chain that a row of
calls began with, and after each call along the chain that the call has
answered. Between the calls terms may be made. -/
inductive InSteps (t : TermId) : TermStore → Subst → TermId → Prop where
  | start {st st' : TermStore} {s : Subst} {T : Tree} {r : TermId} (hs : st.Admissible s)
    (hT : st.Denotes t T) (hr : (s.replace t).on st = (.ok r, st')) : InSteps t st' s r
  | grow {st st' : TermStore} {m : Subst} {r : TermId} (h : InSteps t st m r)
    (hst : st.Extends st') : InSteps t st' m r
  | call {st st' : TermStore} {m m' : Subst} {r q t₁ t₂ : TermId} {n : Nat}
    (h : InSteps t st m r) (h₁ : st.WellFormed t₁) (h₂ : st.WellFormed t₂)
    (hm : st.unifyWith n m t₁ t₂ = .ok (some m')) (hq : (m'.replace r).on st = (.ok q, st')) :
    InSteps t st' m' q

/-- The term stands for the tree under the resolution of the chain. -/
def Instantiates (st : TermStore) (m : Subst) (t r : TermId) : Prop :=
  ∃ T μ, st.Denotes t T ∧ st.Resolves m μ ∧ st.Denotes r (T.subst μ)

/-- An instantiated term is so in every later store. -/
theorem Instantiates.of_extends (h : st.Instantiates m t r) (hm : st.Resolvable m)
    (hst : st.Extends st') : st'.Instantiates m t r :=
  have ⟨T, μ, hT, hμ, hr⟩ := h
  ⟨T, μ, denotes_of_extends hst hT, hμ.of_extends hm hst, denotes_of_extends hst hr⟩

/-- Replacing along a chain instantiates a term. -/
theorem Resolvable.instantiates {T : Tree} (hs : st.Resolvable s) (hT : st.Denotes t T) :
    ∃ r st', (s.replace t).on st = (.ok r, st') ∧ st.Extends st' ∧ st'.Instantiates s t r := by
  obtain ⟨σ, hσ⟩ := hs.acyclic.exists_resolves
  obtain ⟨r, st', hr, hst, hrT⟩ := yields_replace hs hσ hT (extends_refl st)
  exact ⟨r, st', hr, hst, T, σ, denotes_of_extends hst hT, hσ.of_extends hs hst, hrT⟩

/-- Instantiating along a finer chain what was instantiated before comes
to instantiating along the finer chain. -/
theorem Instantiates.refine (h : st.Instantiates s t r) (hm : st.Resolvable m)
    (href : m.Refines s) :
    ∃ q st', (m.replace r).on st = (.ok q, st') ∧ st.Extends st' ∧ st'.Instantiates m t q := by
  obtain ⟨T, σ, hT, hσ, hr⟩ := h
  obtain ⟨μ, hμ⟩ := hm.acyclic.exists_resolves
  obtain ⟨q, st', hq, hst, hqT⟩ := yields_replace hm hμ hr (extends_refl st)
  -- `μ` agrees with the older chain too, so `σ` before it makes no difference
  rw [hσ.subst_subst (hm.of_refines href).acyclic (hμ.respects.of_refines href)] at hqT
  exact ⟨q, st', hq, hst, T, μ, denotes_of_extends hst hT, hμ.of_extends hm hst, hqT⟩

/-- What a term is instantiated to is what replacing answers for it. -/
theorem Instantiates.answers (h : st.Instantiates m t r) (hm : st.Resolvable m) :
    ∃ st', (m.replace t).on st = (.ok r, st') := by
  obtain ⟨T, μ, hT, hμ, hr⟩ := h
  obtain ⟨q, st', hq, hst, hqT⟩ := yields_replace hm hμ hT (extends_refl st)
  have hqr : q = r := denotes_inj hqT (denotes_of_extends hst hr)
  exact ⟨st', hqr ▸ hq⟩

/-- Instantiated after every call, a term is instantiated along the chain of
the last one. -/
theorem InSteps.instantiates (h : InSteps t st m r) :
    st.Admissible m ∧ st.Instantiates m t r := by
  induction h with
  | start hs hT hr =>
    obtain ⟨r, st', hr', hst, hinst⟩ := hs.resolvable.instantiates hT
    cases hr.symm.trans hr'
    exact ⟨hs.of_extends hst, hinst⟩
  | grow _ hst ih => exact ⟨ih.1.of_extends hst, ih.2.of_extends ih.1.resolvable hst⟩
  | call _ h₁ h₂ hm hq ih =>
    obtain ⟨hadm, hinst⟩ := ih
    obtain ⟨hadm', href⟩ := (unifying_singleton hadm h₁ h₂).refines hm
    obtain ⟨q, st', hq', hst, hinst'⟩ := hinst.refine hadm'.resolvable href
    cases hq.symm.trans hq'
    exact ⟨hadm'.of_extends hst, hinst'⟩

theorem WellFormed.unfolds (h : st.WellFormed t) : st.Unfolds t :=
  have ⟨T, hT, _⟩ := h
  ⟨T, hT⟩

/-- Later bindings only refine the earlier ones. Replacing along a chain
that refines another one makes the same of a term and of what replacing
along the other one has made of it. So a term that is replaced step by
step, along each of the chains that a row of calls of unification
answers, becomes what it is replaced by once at the end; and after each
further call the next step answers. -/
theorem replace_replace_of_refines :
    (∀ (st : TermStore) (s m : Subst), st.Resolvable m → m.Refines s →
        st.Absorbs m.replace s.replace) ∧
      ∀ (t : TermId) (st : TermStore) (m : Subst) (r : TermId), InSteps t st m r →
        (∃ st', (m.replace t).on st = (.ok r, st')) ∧
          ∀ n t₁ t₂ m', st.WellFormed t₁ → st.WellFormed t₂ →
            st.unifyWith n m t₁ t₂ = .ok (some m') →
            ∃ q st', (m'.replace r).on st = (.ok q, st') ∧ InSteps t st' m' q := by
  constructor
  · intro st s m hm href
    exact hm.absorbs (hm.of_refines href) fun _ hθ => hθ.of_refines href
  · intro t st m r h
    obtain ⟨hadm, hinst⟩ := h.instantiates
    refine ⟨hinst.answers hadm.resolvable, ?_⟩
    intro n t₁ t₂ m' h₁ h₂ hm
    obtain ⟨hadm', href⟩ := (unifying_singleton hadm h₁ h₂).refines hm
    obtain ⟨q, st', hq, -⟩ := hinst.refine hadm'.resolvable href
    exact ⟨q, st', hq, h.call h₁ h₂ hm hq⟩

/-- Under `x ↦ g(y)` the term `f(x, z)` becomes `f(g(y), z)`. When
`f(x, z)` and `f(g(a), x)` are unified then, that becomes what `f(x, z)`
would have become in the first place. -/
theorem replace_replace_of_refines_sample :
    sample.Absorbs sampleAnswer.replace sampleChain.replace ∧
      ∃ st r q st', InSteps ⟨8⟩ st sampleChain r ∧
        st.unifyWith 20 sampleChain ⟨8⟩ ⟨9⟩ = .ok (some sampleAnswer) ∧
        (sampleAnswer.replace r).on st = (.ok q, st') ∧
        ∃ st'', (sampleAnswer.replace ⟨8⟩).on st' = (.ok q, st'') := by
  obtain ⟨absorbs, steps⟩ := replace_replace_of_refines
  have hs := respects_sampleChain_iff.1
  have h8 : sample.WellFormed ⟨8⟩ := by decide
  have h9 : sample.WellFormed ⟨9⟩ := by decide
  constructor
  · refine absorbs _ _ _ ?_ ⟨[(⟨2⟩, ⟨6⟩), (⟨1⟩, ⟨3⟩)], rfl, by decide⟩
    exact reachable_sampleAnswer.regular.admissible.resolvable
  · have hx : sample.Unfolds ⟨0⟩ := ⟨_, denotes_leaf_iff.mpr rfl⟩
    have hg : sample.WellFormed ⟨6⟩ := by decide
    have hknown : sample.KnowsChain sampleChain :=
      List.forall_mem_singleton.mpr ⟨hx, hg.unfolds⟩
    obtain ⟨r, st, hr, hst, -⟩ := hs.resolvable.instantiates h8.choose_spec.1
    have hstart : InSteps ⟨8⟩ st sampleChain r := .start hs h8.choose_spec.1 hr
    have hm : st.unifyWith 20 sampleChain ⟨8⟩ ⟨9⟩ = .ok (some sampleAnswer) :=
      unifyWith_eq_of_extends hst hknown h8.unfolds h9.unfolds 20
    obtain ⟨q, st', hq, hnext⟩ := (steps _ _ _ _ hstart).2 20 ⟨8⟩ ⟨9⟩ sampleAnswer
      (h8.of_extends hst) (h9.of_extends hst) hm
    exact ⟨st, r, q, st', hstart, hm, hq, (steps _ _ _ _ hnext).1⟩

end TermStore

end TypedTerms
