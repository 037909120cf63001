import TypedTerms.Proofs.Replace
import TypedTerms.Proofs.Unify.Solutions

/-!
# Unification is correct

The maps that agree with the bindings of the answer are the solutions of
the state that the run began with (`Unifying.respects_iff`). Two results
follow. The answer makes the terms equal, because its own resolution
agrees with it (`unifyWith_sound`). And it is most general: when some map
that keeps types makes the terms equal, the run answers bindings, and the
map does not tell a term from what replacing makes of it
(`unifyWith_mostGeneral`). Whether there is such a map or not, the run
ends (`unifyWith_ends`).
-/

namespace TypedTerms.TermStore

variable {st : TermStore} {s m : Subst} {t₁ t₂ : TermId} {pending : List Equation} {n : Nat}

/-- Unifying two well-formed terms may begin from any admissible chain. -/
theorem unifying_singleton (hs : st.Admissible s) (h₁ : st.WellFormed t₁)
    (h₂ : st.WellFormed t₂) : st.Unifying s [(t₁, t₂)] :=
  ⟨hs, List.forall_mem_singleton.mpr ⟨h₁, h₂⟩⟩

/-- The state has the solutions of the state that the run began with. -/
structure Continues (st : TermStore) (s₀ : Subst) (pending₀ : List Equation) (s : Subst)
    (pending : List Equation) : Prop where
  unifying : st.Unifying s pending
  solves_iff : ∀ θ, st.Solves s pending θ ↔ st.Solves s₀ pending₀ θ

/-- No application of the rule loses or adds a solution. -/
theorem Continues.step {s₀ s' : Subst} {pending₀ rest new : List Equation} {a b : TermId}
    (h : st.Continues s₀ pending₀ s ((a, b) :: rest))
    (hr : st.unifyRule s a b = .ok (some (s', new))) :
    st.Continues s₀ pending₀ s' (new ++ rest) := by
  obtain ⟨hI, hsol⟩ := h
  have hstep := hI.unifyStep hr
  exact ⟨hstep.unifying hI, fun θ => (hstep.solves_iff hI).trans (hsol θ)⟩

/-- What a run answers is admissible, and the maps that agree with it are
the solutions of the state that the run began with. -/
theorem Unifying.respects_iff (h : st.Unifying s pending)
    (hm : st.unifyRule.solve n s pending = .ok (some m)) :
    st.Admissible m ∧ ∀ θ, st.Respects m θ ↔ st.Solves s pending θ := by
  have hend : st.Continues s pending m [] :=
    Rule.invariant_of_solve (I := st.Continues s pending) Continues.step ⟨h, fun _ => Iff.rfl⟩ hm
  refine ⟨hend.unifying.admissible, ?_⟩
  intro θ
  rw [← hend.solves_iff θ, Solves]
  exact (and_iff_left fun e he => absurd he List.not_mem_nil).symm

/-- A run that answers nothing began where there is no solution that
keeps types. -/
theorem Unifying.not_solves (h : st.Unifying s pending)
    (hm : st.unifyRule.solve n s pending = .ok none) (η : Instantiation) :
    ¬ st.Solves s pending η.image := by
  obtain ⟨s', a, b, rest, hC, hr⟩ :=
    Rule.invariant_of_solve_none (I := st.Continues s pending) Continues.step
      ⟨h, fun _ => Iff.rfl⟩ hm
  rw [← hC.solves_iff]
  exact (hC.unifying.unifyStep hr).not_solves hC.unifying

/-- Terms that every map agreeing with the chain makes equal are replaced
by one term. -/
theorem Resolvable.replace_eq (hs : st.Resolvable s)
    (h : ∀ θ, st.Respects s θ → st.Holds θ (t₁, t₂)) :
    ∃ r st₁ st₂, (s.replace t₁).on st = (.ok r, st₁) ∧ (s.replace t₂).on st₁ = (.ok r, st₂) := by
  obtain ⟨σ, hσ⟩ := hs.acyclic.exists_resolves
  obtain ⟨W, ⟨T₁, hT₁, h₁⟩, ⟨T₂, hT₂, h₂⟩⟩ := h σ hσ.respects
  have hleft := Subst.yields_replace hs hσ hT₁ (extends_refl st)
  rw [h₁] at hleft
  apply hleft.answers_same
  intro st' hst
  have hright := Subst.yields_replace hs hσ hT₂ hst
  rwa [h₂] at hright

/-- Unification is sound: under the bindings that it answers, both terms
are replaced to the end, and by the same term. -/
theorem unifyWith_sound (hs : st.Admissible s) (h₁ : st.WellFormed t₁) (h₂ : st.WellFormed t₂)
    (hm : st.unifyWith n s t₁ t₂ = .ok (some m)) :
    ∃ r st₁ st₂, (m.replace t₁).on st = (.ok r, st₁) ∧ (m.replace t₂).on st₁ = (.ok r, st₂) := by
  obtain ⟨hadm, hiff⟩ := (unifying_singleton hs h₁ h₂).respects_iff hm
  apply hadm.resolvable.replace_eq
  intro θ hθ
  exact ((hiff θ).mp hθ).2 _ List.mem_cons_self

/-- The chain `x ↦ g(y)`. -/
def sampleChain : Subst := ⟨[(⟨0⟩, ⟨6⟩)]⟩

/-- The chain `z ↦ g(y), y ↦ a, x ↦ g(y)`. -/
def sampleAnswer : Subst := ⟨[(⟨2⟩, ⟨6⟩), (⟨1⟩, ⟨3⟩), (⟨0⟩, ⟨6⟩)]⟩

theorem unifying_sample : sample.Unifying .empty [(⟨0⟩, ⟨6⟩)] :=
  unifying_singleton (admissible_empty sample) (by decide) (by decide)

/-- The chain is what unifying `x` and `g(y)` answers. -/
theorem respects_sampleChain_iff : sample.Admissible sampleChain ∧
    ∀ θ, sample.Respects sampleChain θ ↔ sample.Solves .empty [(⟨0⟩, ⟨6⟩)] θ :=
  unifying_sample.respects_iff (n := 1) rfl

/-- Under `x ↦ g(y)` the terms `f(x, z)` and `f(g(a), x)` are unified. -/
theorem unifyWith_sound_sample :
    sample.unifyWith 20 sampleChain ⟨8⟩ ⟨9⟩ = .ok (some sampleAnswer) ∧
      ∃ r st₁ st₂, (sampleAnswer.replace ⟨8⟩).on sample = (.ok r, st₁) ∧
        (sampleAnswer.replace ⟨9⟩).on st₁ = (.ok r, st₂) :=
  ⟨rfl, unifyWith_sound (n := 20) respects_sampleChain_iff.1 (by decide) (by decide) rfl⟩

/-- A map that agrees with the chain makes the same of a term and of what
replacing makes of it. -/
theorem Resolvable.replace_becomes {θ : Leaf → Tree} {u : TermId} (hs : st.Resolvable s)
    (hθ : st.Respects s θ) (hu : st.WellFormed u) :
    ∃ r st' W, (s.replace u).on st = (.ok r, st') ∧ st.Becomes θ u W ∧ st'.Becomes θ r W := by
  obtain ⟨σ, hσ⟩ := hs.acyclic.exists_resolves
  obtain ⟨U, hU, -⟩ := hu
  obtain ⟨r, st', hr, -, hrU⟩ := Subst.yields_replace hs hσ hU (extends_refl st)
  exact ⟨r, st', U.subst θ, hr, ⟨U, hU, rfl⟩, _, hrU, hσ.subst_subst hs.acyclic hθ U⟩

/-- Unification is complete and most general. Let some map that keeps
types and agrees with the bindings of `s` make the terms equal. Then
unification answers bindings, given steps enough, and never nothing; and
the map makes the same of any term and of what replacing makes of it. -/
theorem unifyWith_mostGeneral (hs : st.Admissible s) (h₁ : st.WellFormed t₁)
    (h₂ : st.WellFormed t₂) (η : Instantiation) (hη : st.Respects s η.image)
    (heq : st.Holds η.image (t₁, t₂)) :
    (∃ N m, ∀ n ≥ N, st.unifyWith n s t₁ t₂ = .ok (some m)) ∧
      (∀ n, st.unifyWith n s t₁ t₂ ≠ .ok none) ∧
      ∀ n m, st.unifyWith n s t₁ t₂ = .ok (some m) → ∀ u, st.WellFormed u →
        ∃ r st' W, (m.replace u).on st = (.ok r, st') ∧ st.Becomes η.image u W ∧
          st'.Becomes η.image r W := by
  have hI := unifying_singleton hs h₁ h₂
  have hsol : st.Solves s [(t₁, t₂)] η.image := ⟨hη, List.forall_mem_singleton.mpr heq⟩
  have hsome : ∀ n, st.unifyWith n s t₁ t₂ ≠ .ok none := by
    intro n hn
    exact hI.not_solves hn η hsol
  refine ⟨?_, hsome, ?_⟩
  · obtain ⟨N, r, hN, -⟩ := hI.ends
    cases r with
    | none => exact absurd (hN N le_rfl) (hsome N)
    | some m => exact ⟨N, m, hN⟩
  · intro n m hm u hu
    obtain ⟨hadm, hiff⟩ := hI.respects_iff hm
    exact hadm.resolvable.replace_becomes ((hiff _).mpr hsol) hu

/-- The map `y ↦ a, x ↦ g(a), z ↦ g(a)`. -/
def sampleMap : Nat → Ty → Tree
  | 1, .individual => .leaf (.global 3 ⟨0⟩ .individual)
  | 0, .individual | 2, .individual =>
    .app .call (.leaf (.function 4 ⟨1⟩ .individual [.individual]))
      [.leaf (.global 3 ⟨0⟩ .individual)]
  | id, A => .leaf (.var id A)

/-- The map as an instantiation. -/
def sampleInstantiation : Instantiation :=
  .ofVar sampleMap fun id A => by unfold sampleMap; split <;> rfl

/-- Under the map both calls become `g(a)`. -/
theorem becomes_sample (x : TermId) (hx : x = ⟨6⟩ ∨ x = ⟨7⟩) :
    sample.Becomes sampleInstantiation.image x (sampleMap 0 .individual) := by
  rcases hx with rfl | rfl
  all_goals
    refine (becomes_app_iff rfl).mpr ⟨_, _, rfl, ?_⟩
    exact .cons ((becomes_leaf_iff rfl).mpr rfl) (.cons ((becomes_leaf_iff rfl).mpr rfl) .nil)

theorem respects_sampleChain : sample.Respects sampleChain sampleInstantiation.image := by
  refine (respects_sampleChain_iff.2 _).mpr ⟨fun _ _ h => absurd h not_binds_empty, ?_⟩
  refine List.forall_mem_singleton.mpr ⟨_, (becomes_leaf_iff rfl).mpr rfl, ?_⟩
  exact becomes_sample ⟨6⟩ (.inl rfl)

theorem holds_sample : sample.Holds sampleInstantiation.image (⟨8⟩, ⟨9⟩) := by
  have hleaf : ∀ {x l W}, sample.node? x = some (.leaf l) → sampleInstantiation.image l = W →
      sample.Becomes sampleInstantiation.image x W :=
    fun hx hl => (becomes_leaf_iff hx).mpr hl
  refine ⟨.app .call (.leaf (.function 5 ⟨2⟩ .individual [.individual, .individual]))
    [sampleMap 2 .individual, sampleMap 0 .individual], ?_, ?_⟩
  all_goals refine (becomes_app_iff rfl).mpr ⟨_, _, rfl, ?_⟩
  · exact .cons (hleaf rfl rfl) (.cons (hleaf rfl rfl) (.cons (hleaf rfl rfl) .nil))
  · exact .cons (hleaf rfl rfl) (.cons (becomes_sample ⟨7⟩ (.inr rfl)) (.cons (hleaf rfl rfl) .nil))

/-- The map makes one tree of `f(x, z)` and `f(g(a), x)`, so the answer
for them says no more than the map does. -/
theorem unifyWith_mostGeneral_sample :
    (∀ n, sample.unifyWith n sampleChain ⟨8⟩ ⟨9⟩ ≠ .ok none) ∧
      ∃ r st' W, (sampleAnswer.replace ⟨8⟩).on sample = (.ok r, st') ∧
        sample.Becomes sampleInstantiation.image ⟨8⟩ W ∧
        st'.Becomes sampleInstantiation.image r W :=
  have h := unifyWith_mostGeneral respects_sampleChain_iff.1 (by decide) (by decide)
    sampleInstantiation respects_sampleChain holds_sample
  ⟨h.2.1, h.2.2 20 sampleAnswer rfl ⟨8⟩ (by decide)⟩

/-- Unification always ends: it takes some number of steps, after which
it answers bindings or nothing, and is cut short only when it is given
fewer. No type, no children and no occurrence is asked for where there
is none to be had. -/
theorem unifyWith_ends (hs : st.Admissible s) (h₁ : st.WellFormed t₁) (h₂ : st.WellFormed t₂) :
    ∃ N r, (∀ n ≥ N, st.unifyWith n s t₁ t₂ = .ok r) ∧
      ∀ n < N, st.unifyWith n s t₁ t₂ = .error .endless :=
  (unifying_singleton hs h₁ h₂).ends

/-- Under the chain the two terms are unified in some number of steps, or
found not to be, and fewer steps are not enough. -/
theorem unifyWith_ends_sample :
    sample.Admissible sampleChain ∧ sample.WellFormed ⟨8⟩ ∧ sample.WellFormed ⟨9⟩ ∧
      ∃ N r, (∀ n ≥ N, sample.unifyWith n sampleChain ⟨8⟩ ⟨9⟩ = .ok r) ∧
        ∀ n < N, sample.unifyWith n sampleChain ⟨8⟩ ⟨9⟩ = .error .endless :=
  have hs := respects_sampleChain_iff.1
  ⟨hs, by decide, by decide, unifyWith_ends hs (by decide) (by decide)⟩

end TypedTerms.TermStore

/-!
## Resolutions that keep types

A chain whose keys have the types of their values resolves to a map that
keeps types (`Admissible.exists_instantiation`). Unification leads from
such a chain to such a chain, so what it answers resolves to a solution
that keeps types. With the converse, that it refuses only what has none,
this says when it succeeds, by the equations alone
(`TypedUnifying.isSome_iff`).
-/

namespace TypedTerms.TermStore

variable {st : TermStore} {s m : Subst} {l : Leaf} {V : Tree} {x v : TermId}
  {pending : List Equation} {n : Nat}

/-- Every key has the type of its value. -/
def KeepsTypes (st : TermStore) (s : Subst) : Prop :=
  ∀ ⦃x v⦄, s.get? x = some v → st.ty x = st.ty v

theorem keepsTypes_empty (st : TermStore) : st.KeepsTypes .empty := fun _ _ hv => nomatch hv

/-- A chain keeps types with one more binding that does. -/
theorem KeepsTypes.bind (h : st.KeepsTypes s) (hty : st.ty x = st.ty v) :
    st.KeepsTypes (s.bind x v) :=
  Subst.forall_get?_bind hty h

theorem keepsTypes_sampleChain : sample.KeepsTypes sampleChain :=
  (keepsTypes_empty sample).bind (x := ⟨0⟩) (v := ⟨6⟩) rfl

/-- A leaf is bound to a tree of its type. -/
theorem KeepsTypes.ty_of_binds (h : st.KeepsTypes s) (hV : st.Binds s l V) : V.ty = .ok l.ty := by
  obtain ⟨x, v, hx, hv, hV⟩ := hV
  rw [← ty_of_denotes hV, ← h hv, ty_of_denotes (denotes_leaf_iff.mpr hx)]
  rfl

/-- A leaf is bound to a well-formed tree. -/
theorem Admissible.wellFormed_of_binds (hs : st.Admissible s) (hV : st.Binds s l V) :
    V.WellFormed := by
  obtain ⟨x, v, -, hv, hV⟩ := hV
  obtain ⟨W, hW, hwf⟩ := hs.value_wf hv
  rwa [denotes_unique hV hW]

/-- The resolution of an admissible chain moves variables only. -/
theorem Resolves.fixed {σ : Leaf → Tree} (hσ : st.Resolves s σ) (hs : st.Admissible s)
    (hl : l.isVar = false) : σ l = .leaf l := by
  apply hσ.free
  intro V hV
  rw [hs.isVar_of_binds hV] at hl
  cases hl

/-- The resolution of an admissible chain that keeps types is a map of
variables that keeps types. -/
theorem Admissible.exists_instantiation (hs : st.Admissible s) (hty : st.KeepsTypes s) :
    ∃ σ : Instantiation, σ.WellFormed ∧ st.Resolves s σ.image := by
  obtain ⟨σ, hσ⟩ := hs.acyclic.exists_resolves
  have fixed : ∀ l, l.isVar = false → σ l = .leaf l := fun _ => hσ.fixed hs
  have himage : ∀ l, (σ l).WellFormed ∧ (σ l).ty = .ok l.ty := by
    refine hσ.induct hs.acyclic (P := fun l T => T.WellFormed ∧ T.ty = .ok l.ty) ?_
      fun l _ => ⟨.leaf l, rfl⟩
    intro l V hV ih
    have hwf := hs.wellFormed_of_binds hV
    rw [hwf.ty_subst fixed fun k hk => (ih k hk).2]
    exact ⟨hwf.subst fixed fun k hk => (ih k hk).1, hty.ty_of_binds hV⟩
  exact ⟨⟨σ, fixed, fun l => (himage l).2⟩, fun l => (himage l).1, hσ⟩

/-- A state of unification whose chain keeps types. -/
structure TypedUnifying (st : TermStore) (s : Subst) (pending : List Equation) : Prop where
  unifying : st.Unifying s pending
  keepsTypes : st.KeepsTypes s

/-- Every application of the rule leaves such a state, since it compares
types before it binds. -/
theorem TypedUnifying.step {a b : TermId} {s' : Subst} {new rest : List Equation}
    (h : st.TypedUnifying s ((a, b) :: rest))
    (hr : st.unifyRule s a b = .ok (some (s', new))) : st.TypedUnifying s' (new ++ rest) := by
  have hstep := h.unifying.unifyStep hr
  refine ⟨hstep.unifying h.unifying, ?_⟩
  rcases hstep.chain with rfl | ⟨x, v, rfl, hbind, -⟩
  · exact h.keepsTypes
  · exact h.keepsTypes.bind hbind.ty_eq

/-- What a run answers keeps types, if the chain that it began with does. -/
theorem TypedUnifying.keepsTypes_of_solve (h : st.TypedUnifying s pending)
    (hm : st.unifyRule.solve n s pending = .ok (some m)) : st.KeepsTypes m := by
  have hend : st.TypedUnifying m [] :=
    Rule.invariant_of_solve (I := st.TypedUnifying) TypedUnifying.step h hm
  exact hend.keepsTypes

/-- A run answers bindings when the equations have a solution that keeps
types. -/
theorem TypedUnifying.isSome_iff {r : Option Subst} (h : st.TypedUnifying s pending)
    (hr : st.unifyRule.solve n s pending = .ok r) :
    r.isSome = true ↔ ∃ η : Instantiation, η.WellFormed ∧ st.Solves s pending η.image := by
  cases r with
  | none =>
    refine iff_of_false Bool.false_ne_true ?_
    rintro ⟨η, -, hη⟩
    exact h.unifying.not_solves hr η hη
  | some m =>
    obtain ⟨hadm, hiff⟩ := h.unifying.respects_iff hr
    obtain ⟨μ, hwf, hμ⟩ := hadm.exists_instantiation (h.keepsTypes_of_solve hr)
    exact iff_of_true rfl ⟨μ, hwf, (hiff _).mp hμ.respects⟩

end TypedTerms.TermStore
