import TypedTerms.Proofs.Match.Sound
import TypedTerms.Proofs.Renaming
import TypedTerms.Proofs.Unify.Correct

/-!
# What matches unifies

Matching is unification with one side held fast. Where pattern and target
have no variable in common, what matching answers makes them equal, so
they are unified as well, by bindings that are no more special
(`unify_of_matchTerms`).

The two chains differ. Unification may bind a variable of the target,
which matching never does. But matching takes back whatever unification
makes of the target, and what can be taken back is a renaming: every
variable of the target becomes a variable, and different ones stay
different.
-/

namespace TypedTerms.TermStore

variable {st : TermStore} {s s' m n : Subst} {a b p t x : TermId}
  {pending new rest : List Equation} {θ κ : Leaf → Tree} {P T : Tree} {k : Nat}

/-- Every key is a variable of the pattern, and its value is a part of
the target, of the type of the key. -/
def BindsParts (st : TermStore) (p t : TermId) (s : Subst) : Prop :=
  ∀ ⦃x v⦄, s.get? x = some v →
    st.IsVariable x ∧ st.Subterm x p ∧ st.Subterm v t ∧ st.ty x = st.ty v

/-- A state of matching `p` against `t` from no bindings. -/
structure Matching (st : TermStore) (p t : TermId) (s : Subst) (pending : List Equation) :
    Prop where
  wf : st.AllWellFormed pending
  below : ∀ e ∈ pending, st.Subterm e.1 p ∧ st.Subterm e.2 t
  parts : st.BindsParts p t s

/-- Every application of the rule binds, if anything, a variable of the
pattern to a part of the target. -/
theorem Matching.step (h : st.Matching p t s ((a, b) :: rest))
    (hr : st.matchRule s a b = .ok (some (s', new))) : st.Matching p t s' (new ++ rest) := by
  have hstep := h.wf.matchStep hr
  obtain ⟨hap, hbt⟩ := h.below _ List.mem_cons_self
  refine ⟨hstep.allWellFormed h.wf, hstep.below h.below, ?_⟩
  rcases hstep.chain with rfl | ⟨rfl, hvar, -, hty⟩
  · exact h.parts
  · exact Subst.forall_get?_bind ⟨hvar, hap, hbt, hty⟩ h.parts

/-- What matching answers binds variables of the pattern to parts of the
target. -/
theorem bindsParts_of_matchTerms (hp : st.WellFormed p) (ht : st.WellFormed t)
    (hm : st.matchTerms k p t = .ok (some m)) : st.BindsParts p t m := by
  have hstart : st.Matching p t .empty [(p, t)] :=
    ⟨List.forall_mem_singleton.mpr ⟨hp, ht⟩, List.forall_mem_singleton.mpr ⟨.refl, .refl⟩,
      fun _ _ hv => nomatch hv⟩
  have hend : st.Matching p t m [] :=
    Rule.invariant_of_solve (I := st.Matching p t) Matching.step hstart hm
  exact hend.parts

namespace BindsParts

variable (h : st.BindsParts p t m)

include h

theorem keepsTypes : st.KeepsTypes m := fun _ _ hv => (h hv).2.2.2

/-- From a variable of the pattern the bindings lead to the target, and
from there nowhere. -/
theorem acyclic (apart : st.Apart p t) : st.Acyclic m := by
  intro l circle
  obtain ⟨-, ⟨-, ⟨x, v, hx, hv, -⟩, -⟩, -⟩ := Relation.TransGen.head'_iff.mp circle
  obtain ⟨-, -, W, ⟨y, w, -, hw, hW⟩, hl⟩ := Relation.TransGen.tail'_iff.mp circle
  obtain ⟨z, hz, hsub⟩ := hW.exists_leaf hl
  obtain ⟨hvar, hxp, -⟩ := h hv
  obtain ⟨-, -, hwt, -⟩ := h hw
  rw [node?_inj hz hx] at hsub
  exact apart x hvar hxp (hwt.trans hsub)

/-- Unification could start from such bindings. -/
theorem admissible (apart : st.Apart p t) (ht : st.WellFormed t) : st.Admissible m where
  key_var _ _ hv := (h hv).1
  value_wf _ _ hv := ht.subterm (h hv).2.2.1
  acyclic := h.acyclic apart

/-- Values are parts of the target, where the bindings end. -/
theorem resolves (hθ : st.Attains m θ P t T) : st.Resolves m θ where
  respects l V hV := by
    obtain ⟨x, v, hx, hv, hvV⟩ := id hV
    obtain ⟨U, hU, hleaves⟩ := hθ.target.subterm (h hv).2.2.1
    rw [hθ.agrees hV, Tree.subst_eq_self]
    intro k hk
    rw [denotes_unique hvV hU] at hk
    exact hθ.fixes (hleaves k hk)
  free := hθ.free

end BindsParts

/-- What matching answers makes pattern and target equal. -/
theorem Attains.solves (h : st.Attains m θ P t T) (hP : st.Denotes p P) (hθ : st.Resolves m θ)
    (hm : st.Acyclic m) (hκ : st.Respects m κ) : st.Solves .empty [(p, t)] κ := by
  refine ⟨fun _ _ hV => absurd hV not_binds_empty, List.forall_mem_singleton.mpr ?_⟩
  have heq : T.subst κ = P.subst κ := by
    rw [← h.subst_eq]
    exact hθ.subst_subst hm hκ P
  exact ⟨P.subst κ, ⟨P, hP, rfl⟩, T, h.target, heq⟩

/-! ## Taking a replacement back -/

/-- What a variable is replaced by is a variable of its type, if another
map makes the first variable of it again. -/
theorem exists_renamed {η : Instantiation} {l : Leaf} (hn : st.Admissible n)
    (hη : st.Resolves n η.image) (hm : st.Admissible m) (hθ : st.Resolves m θ)
    (hx : st.node? x = some (.leaf l)) (hvar : l.isVar = true)
    (back : (η.image l).subst θ = .leaf l) :
    ∃ y st', (n.replace x).on st = (.ok y, st') ∧ st.IsVariable y ∧ st.ty y = st.ty x ∧
      st.IsInstance θ (y, x) := by
  cases hl : η.image l with
  | app op first rest =>
    rw [hl, Tree.subst_app] at back
    cases back
  | leaf k =>
    rw [hl, Tree.subst_leaf] at back
    -- the new leaf is a key of `m`, or the old leaf itself
    have hk : st.KnowsVar k := by
      by_cases hbound : ∃ V, st.Binds m k V
      · obtain ⟨V, hV⟩ := hbound
        obtain ⟨y, v, hy, -⟩ := id hV
        exact ⟨y, hy, hm.isVar_of_binds hV⟩
      · rw [hθ.free fun V hV => hbound ⟨V, hV⟩] at back
        cases back
        exact ⟨x, hx, hvar⟩
    obtain ⟨y, hy, hyvar⟩ := hk
    have hyields :=
      Subst.yields_replace hn.resolvable hη (denotes_leaf_iff.mpr hx) (extends_refl st)
    rw [Tree.subst_leaf, hl] at hyields
    obtain ⟨st', hrun, -⟩ := eq_of_yields hyields (denotes_leaf_iff.mpr hy) (extends_refl st)
    refine ⟨y, st', hrun, ⟨k, hy, hyvar⟩, ?_, ?_⟩
    · rw [ty_of_denotes (denotes_leaf_iff.mpr hy), ty_of_denotes (denotes_leaf_iff.mpr hx), ← hl]
      exact η.ty_image l
    · rw [isInstance_leaf_iff hy, back]
      exact denotes_leaf_iff.mpr hx

/-- Replacing along the chain renames the variables of the term. -/
def RenamesVariables (st : TermStore) (n : Subst) (t : TermId) : Prop :=
  ∃ ρ, st.RenamesOn ρ {x | st.IsVariable x ∧ st.Subterm x t} ∧
    ∀ x, st.IsVariable x → st.Subterm x t → ∃ st', (n.replace x).on st = (.ok (ρ x), st')

/-- A chain renames the variables of a term if some other map takes back
what the chain makes of each of its leaves. -/
theorem renamesVariables_of_back {η : Instantiation} (hn : st.Admissible n)
    (hη : st.Resolves n η.image) (hm : st.Admissible m) (hθ : st.Resolves m θ)
    (hT : st.Denotes t T) (back : ∀ l ∈ T.leaves, (η.image l).subst θ = .leaf l) :
    st.RenamesVariables n t := by
  have himage : ∀ x, ∃ y, st.IsVariable x ∧ st.Subterm x t →
      (∃ st', (n.replace x).on st = (.ok y, st')) ∧ st.IsVariable y ∧ st.ty y = st.ty x ∧
        st.IsInstance θ (y, x) := by
    intro x
    by_cases hx : st.IsVariable x ∧ st.Subterm x t
    · obtain ⟨⟨l, hl, hvar⟩, hsub⟩ := hx
      obtain ⟨y, st', hrun, hy⟩ :=
        exists_renamed hn hη hm hθ hl hvar (back l (hT.mem_leaves hl hsub))
      exact ⟨y, fun _ => ⟨⟨st', hrun⟩, hy⟩⟩
    · exact ⟨x, fun hx' => absurd hx' hx⟩
  choose ρ hρ using himage
  refine ⟨ρ, ⟨fun x hx => (hρ x hx).2.1, fun x hx => (hρ x hx).2.2.1, ?_⟩,
    fun x hvar hsub => (hρ x ⟨hvar, hsub⟩).1⟩
  intro x hx y hy hxy
  have hback := (hρ x hx).2.2.2
  rw [hxy] at hback
  exact hback.unique (hρ y hy).2.2.2

/-- What matches unifies. Let pattern and target have no variable in
common, and let matching answer `m`. Then unification answers bindings
`n`, given steps enough. They say no more than `m` does: along `m`, a
term and what replacing along `n` has made of it are replaced by the same
term. In particular `m` makes the target again of what `n` has made of
it, so that `n` only renames the variables of the target. -/
theorem unify_of_matchTerms (hp : st.WellFormed p) (ht : st.WellFormed t) (apart : st.Apart p t)
    (hm : st.matchTerms k p t = .ok (some m)) :
    ∃ N n, (∀ k ≥ N, st.unify k p t = .ok (some n)) ∧ st.Absorbs m.replace n.replace ∧
      (∃ st', ((n.replace >=> m.replace) t).on st = (.ok t, st')) ∧ st.RenamesVariables n t := by
  obtain ⟨P, hP, -⟩ := id hp
  obtain ⟨T, hT, -⟩ := id ht
  have hparts := bindsParts_of_matchTerms hp ht hm
  have hadm := hparts.admissible apart ht
  obtain ⟨θ, hattains⟩ := exists_attains hP hT hp ht apart (keysOutside_empty st t) hm
  have hθ := hparts.resolves hattains
  have hsolves : ∀ κ, st.Respects m κ → st.Solves .empty [(p, t)] κ :=
    fun κ hκ => hattains.solves hP hθ hadm.acyclic hκ
  have hstart : st.TypedUnifying .empty [(p, t)] :=
    ⟨unifying_singleton (admissible_empty st) hp ht, keepsTypes_empty st⟩
  obtain ⟨N, r, hN, -⟩ := hstart.unifying.ends
  have hsome : r.isSome = true := by
    obtain ⟨μ, hwf, hμ⟩ := hadm.exists_instantiation hparts.keepsTypes
    exact (hstart.isSome_iff (hN N le_rfl)).mpr ⟨μ, hwf, hsolves _ hμ.respects⟩
  obtain ⟨n, rfl⟩ := Option.isSome_iff_exists.mp hsome
  obtain ⟨hadmn, hiff⟩ := hstart.unifying.respects_iff (hN N le_rfl)
  obtain ⟨ν, -, hν⟩ := hadmn.exists_instantiation (hstart.keepsTypes_of_solve (hN N le_rfl))
  have hrespects : ∀ κ, st.Respects m κ → st.Respects n κ := fun κ hκ => (hiff κ).mpr (hsolves κ hκ)
  -- `θ` agrees with `n` and leaves the target alone, so it undoes `ν` there
  have back : ∀ l ∈ T.leaves, (ν.image l).subst θ = .leaf l := by
    intro l hl
    rw [hν.subst_leaf hadmn.acyclic (hrespects θ hθ.respects), hattains.fixes hl]
  refine ⟨N, n, hN, hadm.resolvable.absorbs hadmn.resolvable hrespects, ?_, ?_⟩
  · have hboth := (realizes_replace hadmn.resolvable hν).comp
      (realizes_replace hadm.resolvable hθ) (extends_refl st) hT
    rw [Tree.subst_eq_self back] at hboth
    obtain ⟨st', hrun, -⟩ := eq_of_yields hboth hT (extends_refl st)
    exact ⟨st', hrun⟩
  · exact renamesVariables_of_back hadmn hν hadm hθ hT back

/-! ## A target whose variable is renamed -/

/-- A store with the variables `x`, `y` and `z`, the functions `g` and `f`,
and the calls `g(y)`, `f(x, z)` and `f(y, g(y))`, in this order. -/
def renamingSample : TermStore :=
  .ofNodes
    [.leaf (.var 0 .individual), .leaf (.var 1 .individual), .leaf (.var 2 .individual),
      .leaf (.function 3 ⟨1⟩ .individual [.individual]),
      .leaf (.function 4 ⟨2⟩ .individual [.individual, .individual]),
      .app .call ⟨3⟩ [⟨1⟩], .app .call ⟨4⟩ [⟨0⟩, ⟨2⟩], .app .call ⟨4⟩ [⟨1⟩, ⟨5⟩]]
    (by decide) 5

/-- The tree of `f(x, z)`. -/
def renamingPattern : Tree :=
  .app .call (.leaf (.function 4 ⟨2⟩ .individual [.individual, .individual]))
    [.leaf (.var 0 .individual), .leaf (.var 2 .individual)]

/-- The tree of `f(y, g(y))`. -/
def renamingTarget : Tree :=
  .app .call (.leaf (.function 4 ⟨2⟩ .individual [.individual, .individual]))
    [.leaf (.var 1 .individual),
      .app .call (.leaf (.function 3 ⟨1⟩ .individual [.individual])) [.leaf (.var 1 .individual)]]

theorem denotes_renamingPattern : renamingSample.Denotes ⟨6⟩ renamingPattern :=
  ⟨_, _, rfl, rfl, _, _, rfl, rfl, _, _, rfl, rfl, rfl⟩

theorem denotes_renamingTarget : renamingSample.Denotes ⟨7⟩ renamingTarget :=
  ⟨_, _, rfl, rfl, _, _, rfl, rfl, _, _, rfl, ⟨_, _, rfl, rfl, _, _, rfl, rfl, rfl⟩, rfl⟩

/-- Pattern and target have no variable in common. -/
theorem apart_renamingSample : renamingSample.Apart ⟨6⟩ ⟨7⟩ := by
  intro x hvar hp ht
  obtain ⟨l, hx, hl⟩ := hvar
  have hP : l ∈ renamingPattern.leaves := denotes_renamingPattern.mem_leaves hx hp
  have hT : l ∈ renamingTarget.leaves := denotes_renamingTarget.mem_leaves hx ht
  have hno : ∀ l ∈ renamingPattern.leaves, l.isVar = true → l ∉ renamingTarget.leaves := by decide
  exact hno l hP hl hT

/-- Matching `f(x, z)` against `f(y, g(y))` binds `x` to `y` and `z` to
`g(y)`. Unifying the two binds `y` to `x` instead, so the variable of the
target is renamed, at both of its places; with `x` bound to `y` the renamed
target is the target again. -/
theorem unify_of_matchTerms_sample :
    renamingSample.Apart ⟨6⟩ ⟨7⟩ ∧
      renamingSample.matchTerms 20 ⟨6⟩ ⟨7⟩ = .ok (some ⟨[(⟨2⟩, ⟨5⟩), (⟨0⟩, ⟨1⟩)]⟩) ∧
      renamingSample.unify 20 ⟨6⟩ ⟨7⟩ = .ok (some ⟨[(⟨2⟩, ⟨5⟩), (⟨1⟩, ⟨0⟩)]⟩) ∧
      (Subst.replace ⟨[(⟨2⟩, ⟨5⟩), (⟨1⟩, ⟨0⟩)]⟩ ⟨1⟩).on renamingSample = (.ok ⟨0⟩, renamingSample) ∧
      ∃ N n, (∀ k ≥ N, renamingSample.unify k ⟨6⟩ ⟨7⟩ = .ok (some n)) ∧
        renamingSample.Absorbs (Subst.replace ⟨[(⟨2⟩, ⟨5⟩), (⟨0⟩, ⟨1⟩)]⟩) n.replace ∧
        (∃ st', ((n.replace >=> Subst.replace ⟨[(⟨2⟩, ⟨5⟩), (⟨0⟩, ⟨1⟩)]⟩) ⟨7⟩).on
          renamingSample = (.ok ⟨7⟩, st')) ∧
        renamingSample.RenamesVariables n ⟨7⟩ := by
  have hmatch : renamingSample.matchTerms 20 ⟨6⟩ ⟨7⟩ =
      .ok (some ⟨[(⟨2⟩, ⟨5⟩), (⟨0⟩, ⟨1⟩)]⟩) := rfl
  have hunify : renamingSample.unify 20 ⟨6⟩ ⟨7⟩ =
      .ok (some ⟨[(⟨2⟩, ⟨5⟩), (⟨1⟩, ⟨0⟩)]⟩) := rfl
  have hrenamed : (Subst.replace ⟨[(⟨2⟩, ⟨5⟩), (⟨1⟩, ⟨0⟩)]⟩ ⟨1⟩).on renamingSample =
      (.ok ⟨0⟩, renamingSample) := rfl
  exact ⟨apart_renamingSample, hmatch, hunify, hrenamed,
    unify_of_matchTerms (by decide) (by decide) apart_renamingSample hmatch⟩

end TypedTerms.TermStore
