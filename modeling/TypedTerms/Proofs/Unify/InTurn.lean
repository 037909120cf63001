import TypedTerms.Proofs.Unify.Correct
import TypedTerms.Proofs.Solve.Recursive

/-!
# Ways to one solution

Runs that visit other equations and bind other variables may still come to
the same: the bindings may be looked through or carried out first, and the
equations may be solved in any order and turned round.
-/

/-!
## Bindings looked through and bindings carried out

Two terms are unified under a chain by looking through its bindings where
they are met. One may as well carry the bindings out first and unify what
the terms have become, under no bindings. The two visit different
equations and bind different variables, but they succeed together, and
each solution is a special case of the other
(`unifyWith_equiv_unify_replace`).

They need not be compared step by step. A map solves the equation between
the new terms when, put after the resolution of the chain, it solves the
equation under the chain (`solves_carried_iff`); the rest is what is
known of all runs of unification.
-/

namespace TypedTerms.TermStore

variable {st st' : TermStore} {s m m' : Subst} {a b a' b' : TermId} {σ θ : Leaf → Tree} {n k : Nat}

/-- The term of the later store is what the other one becomes under the
map. -/
def Carried (st : TermStore) (σ : Leaf → Tree) (st' : TermStore) (a a' : TermId) : Prop :=
  ∃ W, st.Becomes σ a W ∧ st'.Denotes a' W

/-- The carried term becomes under a map what the term becomes under the two
maps one after the other. -/
theorem Carried.becomes_iff {V : Tree} (h : st.Carried σ st' a a') :
    st'.Becomes θ a' V ↔ st.Becomes (fun l => (σ l).subst θ) a V := by
  obtain ⟨_, ⟨A, hA, rfl⟩, ha'⟩ := h
  constructor
  · rintro ⟨T, hT, rfl⟩
    rw [denotes_unique hT ha']
    exact ⟨A, hA, (Tree.subst_subst σ θ A).symm⟩
  · rintro ⟨T, hT, rfl⟩
    rw [denotes_unique hT hA]
    exact ⟨A.subst σ, ha', Tree.subst_subst σ θ A⟩

/-- A well-formed term is carried to a well-formed one. -/
theorem Carried.wellFormed {η : Instantiation} (h : st.Carried η.image st' a a')
    (hη : η.WellFormed) (ha : st.WellFormed a) : st'.WellFormed a' := by
  obtain ⟨_, ⟨A, hA, rfl⟩, ha'⟩ := h
  obtain ⟨B, hB, hwf⟩ := ha
  rw [denotes_unique hA hB] at ha'
  exact ⟨B.subst η.image, ha', hη.subst hwf⟩

theorem Carried.of_extends {st'' : TermStore} (h : st.Carried σ st' a a')
    (hst : st'.Extends st'') : st.Carried σ st'' a a' := by
  obtain ⟨W, hW, ha'⟩ := h
  exact ⟨W, hW, denotes_of_extends hst ha'⟩

/-- Replacing along a chain carries its bindings out. -/
theorem exists_carried {st₀ : TermStore} (hs : st.Resolvable s) (hσ : st.Resolves s σ)
    (ha : st.WellFormed a) (hst : st.Extends st₀) :
    ∃ r st', (s.replace a).on st₀ = (.ok r, st') ∧ st₀.Extends st' ∧ st.Carried σ st' a r := by
  obtain ⟨A, hA, -⟩ := ha
  obtain ⟨r, st', hr, hst', hrA⟩ := Subst.yields_replace hs hσ hA hst
  exact ⟨r, st', hr, hst', A.subst σ, ⟨A, hA, rfl⟩, hrA⟩

/-- A map solves the equation between the new terms when it solves the
old equation after the resolution. -/
theorem solves_carried_iff (hσ : st.Resolves s σ) (ha : st.Carried σ st' a a')
    (hb : st.Carried σ st' b b') :
    st'.Solves .empty [(a', b')] θ ↔ st.Solves s [(a, b)] fun l => (σ l).subst θ := by
  have hempty : st'.Respects .empty θ := fun _ _ hV => absurd hV not_binds_empty
  rw [Solves, Solves, and_iff_right hempty, and_iff_right (hσ.respects_subst θ),
    List.forall_mem_singleton, List.forall_mem_singleton]
  unfold Holds
  simp only [ha.becomes_iff, hb.becomes_iff]

/-- A solution under the chain solves the equation between the new
terms. -/
theorem Solves.carried (h : st.Solves s [(a, b)] θ) (hσ : st.Resolves s σ) (hs : st.Acyclic s)
    (ha : st.Carried σ st' a a') (hb : st.Carried σ st' b b') :
    st'.Solves .empty [(a', b')] θ := by
  have hθ : (fun l => (σ l).subst θ) = θ := funext (hσ.subst_leaf hs h.1)
  rwa [solves_carried_iff hσ ha hb, hθ]

section Agreement

variable (hs : st.Admissible s) (hI : st.Unifying s [(a, b)])
  (hI' : st'.Unifying .empty [(a', b')]) (hst : st.Extends st')
  (hσ : st.Resolves s σ) (ha : st.Carried σ st' a a') (hb : st.Carried σ st' b b')

include hs hI hI' hst hσ ha hb

/-- The solutions found in the two ways are equally general. -/
theorem absorbs_carried (hm : st.unifyWith n s a b = .ok (some m))
    (hm' : st'.unify k a' b' = .ok (some m')) :
    st'.Absorbs m.replace (s.replace >=> m'.replace) ∧
      st'.Absorbs (s.replace >=> m'.replace) m.replace := by
  obtain ⟨hadm, hiff⟩ := hI.respects_iff hm
  obtain ⟨hadm', hiff'⟩ := hI'.respects_iff hm'
  obtain ⟨μ, hμ⟩ := hadm.acyclic.exists_resolves
  obtain ⟨ν, hν⟩ := hadm'.acyclic.exists_resolves
  have hlazy : st'.Realizes m.replace μ := (realizes_replace hadm.resolvable hμ).of_extends hst
  have heager : st'.Realizes (s.replace >=> m'.replace) fun l => (σ l).subst ν :=
    ((realizes_replace hs.resolvable hσ).of_extends hst).comp
      (realizes_replace hadm'.resolvable hν)
  constructor
  · apply hlazy.absorbs heager
    intro l
    have hμs : st.Solves s [(a, b)] μ := (hiff μ).mp hμ.respects
    have hμm' : st'.Respects m' μ := (hiff' μ).mpr (hμs.carried hσ hs.acyclic ha hb)
    calc ((σ l).subst ν).subst μ = (σ l).subst μ := hν.subst_subst hadm'.acyclic hμm' (σ l)
      _ = μ l := hσ.subst_leaf hs.acyclic hμs.1 l
  · apply heager.absorbs hlazy
    intro l
    have hνs : st.Solves s [(a, b)] fun l => (σ l).subst ν :=
      (solves_carried_iff hσ ha hb).mp ((hiff' ν).mp hν.respects)
    exact hμ.subst_leaf hadm.acyclic ((hiff _).mpr hνs) l

end Agreement

/-- Lazy and eager unification agree. Let every key of the admissible
chain have the type of its value. Then unifying two terms under the chain
succeeds exactly when unifying what the chain makes of them does, and
both come to an end. If they answer `m` and `m'`, then replacing along
`m`, and along the chain and then `m'`, are special cases of each
other. -/
theorem unifyWith_equiv_unify_replace (hs : st.Admissible s) (hty : st.KeepsTypes s)
    (ha : st.WellFormed a) (hb : st.WellFormed b) :
    ∃ a' st₁ b' st₂, (s.replace a).on st = (.ok a', st₁) ∧ (s.replace b).on st₁ = (.ok b', st₂) ∧
      ∃ N r r', (∀ n ≥ N, st.unifyWith n s a b = .ok r ∧ st₂.unify n a' b' = .ok r') ∧
        (r.isSome = true ↔ r'.isSome = true) ∧
        ∀ m m', r = some m → r' = some m' →
          st₂.Absorbs m.replace (s.replace >=> m'.replace) ∧
            st₂.Absorbs (s.replace >=> m'.replace) m.replace := by
  obtain ⟨σ, hσwf, hσ⟩ := hs.exists_instantiation hty
  obtain ⟨a', st₁, hra, hst₁, ha'⟩ := exists_carried hs.resolvable hσ ha (extends_refl st)
  obtain ⟨b', st₂, hrb, hst₂, hb'⟩ := exists_carried hs.resolvable hσ hb hst₁
  replace ha' := ha'.of_extends hst₂
  have hI := unifying_singleton hs ha hb
  have hI' : st₂.Unifying .empty [(a', b')] :=
    unifying_singleton (admissible_empty st₂) (ha'.wellFormed hσwf ha) (hb'.wellFormed hσwf hb)
  obtain ⟨N, r, hN, -⟩ := hI.ends
  obtain ⟨N', r', hN', -⟩ := hI'.ends
  refine ⟨a', st₁, b', st₂, hra, hrb, max N N', r, r', ?_, ?_, ?_⟩
  · intro n hn
    exact ⟨hN n (le_of_max_le_left hn), hN' n (le_of_max_le_right hn)⟩
  · rw [TypedUnifying.isSome_iff ⟨hI, hty⟩ (hN N le_rfl),
      TypedUnifying.isSome_iff ⟨hI', keepsTypes_empty st₂⟩ (hN' N' le_rfl)]
    constructor
    · rintro ⟨η, hη, hsol⟩
      exact ⟨η, hη, hsol.carried hσ hs.acyclic ha' hb'⟩
    · rintro ⟨η, hη, hsol⟩
      exact ⟨σ.comp η hσwf, fun l => hη.subst (hσwf l), (solves_carried_iff hσ ha' hb').mp hsol⟩
  · rintro m m' rfl rfl
    exact absorbs_carried hs hI hI' (extends_trans hst₁ hst₂) hσ ha' hb' (hN N le_rfl)
      (hN' N' le_rfl)

/-- Under `x ↦ g(y)`, which is looked through or carried out first, the
terms `f(x, z)` and `f(g(a), x)` are unified. -/
theorem unifyWith_equiv_unify_replace_sample :
    sample.Admissible sampleChain ∧ sample.KeepsTypes sampleChain ∧
      sample.unifyWith 20 sampleChain ⟨8⟩ ⟨9⟩ = .ok (some sampleAnswer) ∧
      ∃ a' st₁ b' st₂, (sampleChain.replace ⟨8⟩).on sample = (.ok a', st₁) ∧
        (sampleChain.replace ⟨9⟩).on st₁ = (.ok b', st₂) ∧
        ∃ N r r', (∀ n ≥ N, sample.unifyWith n sampleChain ⟨8⟩ ⟨9⟩ = .ok r ∧
            st₂.unify n a' b' = .ok r') ∧
          (r.isSome = true ↔ r'.isSome = true) ∧
          ∀ m m', r = some m → r' = some m' →
            st₂.Absorbs m.replace (sampleChain.replace >=> m'.replace) ∧
              st₂.Absorbs (sampleChain.replace >=> m'.replace) m.replace :=
  have hs := respects_sampleChain_iff.1
  ⟨hs, keepsTypes_sampleChain, rfl,
    unifyWith_equiv_unify_replace hs keepsTypes_sampleChain (by decide) (by decide)⟩

end TypedTerms.TermStore

/-!
## Equations solved one after the other

A list of equations is solved by one call of unification for each, under
the bindings that the calls before it have made. The calls come to what
one run over the whole list comes to (`Rule.exists_solve_of_calls`), so
what they answer is described by the solutions of the whole list, and
these depend neither on the order of the equations nor on which side is
which (`solves_rearranged_iff`). The calls do depend on both: they bind
other variables and fail at other equations. Still they succeed for all
rearrangements of a list or for none, and the answers are special cases
of each other (`inTurn_equiv_of_rearranged`).
-/

namespace TypedTerms

/-- Calls for single equations, each run to its end before the next one,
come to what one run over all equations comes to. -/
theorem Rule.exists_solve_of_calls {rule : Rule} {s : Subst} {pending : List Equation} {k : Nat}
    {r : Except Violation (Option Subst)} (hr : r ≠ .error .endless)
    (h : Solver.inTurn (fun s a b => rule.solve k s [(a, b)]) s pending = r) :
    ∃ n, rule.solve n s pending = r := by
  subst h
  have one : ∀ s a b, rule.solve k s [(a, b)] ≠ .error .endless → ∃ N, ∀ n rest,
      rule.solve (n + N) s ((a, b) :: rest) =
        onward (rule.solve k s [(a, b)]) (rule.solve n · rest) := by
    intro s a b hne
    have hturn := inTurn_of_solve rfl hne le_rfl
    rw [Solver.inTurn_singleton] at hturn
    rw [← hturn] at hne ⊢
    exact exists_solve_of_recurse hne
  obtain ⟨N, hN⟩ := exists_solve_of_inTurn one hr
  have hall := hN 0 []
  rw [List.append_nil] at hall
  exact ⟨0 + N, hall.trans (onward_ok_some _)⟩

/-- The second list has the equations of the first in some order, each
of them either way round. -/
def Rearranged (es es' : List Equation) : Prop :=
  ∃ ds, es.Perm ds ∧ List.Forall₂ (fun d e => e = d ∨ e = d.swap) ds es'

/-- What does not depend on which side is which holds of all equations
or of all rearranged ones. -/
theorem Rearranged.forall_mem_iff {es es' : List Equation} {P : Equation → Prop}
    (h : Rearranged es es') (hP : ∀ {a b}, P (a, b) → P (b, a)) :
    (∀ e ∈ es, P e) ↔ ∀ e ∈ es', P e := by
  obtain ⟨ds, hperm, hturned⟩ := h
  refine (forall_congr' fun e => imp_congr_left hperm.mem_iff).trans ?_
  clear hperm
  induction hturned with
  | nil => rfl
  | cons hd _ ih =>
    rw [List.forall_mem_cons, List.forall_mem_cons]
    refine and_congr ?_ ih
    rcases hd with rfl | rfl
    · rfl
    · exact ⟨hP, hP⟩

namespace TermStore

variable {st : TermStore} {s m m' : Subst} {es es' pending : List Equation} {θ : Leaf → Tree}
  {r : Option Subst} {n : Nat}

/-- A map solves the rearranged equations when it solves the equations. -/
theorem solves_rearranged_iff (h : Rearranged es es') : st.Solves s es θ ↔ st.Solves s es' θ :=
  and_congr_right fun _ => h.forall_mem_iff Holds.symm

/-- Rearranged equations are a state of unification just as well. -/
theorem TypedUnifying.rearrange (h : st.TypedUnifying s es) (hes : Rearranged es es') :
    st.TypedUnifying s es' where
  unifying := ⟨h.unifying.admissible, (hes.forall_mem_iff And.symm).mp h.unifying.wf⟩
  keepsTypes := h.keepsTypes

/-- Every call comes to an end, and so do all of them. -/
theorem Unifying.inTurn_ends (h : st.Unifying s pending) :
    ∃ N r, ∀ n ≥ N, Solver.inTurn (st.unifyWith n) s pending = .ok r := by
  induction pending generalizing s with
  | nil => exact ⟨0, some s, fun _ _ => rfl⟩
  | cons e rest ih =>
    obtain ⟨a, b⟩ := e
    obtain ⟨⟨ha, hb⟩, hrest⟩ := List.forall_mem_cons.mp h.wf
    have hcall := unifying_singleton h.admissible ha hb
    obtain ⟨N, r, hN, -⟩ := hcall.ends
    cases r with
    | none =>
      refine ⟨N, none, fun n hn => ?_⟩
      rw [Solver.inTurn, unifyWith, hN n hn]
      rfl
    | some m =>
      obtain ⟨hadm, -⟩ := hcall.respects_iff (hN N le_rfl)
      obtain ⟨M, r, hM⟩ := ih ⟨hadm, hrest⟩
      refine ⟨max N M, r, fun n hn => ?_⟩
      rw [Solver.inTurn, unifyWith, hN n (le_of_max_le_left hn)]
      exact hM n (le_of_max_le_right hn)

/-- Calls in turn come to what one run over all the equations comes to. -/
theorem exists_solve_of_inTurn_unifyWith
    (h : Solver.inTurn (st.unifyWith n) s pending = .ok r) :
    ∃ k, st.unifyRule.solve k s pending = .ok r :=
  st.unifyRule.exists_solve_of_calls (fun hr => nomatch hr) h

/-- The calls answer bindings when all equations together have a solution
that keeps types. -/
theorem TypedUnifying.isSome_inTurn_iff (h : st.TypedUnifying s pending)
    (hr : Solver.inTurn (st.unifyWith n) s pending = .ok r) :
    r.isSome = true ↔ ∃ η : Instantiation, η.WellFormed ∧ st.Solves s pending η.image := by
  obtain ⟨k, hk⟩ := exists_solve_of_inTurn_unifyWith hr
  exact h.isSome_iff hk

/-- The maps that agree with what the calls answer are the solutions of
all equations together. -/
theorem Unifying.respects_inTurn_iff (h : st.Unifying s pending)
    (hm : Solver.inTurn (st.unifyWith n) s pending = .ok (some m)) :
    st.Admissible m ∧ ∀ θ, st.Respects m θ ↔ st.Solves s pending θ := by
  obtain ⟨k, hk⟩ := exists_solve_of_inTurn_unifyWith hm
  exact h.respects_iff hk

/-- Neither the order of equations matters nor which side is which. Let
every key of the admissible chain have the type of its value. Then
solving a list of equations one after the other succeeds exactly when
solving a rearranged list does, and both come to an end. If they answer
`m` and `m'`, then replacing along `m` and replacing along `m'` are
special cases of each other. -/
theorem inTurn_equiv_of_rearranged (hs : st.Admissible s) (hty : st.KeepsTypes s)
    (hwf : ∀ e ∈ es, st.WellFormed e.1 ∧ st.WellFormed e.2) (hes : Rearranged es es') :
    ∃ N r r', (∀ n ≥ N, Solver.inTurn (st.unifyWith n) s es = .ok r ∧
        Solver.inTurn (st.unifyWith n) s es' = .ok r') ∧
      (r.isSome = true ↔ r'.isSome = true) ∧
      ∀ m m', r = some m → r' = some m' →
        st.Absorbs m.replace m'.replace ∧ st.Absorbs m'.replace m.replace := by
  have hI : st.TypedUnifying s es := ⟨⟨hs, hwf⟩, hty⟩
  have hI' := hI.rearrange hes
  obtain ⟨N, r, hN⟩ := hI.unifying.inTurn_ends
  obtain ⟨N', r', hN'⟩ := hI'.unifying.inTurn_ends
  refine ⟨max N N', r, r', ?_, ?_, ?_⟩
  · intro n hn
    exact ⟨hN n (le_of_max_le_left hn), hN' n (le_of_max_le_right hn)⟩
  · rw [hI.isSome_inTurn_iff (hN N le_rfl), hI'.isSome_inTurn_iff (hN' N' le_rfl)]
    simp only [solves_rearranged_iff hes]
  · rintro m m' rfl rfl
    obtain ⟨hadm, hiff⟩ := hI.unifying.respects_inTurn_iff (hN N le_rfl)
    obtain ⟨hadm', hiff'⟩ := hI'.unifying.respects_inTurn_iff (hN' N' le_rfl)
    have hsame : ∀ θ, st.Respects m θ ↔ st.Respects m' θ := fun θ =>
      (hiff θ).trans ((solves_rearranged_iff hes).trans (hiff' θ).symm)
    exact ⟨hadm.resolvable.absorbs hadm'.resolvable fun θ => (hsame θ).mp,
      hadm'.resolvable.absorbs hadm.resolvable fun θ => (hsame θ).mpr⟩

/-- Under `x ↦ g(y)`, the equations `y = z` and `x = g(a)` bind `z` to
`y` and then `y` to `a`; from `g(a) = x` and `z = y` both `y` and `z` are
bound to `a`. -/
theorem inTurn_equiv_of_rearranged_sample :
    sample.Admissible sampleChain ∧ sample.KeepsTypes sampleChain ∧
      Rearranged [(⟨1⟩, ⟨2⟩), (⟨0⟩, ⟨7⟩)] [(⟨7⟩, ⟨0⟩), (⟨2⟩, ⟨1⟩)] ∧
      Solver.inTurn (sample.unifyWith 20) sampleChain [(⟨1⟩, ⟨2⟩), (⟨0⟩, ⟨7⟩)] =
        .ok (some ⟨[(⟨1⟩, ⟨3⟩), (⟨2⟩, ⟨1⟩), (⟨0⟩, ⟨6⟩)]⟩) ∧
      Solver.inTurn (sample.unifyWith 20) sampleChain [(⟨7⟩, ⟨0⟩), (⟨2⟩, ⟨1⟩)] =
        .ok (some ⟨[(⟨2⟩, ⟨3⟩), (⟨1⟩, ⟨3⟩), (⟨0⟩, ⟨6⟩)]⟩) ∧
      ∃ N r r', (∀ n ≥ N,
          Solver.inTurn (sample.unifyWith n) sampleChain [(⟨1⟩, ⟨2⟩), (⟨0⟩, ⟨7⟩)] = .ok r ∧
            Solver.inTurn (sample.unifyWith n) sampleChain [(⟨7⟩, ⟨0⟩), (⟨2⟩, ⟨1⟩)] = .ok r') ∧
        (r.isSome = true ↔ r'.isSome = true) ∧
        ∀ m m', r = some m → r' = some m' →
          sample.Absorbs m.replace m'.replace ∧ sample.Absorbs m'.replace m.replace :=
  have hs := respects_sampleChain_iff.1
  have hes : Rearranged [(⟨1⟩, ⟨2⟩), (⟨0⟩, ⟨7⟩)] [(⟨7⟩, ⟨0⟩), (⟨2⟩, ⟨1⟩)] :=
    ⟨[(⟨0⟩, ⟨7⟩), (⟨1⟩, ⟨2⟩)], .swap _ _ [], .cons (.inr rfl) (.cons (.inr rfl) .nil)⟩
  ⟨hs, keepsTypes_sampleChain, hes, rfl, rfl,
    inTurn_equiv_of_rearranged hs keepsTypes_sampleChain (by decide) hes⟩

end TermStore

end TypedTerms
