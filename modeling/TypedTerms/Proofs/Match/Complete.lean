import TypedTerms.Proofs.Match.Sound

/-!
# Matching is complete

Every instance of a pattern matches it, and matching finds the map that
the instance was made by (`matchTerms_complete`). The map puts terms in
the place of all variables at once, so its values may hold variables of
the pattern, and then pattern and target share them. A pair that is the
same on both sides is passed over without a binding; that loses nothing,
because there the map leaves every leaf alone.

While matching runs, every pending target is the instance of its pattern,
every variable is bound to its own instance, and a variable of the
pattern that is no longer pending is bound, or the map leaves it alone.
No step of the rule refuses such an equation
(`MatchStep.not_isInstance`).
-/

namespace TypedTerms.TermStore

variable {st : TermStore} {s s' : Subst} {a b p t x : TermId} {pending new rest : List Equation}
  {η : Instantiation}

/-- Every key is a variable, and its value is its instance. -/
def BindsInstances (st : TermStore) (η : Instantiation) (s : Subst) : Prop :=
  ∀ ⦃x v⦄, s.get? x = some v → st.IsVariable x ∧ st.IsInstance η.image (x, v)

/-- The variable is bound, or is its own instance. -/
def Settled (st : TermStore) (η : Instantiation) (s : Subst) (x : TermId) : Prop :=
  s.get? x = none → st.IsInstance η.image (x, x)

/-- A bound variable is settled. -/
theorem settled_of_get? {v : TermId} (h : s.get? x = some v) : st.Settled η s x := by
  intro hnone
  rw [h] at hnone
  cases hnone

/-- An equation that is refused is not between a pattern and its
instance. -/
theorem MatchStep.not_isInstance (h : st.MatchStep s a b none) (ha : st.WellFormed a)
    (hs : st.BindsInstances η s) : ¬ st.IsInstance η.image (a, b) := by
  intro hab
  cases h with
  | types hty =>
    obtain ⟨T, hT, hW⟩ := hab
    exact hty ((hW.ty_eq ha).trans (ty_of_denotes hT).symm)
  | clash _ hv hne => exact hne ((hs hv).2.unique hab)
  | mismatch hne hm hn hvar hdiff =>
    -- the pattern is no variable, and the target stays as it is
    refine (Meets.eq_or_split (isInstance_iff_meets.mp hab) hm hn ?_ fun _ _ => rfl).elim hne hdiff
    rintro l rfl
    exact image_of_not_isVariable η hm hvar

/-- A step binds a variable to its instance, if it binds any. -/
theorem MatchStep.bindsInstances (h : st.MatchStep s a b (some (s', new)))
    (hs : st.BindsInstances η s) (hab : st.IsInstance η.image (a, b)) :
    st.BindsInstances η s' := by
  rcases h.chain with rfl | ⟨rfl, hvar, -, -⟩
  · exact hs
  · exact Subst.forall_get?_bind ⟨hvar, hab⟩ hs

/-- The equations that a step leaves are between terms and their instances.
-/
theorem MatchStep.instances (h : st.MatchStep s a b (some (s', new)))
    (hab : st.IsInstance η.image (a, b)) : ∀ e ∈ new, st.IsInstance η.image e := by
  cases h with
  | same | met | bind => exact fun _ he => nomatch he
  | split hna hnb hlen => exact (isInstance_app_iff hna hnb hlen).mp hab

/-- What is settled stays so. -/
theorem MatchStep.settled (h : st.MatchStep s a b (some (s', new))) (hx : st.Settled η s x) :
    st.Settled η s' x := by
  rcases h.chain with rfl | ⟨rfl, -, -, -⟩
  · exact hx
  · exact fun hnone => hx (Subst.get?_of_get?_bind_eq_none hnone)

/-- A variable of the pattern is settled by the step, or stands in one of
the new patterns. -/
theorem MatchStep.covers (h : st.MatchStep s a b (some (s', new)))
    (hab : st.IsInstance η.image (a, b)) (hvar : st.IsVariable x) (hx : st.Subterm x a) :
    st.Settled η s' x ∨ ∃ e ∈ new, st.Subterm x e.1 := by
  obtain ⟨l, hl, -⟩ := hvar
  cases h with
  | same heq =>
    obtain rfl := heq
    exact .inl fun _ => hab.leaf_of_self hl hx
  | met ha hv =>
    obtain ⟨k, hk, -⟩ := ha
    rw [hx.eq_of_leaf hk]
    exact .inl (settled_of_get? hv)
  | bind _ _ ha _ =>
    obtain ⟨k, hk, -⟩ := ha
    rw [hx.eq_of_leaf hk]
    exact .inl (settled_of_get? (Subst.get?_bind_self s a b))
  | @split op c d cs ds hna hnb hlen =>
    have hne : x ≠ a := by
      rintro rfl
      rw [hl] at hna
      cases hna
    obtain ⟨y, hy, hsub⟩ := ((subterm_iff hna).mp hx).resolve_left hne
    obtain ⟨e, he, rfl⟩ := exists_mem_zip hlen hy
    exact .inr ⟨e, he, hsub⟩

/-- A state of matching `p` against its instance. -/
structure Instantiating (st : TermStore) (η : Instantiation) (p : TermId) (s : Subst)
    (pending : List Equation) : Prop where
  wf : st.AllWellFormed pending
  instances : ∀ e ∈ pending, st.IsInstance η.image e
  values : st.BindsInstances η s
  covers : ∀ ⦃x⦄, st.IsVariable x → st.Subterm x p →
    st.Settled η s x ∨ ∃ e ∈ pending, st.Subterm x e.1

/-- Matching a pattern against its instance may begin. -/
theorem instantiating_start (hp : st.WellFormed p) (hη : η.WellFormed)
    (ht : st.IsInstance η.image (p, t)) : st.Instantiating η p .empty [(p, t)] where
  wf := by
    obtain ⟨P, hP, hwf⟩ := id hp
    obtain ⟨T, hT, U, hU, rfl⟩ := ht
    rw [denotes_unique hU hP] at hT
    exact List.forall_mem_singleton.mpr ⟨hp, _, hT, hη.subst hwf⟩
  instances := List.forall_mem_singleton.mpr ht
  values _ _ hv := nomatch hv
  covers _ _ hx := .inr ⟨_, List.mem_cons_self, hx⟩

/-- Every application of the rule leaves such a state. -/
theorem Instantiating.step (h : st.Instantiating η p s ((a, b) :: rest))
    (hr : st.matchRule s a b = .ok (some (s', new))) : st.Instantiating η p s' (new ++ rest) := by
  have hstep := h.wf.matchStep hr
  obtain ⟨hab, hrest⟩ := List.forall_mem_cons.mp h.instances
  refine ⟨hstep.allWellFormed h.wf, ?_, hstep.bindsInstances h.values hab, ?_⟩
  · exact List.forall_mem_append.mpr ⟨hstep.instances hab, hrest⟩
  · intro x hvar hx
    rcases h.covers hvar hx with hsettled | ⟨e, he, hsub⟩
    · exact .inl (hstep.settled hsettled)
    rcases List.mem_cons.mp he with rfl | he
    · refine (hstep.covers hab hvar hsub).imp_right ?_
      rintro ⟨e, he, hsub⟩
      exact ⟨e, List.mem_append_left _ he, hsub⟩
    · exact .inr ⟨e, List.mem_append_right _ he, hsub⟩

/-- Matching is complete: every instance matches. Let the target be the
pattern under a map that keeps types and whose values are well formed.
Then matching ends with bindings: a variable is bound to what the map
puts in its place, and a variable of the pattern that is left unbound is
one that the map leaves alone. -/
theorem matchTerms_complete (hp : st.WellFormed p) (η : Instantiation) (hη : η.WellFormed)
    (ht : st.IsInstance η.image (p, t)) :
    ∃ N m, (∀ n ≥ N, st.matchTerms n p t = .ok (some m)) ∧
      (∀ n < N, st.matchTerms n p t = .error .endless) ∧
      (∀ x v, m.get? x = some v → st.IsVariable x ∧ st.IsInstance η.image (x, v)) ∧
      ∀ x, st.IsVariable x → st.Subterm x p → m.get? x = none → st.IsInstance η.image (x, x) := by
  have hstart := instantiating_start hp hη ht
  obtain ⟨N, r, hN, hshort⟩ := matchRule_ends hstart.wf .empty
  cases r with
  | none =>
    obtain ⟨s, a, b, rest, h, hr⟩ :=
      Rule.invariant_of_solve_none (I := st.Instantiating η p) Instantiating.step hstart
        (hN N le_rfl)
    obtain ⟨⟨ha, -⟩, -⟩ := List.forall_mem_cons.mp h.wf
    exact absurd (h.instances _ List.mem_cons_self)
      ((h.wf.matchStep hr).not_isInstance ha h.values)
  | some m =>
    have hend : st.Instantiating η p m [] :=
      Rule.invariant_of_solve (I := st.Instantiating η p) Instantiating.step hstart (hN N le_rfl)
    refine ⟨N, m, hN, hshort, hend.values, ?_⟩
    intro x hvar hx
    exact (hend.covers hvar hx).resolve_right fun ⟨_, he, _⟩ => nomatch he

/-- The map that exchanges `x` and `z`, of whatever type. -/
def sampleExchange : Instantiation :=
  .ofVar (fun id A => .leaf (.var (if id = 0 then 2 else if id = 2 then 0 else id) A))
    fun _ _ => rfl

/-- The exchange gives variables for variables, so all its values are well
formed. -/
theorem wellFormed_sampleExchange : sampleExchange.WellFormed := by
  intro l
  cases l <;> exact .leaf _

/-- The exchange makes `f(z, x)` of `f(x, z)`. -/
theorem isInstance_sampleExchange :
    patternSample.IsInstance sampleExchange.image (⟨7⟩, ⟨9⟩) := by
  have hf : patternSample.IsInstance sampleExchange.image (⟨5⟩, ⟨5⟩) :=
    (isInstance_leaf_iff rfl).mpr (by rfl)
  have hx : patternSample.IsInstance sampleExchange.image (⟨0⟩, ⟨2⟩) :=
    (isInstance_leaf_iff rfl).mpr (by rfl)
  have hz : patternSample.IsInstance sampleExchange.image (⟨2⟩, ⟨0⟩) :=
    (isInstance_leaf_iff rfl).mpr (by rfl)
  refine (isInstance_app_iff rfl rfl (by rfl)).mpr (List.forall_mem_cons.mpr ⟨hf, ?_⟩)
  exact List.forall_mem_cons.mpr ⟨hx, List.forall_mem_singleton.mpr hz⟩

/-- Matching `f(x, z)` against `f(z, x)` binds each of the variables to
the other. -/
theorem matchTerms_complete_sample :
    patternSample.IsInstance sampleExchange.image (⟨7⟩, ⟨9⟩) ∧
      patternSample.matchTerms 4 ⟨7⟩ ⟨9⟩ = .ok (some ⟨[(⟨2⟩, ⟨0⟩), (⟨0⟩, ⟨2⟩)]⟩) ∧
      ∃ N m, (∀ n ≥ N, patternSample.matchTerms n ⟨7⟩ ⟨9⟩ = .ok (some m)) ∧
        (∀ n < N, patternSample.matchTerms n ⟨7⟩ ⟨9⟩ = .error .endless) ∧
        (∀ x v, m.get? x = some v →
          patternSample.IsVariable x ∧ patternSample.IsInstance sampleExchange.image (x, v)) ∧
        ∀ x, patternSample.IsVariable x → patternSample.Subterm x ⟨7⟩ → m.get? x = none →
          patternSample.IsInstance sampleExchange.image (x, x) :=
  ⟨isInstance_sampleExchange, rfl,
    matchTerms_complete (by decide) sampleExchange wellFormed_sampleExchange
      isInstance_sampleExchange⟩

end TypedTerms.TermStore
