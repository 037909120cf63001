import TypedTerms.Proofs.Decompose
import TypedTerms.Proofs.Occurs
import TypedTerms.Solve.Unify
import Mathlib.Data.Prod.Lex

/-!
# Steps of unification

What the rule of unification makes of one equation, case by case. Over an
admissible chain and between well-formed terms the rule answers, and the
answer is one of the cases of `UnifyStep` (`unifyRule_spec`). The cases
say everything that the rule has looked at, so nothing below opens the
rule again.

A step keeps the chain or puts one binding in front of it
(`UnifyStep.chain`), and the equations it leaves are between its sides,
their children and values (`UnifyStep.parts`). So well-formed terms and
an admissible chain lead to well-formed terms and an admissible chain
(`UnifyStep.unifying`).
-/

namespace TypedTerms.TermStore

variable {st : TermStore} {s : Subst} {a b : TermId}

/-- What becomes of an equation between a variable and a term. -/
inductive VarStep (st : TermStore) (s : Subst) (x other : TermId) :
    Option (Subst × List Equation) → Prop where
  | follow {v} (hx : s.get? x = some v) : VarStep st s x other (some (s, [(v, other)]))
  | followOther {v} (hx : s.get? x = none) (ho : s.get? other = some v) :
    VarStep st s x other (some (s, [(x, v)]))
  | cyclic (hx : s.get? x = none) (ho : s.get? other = none) (check : st.Reaches s other x) :
    VarStep st s x other none
  | bind (hx : s.get? x = none) (ho : s.get? other = none) (check : ¬ st.Reaches s other x) :
    VarStep st s x other (some (s.bind x other, []))

/-- What becomes of an equation. -/
inductive UnifyStep (st : TermStore) (s : Subst) (a b : TermId) :
    Option (Subst × List Equation) → Prop where
  | same (h : a = b) : UnifyStep st s a b (some (s, []))
  | types (h : st.ty a ≠ st.ty b) : UnifyStep st s a b none
  | right {r} (h : a ≠ b) (hty : st.ty a = st.ty b) (hvar : st.IsVariable b)
    (step : VarStep st s b a r) : UnifyStep st s a b r
  | left {r} (h : a ≠ b) (hty : st.ty a = st.ty b) (hvar : st.IsVariable a)
    (step : VarStep st s a b r) : UnifyStep st s a b r
  | split {op : Operator} {c d : TermId} {cs ds : List TermId}
    (ha : st.node? a = some (.app op c cs)) (hb : st.node? b = some (.app op d ds))
    (hlen : cs.length = ds.length) :
    UnifyStep st s a b (some (s, (c, d) :: cs.zip ds))
  | mismatch {m n : Node} (h : a ≠ b) (ha : st.node? a = some m) (hb : st.node? b = some n)
    (hvar : ¬ st.IsVariable a ∧ ¬ st.IsVariable b)
    (hne : ¬ (m.tag = n.tag ∧ m.children ≠ [] ∧ m.children.length = n.children.length)) :
    UnifyStep st s a b none

/-- An equation between a variable and a term is answered, as one of the
cases of `VarStep`. -/
theorem solveVar_spec {other : TermId} (hs : st.Admissible s) (ho : st.WellFormed other)
    (x : TermId) :
    ∃ r, st.solveVar s x other = .ok r ∧ st.VarStep s x other r := by
  rw [solveVar]
  cases hx : s.get? x with
  | some v => exact ⟨_, rfl, .follow hx⟩
  | none =>
    cases hov : s.get? other with
    | some v => exact ⟨_, rfl, .followOther hx hov⟩
    | none =>
      obtain ⟨T, hT, -⟩ := ho
      obtain ⟨found, hfound, hiff⟩ := occurs_of_denotes hs.resolvable hT x
      simp only [hfound]
      cases found with
      | true => exact ⟨_, rfl, .cyclic hx hov (hiff.mp rfl)⟩
      | false =>
        refine ⟨_, rfl, .bind hx hov ?_⟩
        intro check
        cases hiff.mpr check

/-- What taking an equation apart leaves is a case of the rule, if the sides
differ and neither is a variable. -/
theorem Decomposes.unifyStep {r : Option (List Equation)} (h : st.Decomposes a b r) (hne : a ≠ b)
    (hvar : ¬ st.IsVariable a ∧ ¬ st.IsVariable b) (s : Subst) :
    st.UnifyStep s a b (r.map ((s, ·))) := by
  cases h with
  | split ha hb hlen => exact .split ha hb hlen
  | mismatch ha hb hdiff => exact .mismatch hne ha hb hvar hdiff

/-- The rule answers, by one of the cases. -/
theorem unifyRule_spec (hs : st.Admissible s) (ha : st.WellFormed a) (hb : st.WellFormed b) :
    ∃ r, st.unifyRule s a b = .ok r ∧ st.UnifyStep s a b r := by
  refine guarded_spec ha hb .same .types fun h hty => ?_
  obtain ⟨m, hm⟩ := ha.known
  obtain ⟨n, hn⟩ := hb.known
  obtain ⟨va, hva, hva_iff⟩ := isVar_spec hm
  obtain ⟨vb, hvb, hvb_iff⟩ := isVar_spec hn
  rw [hva, hvb]
  simp only [bind, Except.bind]
  by_cases hright : vb = true
  · obtain ⟨r, hr, hstep⟩ := solveVar_spec hs ha b
    exact ⟨r, (if_pos hright).trans hr, .right h hty (hvb_iff.mp hright) hstep⟩
  by_cases hleft : va = true
  · obtain ⟨r, hr, hstep⟩ := solveVar_spec hs hb a
    refine ⟨r, ?_, .left h hty (hva_iff.mp hleft) hstep⟩
    rw [if_neg hright, if_pos hleft, hr]
  · obtain ⟨r, hr, hparts⟩ := decompose_spec hm hn
    have hvar : ¬ st.IsVariable a ∧ ¬ st.IsVariable b :=
      ⟨fun hv => hleft (hva_iff.mpr hv), fun hv => hright (hvb_iff.mpr hv)⟩
    refine ⟨_, ?_, hparts.unifyStep h hvar s⟩
    rw [if_neg hright, if_neg hleft, hr]
    rfl

/-! ## What a step keeps -/

variable {s' : Subst} {new rest : List Equation}

/-- A variable that the chain leaves free, and a term of its type in
which it does not stand. -/
structure Bindable (st : TermStore) (s : Subst) (x v : TermId) : Prop where
  isVariable : st.IsVariable x
  free : s.get? x = none
  ty_eq : st.ty x = st.ty v
  check : ¬ st.Reaches s v x

/-- At a variable the chain is kept, or one binding is put in front of it.
-/
theorem VarStep.chain {x other : TermId} (h : st.VarStep s x other (some (s', new)))
    (hvar : st.IsVariable x) (hty : st.ty x = st.ty other) :
    s' = s ∨ s' = s.bind x other ∧ st.Bindable s x other := by
  cases h with
  | follow => exact .inl rfl
  | followOther => exact .inl rfl
  | bind hx _ check => exact .inr ⟨rfl, hvar, hx, hty, check⟩

/-- The chain stays, or one side is bound to the other. -/
theorem UnifyStep.chain (h : st.UnifyStep s a b (some (s', new))) :
    s' = s ∨ ∃ x v, s' = s.bind x v ∧ st.Bindable s x v ∧ (v = a ∨ v = b) := by
  cases h with
  | same | split => exact .inl rfl
  | right _ hty hvar step =>
    rcases step.chain hvar hty.symm with rfl | ⟨rfl, hbind⟩
    · exact .inl rfl
    · exact .inr ⟨b, a, rfl, hbind, .inl rfl⟩
  | left _ hty hvar step =>
    rcases step.chain hvar hty with rfl | ⟨rfl, hbind⟩
    · exact .inl rfl
    · exact .inr ⟨a, b, rfl, hbind, .inr rfl⟩

/-- What holds of both sides and of the values of the chain holds of the
sides of what is left. -/
theorem VarStep.parts {P : TermId → Prop} {x other : TermId}
    (h : st.VarStep s x other (some (s', new))) (hvalue : ∀ {x v}, s.get? x = some v → P v)
    (hx : P x) (ho : P other) : ∀ e ∈ new, P e.1 ∧ P e.2 := by
  cases h with
  | follow hv => exact List.forall_mem_singleton.mpr ⟨hvalue hv, ho⟩
  | followOther _ hv => exact List.forall_mem_singleton.mpr ⟨hx, hvalue hv⟩
  | bind => exact fun _ he => nomatch he

/-- What holds of the sides and of the values of the chain, and is handed
down to children, holds of the sides of the new equations. -/
theorem UnifyStep.parts {P : TermId → Prop} (h : st.UnifyStep s a b (some (s', new)))
    (hchild : ∀ {t c}, P t → st.IsChild c t → P c) (hvalue : ∀ {x v}, s.get? x = some v → P v)
    (ha : P a) (hb : P b) : ∀ e ∈ new, P e.1 ∧ P e.2 := by
  cases h with
  | same => exact fun _ he => nomatch he
  | right _ _ _ step => exact step.parts hvalue hb ha
  | left _ _ _ step => exact step.parts hvalue ha hb
  | split hna hnb _ =>
    intro e he
    have ⟨hc, hd⟩ := isChild_of_mem_zip hna hnb he
    exact ⟨hchild ha hc, hchild hb hd⟩

/-- A state that unification may be in: an admissible chain, and
equations between well-formed terms. -/
structure Unifying (st : TermStore) (s : Subst) (pending : List Equation) : Prop where
  admissible : st.Admissible s
  wf : ∀ e ∈ pending, st.WellFormed e.1 ∧ st.WellFormed e.2

/-- What the rule answers in such a state is one of the cases. -/
theorem Unifying.unifyStep {r : Option (Subst × List Equation)}
    (hI : st.Unifying s ((a, b) :: rest)) (hr : st.unifyRule s a b = .ok r) :
    st.UnifyStep s a b r := by
  obtain ⟨⟨ha, hb⟩, -⟩ := List.forall_mem_cons.mp hI.wf
  obtain ⟨r', hr', hstep⟩ := unifyRule_spec hI.admissible ha hb
  rw [hr] at hr'
  cases hr'
  exact hstep

/-- Every step leaves a state that unification may be in. -/
theorem UnifyStep.unifying (h : st.UnifyStep s a b (some (s', new)))
    (hI : st.Unifying s ((a, b) :: rest)) : st.Unifying s' (new ++ rest) := by
  obtain ⟨hs, hwf⟩ := hI
  obtain ⟨⟨ha, hb⟩, hrest⟩ := List.forall_mem_cons.mp hwf
  constructor
  · rcases h.chain with rfl | ⟨x, v, rfl, hbind, hside⟩
    · exact hs
    · refine hs.bind hbind.isVariable ?_ hbind.check
      rcases hside with rfl | rfl
      · exact ha
      · exact hb
  · have hnew := h.parts WellFormed.child (fun hv => hs.value_wf hv) ha hb
    exact List.forall_mem_append.mpr ⟨hnew, hrest⟩

end TypedTerms.TermStore

/-!
## Unification ends

Following a binding may put a much larger term in the place of a
variable, so the sizes of the terms do not bound a run. Two numbers do,
in this order: how many known terms have no binding, which every new
binding lowers, and, as long as the bindings stay, the weight of the
pending equations under a weight of leaves by which a bound leaf is
heavier than its value.
-/

namespace TypedTerms.TermStore

variable {st : TermStore} {s s' : Subst} {a b x v : TermId}
  {pending new rest : List Equation} {ω : Leaf → Nat}

/-- The known terms without a binding. -/
def unbound (st : TermStore) (s : Subst) : Finset TermId := st.known.filter (s.get? · = none)

/-- A new binding leaves fewer known terms unbound. -/
theorem Bindable.card_unbound_lt (h : st.Bindable s x v) :
    (st.unbound (s.bind x v)).card < (st.unbound s).card := by
  obtain ⟨l, hx, -⟩ := h.isVariable
  refine Finset.card_lt_card ((Finset.ssubset_iff_of_subset ?_).mpr ⟨x, ?_, ?_⟩)
  · intro y hy
    obtain ⟨hknown, hfree⟩ := Finset.mem_filter.mp hy
    exact Finset.mem_filter.mpr ⟨hknown, Subst.get?_of_get?_bind_eq_none hfree⟩
  · exact Finset.mem_filter.mpr ⟨mem_known hx, h.free⟩
  · intro hmem
    have hfree := (Finset.mem_filter.mp hmem).2
    rw [Subst.get?_bind_self] at hfree
    cases hfree

/-- A bound variable is heavier than its value. -/
theorem Weighs.weight_lt (hω : st.Weighs s ω) (hs : st.Admissible s) (hv : s.get? x = some v) :
    st.weight ω v < st.weight ω x := by
  obtain ⟨l, hx, hl⟩ := hs.key_var hv
  have hX := denotes_leaf_iff.mpr hx
  obtain ⟨V, hV, hlt⟩ := hω.lt hs.resolvable hX (.value hx hl hv)
  rwa [weight_of_denotes hV, weight_of_denotes hX]

/-- An equation at a variable leaves fewer terms unbound, or lighter
equations on the same chain. -/
theorem VarStep.smaller {other : TermId} (h : st.VarStep s x other (some (s', new)))
    (hs : st.Admissible s) (hω : st.Weighs s ω) (hvar : st.IsVariable x)
    (hty : st.ty x = st.ty other) :
    (st.unbound s').card < (st.unbound s).card ∨
      s' = s ∧ st.load ω new < st.weight ω x + st.weight ω other := by
  cases h with
  | follow hv =>
    have := hω.weight_lt hs hv
    exact .inr ⟨rfl, by simp only [load, List.map_cons, List.map_nil, List.sum_singleton]; omega⟩
  | followOther _ hv =>
    have := hω.weight_lt hs hv
    exact .inr ⟨rfl, by simp only [load, List.map_cons, List.map_nil, List.sum_singleton]; omega⟩
  | bind hx _ check => exact .inl (Bindable.card_unbound_lt ⟨hvar, hx, hty, check⟩)

/-- A step binds a term, or leaves equations of less weight. -/
theorem UnifyStep.smaller (h : st.UnifyStep s a b (some (s', new))) (hs : st.Admissible s)
    (ha : st.WellFormed a) (hb : st.WellFormed b) (hω : st.Weighs s ω) :
    (st.unbound s').card < (st.unbound s).card ∨
      s' = s ∧ st.load ω new < st.weight ω a + st.weight ω b := by
  cases h with
  | same =>
    obtain ⟨T, hT, -⟩ := ha
    exact .inr ⟨rfl, Nat.add_pos_left (weight_pos hω.pos hT) _⟩
  | right _ hty hvar step =>
    rw [Nat.add_comm (st.weight ω a)]
    exact step.smaller hs hω hvar hty.symm
  | left _ hty hvar step => exact step.smaller hs hω hvar hty
  | split hna hnb _ => exact .inr ⟨rfl, load_children_lt ha hb hna hnb⟩

/-- A state that unification may be in, with what is left to do there. -/
structure Measured (st : TermStore) (k : ℕ ×ₗ ℕ) (s : Subst) (pending : List Equation) : Prop where
  unifying : st.Unifying s pending
  measure_eq : ∃ ω, st.Weighs s ω ∧ k = toLex ((st.unbound s).card, st.load ω pending)

/-- Every state that unification may be in has a measure of what is left to
do there. -/
theorem Unifying.exists_measured (h : st.Unifying s pending) :
    ∃ w, st.Measured (toLex ((st.unbound s).card, w)) s pending := by
  obtain ⟨ω, hω⟩ := h.admissible.acyclic.exists_weighs
  exact ⟨st.load ω pending, h, ω, hω, rfl⟩

/-- A step leaves less to do. -/
theorem UnifyStep.exists_measured_lt {k : ℕ ×ₗ ℕ} (h : st.UnifyStep s a b (some (s', new)))
    (hM : st.Measured k s ((a, b) :: rest)) : ∃ j < k, st.Measured j s' (new ++ rest) := by
  obtain ⟨hI, ω, hω, rfl⟩ := hM
  have hnext := h.unifying hI
  obtain ⟨⟨ha, hb⟩, -⟩ := List.forall_mem_cons.mp hI.wf
  rcases h.smaller hI.admissible ha hb hω with hlt | ⟨rfl, hlt⟩
  · obtain ⟨w, hw⟩ := hnext.exists_measured
    exact ⟨_, Prod.Lex.toLex_lt_toLex.mpr (.inl hlt), hw⟩
  · have hload : st.load ω (new ++ rest) < st.load ω ((a, b) :: rest) := by
      rw [load_append]
      exact Nat.add_lt_add_right hlt (st.load ω rest)
    exact ⟨toLex ((st.unbound s').card, st.load ω (new ++ rest)),
      Prod.Lex.toLex_lt_toLex.mpr (.inr ⟨rfl, hload⟩), hnext, ω, hω, rfl⟩

/-- From every state that unification may be in, a run ends and answers. -/
theorem Unifying.ends (h : st.Unifying s pending) :
    ∃ N r, (∀ n ≥ N, st.unifyRule.solve n s pending = .ok r) ∧
      ∀ n < N, st.unifyRule.solve n s pending = .error .endless := by
  obtain ⟨w, hw⟩ := h.exists_measured
  refine Rule.solve_ends (I := st.Measured) ?_ hw
  intro k s a b rest hM
  obtain ⟨⟨ha, hb⟩, -⟩ := List.forall_mem_cons.mp hM.unifying.wf
  obtain ⟨r, hr, hstep⟩ := unifyRule_spec hM.unifying.admissible ha hb
  refine ⟨r, hr, ?_⟩
  rintro s' new rfl
  exact hstep.exists_measured_lt hM

end TypedTerms.TermStore
