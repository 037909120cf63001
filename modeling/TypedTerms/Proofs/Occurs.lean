import TypedTerms.Proofs.Bindings

/-!
# What the occurs check finds

Looking for a variable leads from a term to its children, and from a
bound variable to its value. `Reaches` is any number of such steps. Over
an acyclic chain no way of steps comes back to its start, so the steps
that `TermStore.occurs` may take are enough, and it answers whether the
variable is reached (`occurs_of_denotes`).

The check keeps a chain acyclic: a variable bound to a term that does not
reach it is on no circle (`Admissible.bind`). And what it refuses has no
solution: a term that is reached is no larger than the term it is reached
from, under every map that agrees with the bindings
(`Reaches.weight_le`).
-/

namespace TypedTerms

open Relation

/-- A search that answers at every member answers whether one of them is
found. -/
theorem anyM_ok {α : Type} {f : α → Except Violation Bool} {P : α → Prop} {as : List α}
    (h : ∀ a ∈ as, ∃ b, f a = .ok b ∧ (b = true ↔ P a)) :
    ∃ b, as.anyM f = .ok b ∧ (b = true ↔ ∃ a ∈ as, P a) := by
  induction as with
  | nil => exact ⟨false, rfl, by simp⟩
  | cons a as ih =>
    obtain ⟨b, hb, hP⟩ := h a List.mem_cons_self
    rw [List.anyM_cons, hb]
    cases b with
    | true => exact ⟨true, rfl, by simp [hP.mp rfl]⟩
    | false =>
      obtain ⟨c, hc, hAs⟩ := ih fun a ha => h a (List.mem_cons_of_mem _ ha)
      have ha : ¬ P a := by
        intro ha
        cases hP.mpr ha
      exact ⟨c, hc, by simp [hAs, ha]⟩

namespace TermStore

variable {st : TermStore} {s : Subst} {t u v : TermId} {T : Tree} {l : Leaf}

/-- One step of looking for a variable. -/
inductive Leads (st : TermStore) (s : Subst) : TermId → TermId → Prop where
  /-- From a term to a child. -/
  | child {t c : TermId} (hc : st.IsChild c t) : Leads st s t c
  /-- From a bound variable to its value. -/
  | value {x v : TermId} {l : Leaf} (hx : st.node? x = some (.leaf l)) (hl : l.isVar = true)
      (hv : s.get? x = some v) : Leads st s x v

/-- The second term is met when one looks through the first. -/
def Reaches (st : TermStore) (s : Subst) : TermId → TermId → Prop := ReflTransGen (st.Leads s)

/-- A leaf leads nowhere but from a bound variable to its value. -/
theorem leads_leaf_iff (h : st.node? t = some (.leaf l)) :
    st.Leads s t u ↔ l.isVar = true ∧ s.get? t = some u := by
  constructor
  · intro hu
    cases hu with
    | child hc => exact nomatch (isChild_iff h).mp hc
    | value hx hl hv =>
      rw [h] at hx
      cases hx
      exact ⟨hl, hv⟩
  · rintro ⟨hl, hv⟩
    exact .value h hl hv

/-- A compound term leads to its children. -/
theorem leads_app_iff {op : Operator} {c : TermId} {cs : List TermId}
    (h : st.node? t = some (.app op c cs)) : st.Leads s t u ↔ u ∈ c :: cs := by
  constructor
  · intro hu
    cases hu with
    | child hc => exact (isChild_iff h).mp hc
    | value hx _ _ =>
      rw [h] at hx
      cases hx
  · exact fun hmem => .child ((isChild_iff h).mpr hmem)

/-- A weight of leaves by which every bound leaf is heavier than its
value. -/
structure Weighs (st : TermStore) (s : Subst) (ω : Leaf → Nat) : Prop where
  bound : ∀ l V, st.Binds s l V → ω l = V.weight ω + 1
  pos : ∀ l, 0 < ω l

/-- Without a circle there is a weight by which every bound leaf is heavier
than its value. -/
theorem Acyclic.exists_weighs (hs : st.Acyclic s) : ∃ ω, st.Weighs s ω := by
  obtain ⟨ω, hbound, hfree⟩ :=
    hs.exists_reading (fun _ => 1) (fun _ first rest => first + rest.sum + 1) (· + 1)
  refine ⟨ω, hbound, ?_⟩
  intro l
  by_cases hl : ∃ V, st.Binds s l V
  · obtain ⟨V, hV⟩ := hl
    rw [hbound l V hV]
    exact Nat.succ_pos _
  · rw [hfree l fun V hV => hl ⟨V, hV⟩]
    exact Nat.one_pos

/-- Every step of looking for a variable leads to a lighter term. -/
theorem Weighs.lt {ω : Leaf → Nat} (hω : st.Weighs s ω) (hs : st.Resolvable s)
    (hT : st.Denotes t T) (h : st.Leads s t u) :
    ∃ U, st.Denotes u U ∧ U.weight ω < T.weight ω := by
  cases h with
  | child hc =>
    obtain ⟨C, hC, hcC⟩ := hT.child hc
    exact ⟨C, hcC, Tree.weight_lt_of_mem ω hC⟩
  | value hx _ hv =>
    obtain ⟨V, hV⟩ := hs.value_denotes hv
    rw [hT.eq_leaf hx, Tree.weight_leaf, hω.bound _ V ⟨t, u, hx, hv, hV⟩]
    exact ⟨V, hV, Nat.lt_succ_self _⟩

/-- No way of steps comes back to its start. -/
theorem Resolvable.not_leads_back (hs : st.Resolvable s) (hT : st.Denotes t T) :
    ¬ TransGen (st.Leads s) t t := by
  obtain ⟨ω, hω⟩ := hs.acyclic.exists_weighs
  refine not_transGen_self (M := fun t w => ∃ T, st.Denotes t T ∧ T.weight ω = w) ?_ ?_
    ⟨T, hT, rfl⟩
  · rintro t m n ⟨T, hT, rfl⟩ ⟨U, hU, rfl⟩
    rw [denotes_unique hT hU]
  · rintro t u m ⟨T, hT, rfl⟩ h
    obtain ⟨U, hU, hlt⟩ := hω.lt hs hT h
    exact ⟨U.weight ω, hlt, U, hU, rfl⟩

/-! ## The check -/

/-- How many terms are met when one looks through a term. -/
noncomputable def span (st : TermStore) (s : Subst) (t : TermId) : Nat :=
  reachCount (st.Leads s) st.known t

/-- Every step leads to a term in which fewer terms are met. -/
theorem Resolvable.span_lt (hs : st.Resolvable s) (hT : st.Denotes t T) (h : st.Leads s t u) :
    st.span s u < st.span s t := by
  obtain ⟨n, hn, -, -⟩ := hT.node
  exact reachCount_lt h (mem_known hn) (hs.not_leads_back hT)

/-- Another term is reached by a first step and further ones. -/
theorem reaches_iff (h : t ≠ v) : st.Reaches s t v ↔ ∃ u, st.Leads s t u ∧ st.Reaches s u v := by
  rw [Reaches, ReflTransGen.cases_head_iff, or_iff_right h]

/-- Given more levels than terms are met, the occurs check answers, and says
whether the variable is reached. -/
theorem occursWithin_of_denotes {d : Nat} (hs : st.Resolvable s) (hT : st.Denotes t T)
    (hd : st.span s t < d) :
    ∃ b, st.occursWithin s v d t = .ok b ∧ (b = true ↔ st.Reaches s t v) := by
  induction d generalizing t T with
  | zero => exact absurd hd (Nat.not_lt_zero _)
  | succ d ih =>
    rw [occursWithin]
    by_cases htv : t = v
    · exact ⟨true, by rw [if_pos htv], by simp [htv, Reaches, ReflTransGen.refl]⟩
    -- a step goes to where fewer terms are met, so the levels that are left are enough
    have step : ∀ u, st.Leads s t u →
        ∃ b, st.occursWithin s v d u = .ok b ∧ (b = true ↔ st.Reaches s u v) := by
      intro u hu
      obtain ⟨ω, hω⟩ := hs.acyclic.exists_weighs
      obtain ⟨U, hU, -⟩ := hω.lt hs hT hu
      exact ih hU (Nat.lt_of_lt_of_le (hs.span_lt hT hu) (Nat.le_of_lt_succ hd))
    rw [if_neg htv, reaches_iff htv]
    cases T with
    | leaf l =>
      have hnode := denotes_leaf_iff.mp hT
      rw [node_of_node? hnode]
      simp only [leads_leaf_iff hnode] at step ⊢
      by_cases hl : l.isVar = true
      · cases hv : s.get? t with
        | none => exact ⟨false, by simp [bind, Except.bind, pure, Except.pure], by simp⟩
        | some value =>
          obtain ⟨b, hb, hiff⟩ := step value ⟨hl, hv⟩
          exact ⟨b, by simpa [bind, Except.bind, hl, hv] using hb, by simp [hl, hiff]⟩
      · exact ⟨false, by simp [bind, Except.bind, pure, Except.pure, hl], by simp [hl]⟩
    | app op first rest =>
      obtain ⟨c, cs, hnode, -⟩ := denotes_app_iff.mp hT
      rw [node_of_node? hnode]
      simp only [leads_app_iff hnode] at step ⊢
      have hall : ∀ a ∈ (c :: cs).reverse, _ := fun a ha => step a (List.mem_reverse.mp ha)
      obtain ⟨b, hb, hiff⟩ := anyM_ok hall
      exact ⟨b, hb, by simpa only [List.mem_reverse] using hiff⟩

/-- Over an acyclic chain the check answers, and says whether the
variable is reached. -/
theorem occurs_of_denotes (hs : st.Resolvable s) (hT : st.Denotes t T) (v : TermId) :
    ∃ b, st.occurs s v t = .ok b ∧ (b = true ↔ st.Reaches s t v) :=
  occursWithin_of_denotes hs hT
    (Nat.lt_succ_of_le ((reachCount_le _ _).trans st.card_known_le))

/-! ## A variable that is not reached -/

/-- What stands in a term is reached, whatever the bindings. -/
theorem Subterm.reaches (h : st.Subterm u t) : st.Reaches s t u :=
  ReflTransGen.mono (fun _ _ hc => .child hc) _ _ h

/-- Leaves that follow from one another over the bindings are reached
from one another. -/
theorem reaches_of_refers {k : Leaf} (hk : ∀ l, (∃ V, st.Binds s l V) → l.isVar = true)
    (h : ReflTransGen (st.Refers s) l k) (ht : st.node? t = some (.leaf l)) :
    ∃ u, st.node? u = some (.leaf k) ∧ st.Reaches s t u := by
  induction h with
  | refl => exact ⟨t, ht, .refl⟩
  | tail _ href ih =>
    obtain ⟨u, hu, hreach⟩ := ih
    obtain ⟨V, ⟨x, v, hx, hv, hV⟩, hmem⟩ := href
    obtain ⟨w, hw, hsub⟩ := hV.exists_leaf hmem
    have hvar := hk _ ⟨V, x, v, hx, hv, hV⟩
    rw [node?_inj hx hu] at hv
    exact ⟨w, hw, (hreach.tail (.value hu hvar hv)).trans hsub.reaches⟩

/-- An admissible chain binds variables only. -/
theorem Admissible.isVar_of_binds (hs : st.Admissible s) {V : Tree} (h : st.Binds s l V) :
    l.isVar = true := by
  obtain ⟨x, v, hx, hv, -⟩ := h
  obtain ⟨k, hk, hvar⟩ := hs.key_var hv
  rw [hx] at hk
  cases hk
  exact hvar

/-- A variable may be bound to a term that does not reach it. -/
theorem Admissible.bind {x b : TermId} (hs : st.Admissible s) (hvar : st.IsVariable x)
    (hb : st.WellFormed b) (check : ¬ st.Reaches s b x) : st.Admissible (s.bind x b) where
  key_var := Subst.forall_get?_bind hvar hs.key_var
  value_wf := Subst.forall_get?_bind hb hs.value_wf
  acyclic := by
    obtain ⟨l, hx, -⟩ := hvar
    refine acyclic_of_edges_from (x := l) ?_ hs.acyclic ?_
    · rintro a c ⟨V, hV, hc⟩ hne
      rw [binds_bind_iff hx, if_neg hne] at hV
      exact ⟨V, hV, hc⟩
    · rintro k ⟨V, hV, hk⟩ hback
      rw [binds_bind_iff hx, if_pos rfl] at hV
      obtain ⟨w, hw, hsub⟩ := hV.exists_leaf hk
      obtain ⟨u, hu, hreach⟩ :=
        reaches_of_refers (fun a ⟨_, ha⟩ => hs.isVar_of_binds ha) hback hw
      rw [node?_inj hu hx] at hreach
      exact check (hsub.reaches.trans hreach)

/-! ## A variable that is reached -/

/-- Under a map that agrees with the bindings, what is reached is no
larger than what it is reached from. -/
theorem Reaches.weight_le {θ : Leaf → Tree} (hs : st.Resolvable s) (hθ : st.Respects s θ)
    (ω : Leaf → Nat) (h : st.Reaches s t u) (hT : st.Denotes t T) :
    ∃ U, st.Denotes u U ∧ (U.subst θ).weight ω ≤ (T.subst θ).weight ω := by
  induction h with
  | refl => exact ⟨T, hT, le_rfl⟩
  | tail _ hstep ih =>
    obtain ⟨U, hU, hle⟩ := ih
    cases hstep with
    | child hc =>
      obtain ⟨C, hC, hcC⟩ := hU.child hc
      exact ⟨C, hcC, ((Tree.weight_lt_of_mem ω (Tree.subst_mem_children hC)).trans_le hle).le⟩
    | value hx _ hv =>
      obtain ⟨V, hV⟩ := hs.value_denotes hv
      refine ⟨V, hV, ?_⟩
      rwa [hU.eq_leaf hx, Tree.subst_leaf, hθ ⟨_, _, hx, hv, hV⟩] at hle

end TermStore

end TypedTerms
