import TypedTerms.Proofs.Unify.Correct
import TypedTerms.Term.Walk

/-!
# What stands in a replaced term

Whether a variable stands in a term can be asked of the term that
replacing builds, by looking through it, or of the term and the bindings,
by the occurs check. The two agree: a variable without a binding is
reached over the bindings exactly when it is a leaf of the tree under
their resolution (`reaches_iff_mem_leaves`), and that is what looking
through the built term finds (`occurs_iff_contains_replace`).

Looking through a term is the occurs check under no bindings, so nothing
is proved of it twice.
-/

namespace TypedTerms.TermStore

open Relation

variable {st : TermStore} {s : Subst} {t u v x : TermId} {T : Tree} {l k : Leaf} {σ : Leaf → Tree}
  {d : Nat}

/-! ## The leaves of a term -/

/-- Steps that each put their own finds for one term behind what was found
before make a run that does so for all the terms, in order. -/
theorem exists_foldlM_gather {gather : Array TermId → TermId → Except Violation (Array TermId)}
    {α : Type} {R : α → List TermId → Prop} {ts : List TermId} {as : List α}
    (h : List.Forall₂ (fun t a => ∃ xs : List TermId,
      (∀ found, gather found t = .ok (found ++ xs.toArray)) ∧ R a xs) ts as) :
    ∃ owns : List (List TermId),
      (∀ found, ts.foldlM gather found = .ok (found ++ owns.flatten.toArray)) ∧
        List.Forall₂ R as owns := by
  induction h with
  | nil => exact ⟨[], fun found => by simp [pure, Except.pure], .nil⟩
  | cons hfirst _ ih =>
    obtain ⟨xs, hxs, hR⟩ := hfirst
    obtain ⟨owns, howns, hrest⟩ := ih
    refine ⟨xs :: owns, fun found => ?_, .cons hR hrest⟩
    rw [List.foldlM_cons, hxs]
    show List.foldlM gather (found ++ xs.toArray) _ = _
    simp [howns]

/-- Within as many levels as the tree has, the walk puts the leaves of the
tree behind what was found before, whatever that is. -/
theorem leavesWithin_of_denotes (h : st.Denotes t T) (hd : T.depth ≤ d) :
    ∃ xs : List TermId, (∀ found, st.leavesWithin d found t = .ok (found ++ xs.toArray)) ∧
      List.Forall₂ (fun x l => st.node? x = some (.leaf l)) xs T.leaves := by
  refine h.within_induct (P := fun d t T => ∃ xs : List TermId,
    (∀ found, st.leavesWithin d found t = .ok (found ++ xs.toArray)) ∧
      List.Forall₂ (fun x l => st.node? x = some (.leaf l)) xs T.leaves) hd ?_ ?_
  · intro d u l hu
    refine ⟨[u], fun found => ?_, .cons hu .nil⟩
    rw [leavesWithin, children_of_node? hu]
    simp [bind, Except.bind, pure, Except.pure, Node.children]
  · intro d u op c cs first rest hu _ hbelow
    obtain ⟨owns, howns, hleaves⟩ := exists_foldlM_gather hbelow
    refine ⟨owns.flatten, fun found => ?_, ?_⟩
    · rw [leavesWithin, children_of_node? hu]
      exact howns found
    · rw [Tree.leaves, Tree.fold_app]
      exact List.rel_flatten (List.forall₂_map_right_iff.mpr hleaves.flip)

/-- Walking through a term finds the leaves of its tree, in order. -/
theorem leaves_of_denotes (h : st.Denotes t T) : ∃ xs, st.leaves t = .ok xs ∧
    List.Forall₂ (fun x l => st.node? x = some (.leaf l)) xs T.leaves := by
  obtain ⟨xs, hxs, hleaves⟩ := leavesWithin_of_denotes h (h.depth_le_size.trans (Nat.le_succ _))
  refine ⟨xs, ?_, hleaves⟩
  rw [leaves, depthLimit, hxs]
  simp [bind, Except.bind, pure, Except.pure]

/-- A leaf is among the terms found exactly when it is among the leaves that
they stand for. -/
theorem mem_iff_of_leaves {xs : List TermId} {ls : List Leaf}
    (h : List.Forall₂ (fun x l => st.node? x = some (.leaf l)) xs ls)
    (hx : st.node? x = some (.leaf l)) : x ∈ xs ↔ l ∈ ls := by
  constructor
  · intro hmem
    obtain ⟨k, hk, hxk⟩ := exists_of_mem_left h hmem
    cases hx.symm.trans hxk
    exact hk
  · intro hmem
    obtain ⟨y, hy, hyl⟩ := exists_of_mem_left h.flip hmem
    exact node?_inj hx hyl ▸ hy

/-! ## Looking through a term -/

/-- Within any number of levels, looking through a term is the occurs check
under no bindings; a leaf has no child and no value to go on to. -/
theorem containsWithin_eq_occursWithin (st : TermStore) (v : TermId) (d : Nat) (t : TermId) :
    st.containsWithin v d t = st.occursWithin .empty v d t := by
  induction d generalizing t with
  | zero => rfl
  | succ d ih =>
    rw [containsWithin, occursWithin]
    split
    · rfl
    · have hbelow : st.containsWithin v d = st.occursWithin .empty v d := funext ih
      rw [children, hbelow]
      cases st.node t with
      | error e => rfl
      | ok n =>
        cases n with
        | leaf l =>
          cases h : l.isVar <;> simp [bind, Except.bind, pure, Except.pure, Node.children, h]
        | app op first rest => rfl

/-- Looking through a term is the occurs check under no bindings. -/
theorem contains_eq_occurs (st : TermStore) (t v : TermId) :
    st.contains t v = st.occurs .empty v t := st.containsWithin_eq_occursWithin v _ t

/-- Without bindings, the terms that are met are those that stand in the
term. -/
theorem reaches_empty_iff : st.Reaches .empty t v ↔ st.Subterm v t := by
  refine ⟨ReflTransGen.mono ?_ t v, Subterm.reaches⟩
  intro a b h
  cases h with
  | child hc => exact hc
  | value _ _ hv => cases hv

/-- Looking through a term answers, and says whether the other stands
there. -/
theorem contains_of_denotes (h : st.Denotes t T) (v : TermId) :
    ∃ b, st.contains t v = .ok b ∧ (b = true ↔ st.Subterm v t) := by
  rw [contains_eq_occurs, ← reaches_empty_iff]
  exact occurs_of_denotes (admissible_empty st).resolvable h v

/-- A leaf stands in a term exactly when it is a leaf of the tree. -/
theorem subterm_iff_mem_leaves (h : st.Denotes t T) (hx : st.node? x = some (.leaf l)) :
    st.Subterm x t ↔ l ∈ T.leaves := by
  refine ⟨h.mem_leaves hx, fun hl => ?_⟩
  obtain ⟨y, hy, hsub⟩ := h.exists_leaf hl
  exact node?_inj hx hy ▸ hsub

/-! ## Looking through the bindings -/

/-- A free leaf that is reached stands in the tree under the
resolution. -/
theorem Reaches.mem_leaves (h : st.Reaches s t v) (hs : st.Resolvable s) (hσ : st.Resolves s σ)
    (hv : st.node? v = some (.leaf l)) (free : s.get? v = none) (hT : st.Denotes t T) :
    l ∈ (T.subst σ).leaves := by
  induction h using ReflTransGen.head_induction_on generalizing T with
  | refl =>
    rw [hT.eq_leaf hv, Tree.subst_leaf, hσ.free (not_binds_of_free hv free)]
    exact Tree.mem_leaves_leaf.mpr rfl
  | head hstep _ ih =>
    cases hstep with
    | child hc =>
      obtain ⟨C, hC, hcC⟩ := hT.child hc
      exact Tree.mem_leaves_of_mem_children (Tree.subst_mem_children hC) (ih hcC)
    | value hx _ hval =>
      obtain ⟨V, hV⟩ := hs.value_denotes hval
      rw [hT.eq_leaf hx, Tree.subst_leaf, hσ.respects ⟨_, _, hx, hval, hV⟩]
      exact ih hV

/-- What the resolution puts in the place of a leaf is reached from the
leaf. -/
theorem Resolves.reaches_of_leaf (hσ : st.Resolves s σ) (hs : st.Resolvable s)
    (hvar : ∀ ⦃x v⦄, s.get? x = some v → st.IsVariable x) (hv : st.node? v = some (.leaf l))
    (hl : l ∈ (σ k).leaves) (hx : st.node? x = some (.leaf k)) : st.Reaches s x v := by
  refine hσ.induct hs.acyclic (P := fun k T => l ∈ T.leaves → ∀ ⦃x⦄,
    st.node? x = some (.leaf k) → st.Reaches s x v) ?_ ?_ k hl hx
  · rintro k V ⟨y, w, hy, hw, hden⟩ ih hl x hx
    obtain ⟨k', hk', hl⟩ := Tree.mem_leaves_subst.mp hl
    obtain ⟨z, hz, hsub⟩ := hden.exists_leaf hk'
    obtain ⟨_, hy', hkvar⟩ := hvar hw
    cases hy.symm.trans hy'
    cases node?_inj hx hy
    exact .head (.value hx hkvar hw) (hsub.reaches.trans (ih k' hk' hl hz))
  · intro k _ hl x hx
    obtain rfl := Tree.mem_leaves_leaf.mp hl
    exact node?_inj hx hv ▸ .refl

/-- A leaf without a binding is reached over the bindings of variables
exactly when it stands in the tree under their resolution. -/
theorem reaches_iff_mem_leaves (hs : st.Resolvable s) (hσ : st.Resolves s σ)
    (hvar : ∀ ⦃x v⦄, s.get? x = some v → st.IsVariable x) (hv : st.node? v = some (.leaf l))
    (free : s.get? v = none) (hT : st.Denotes t T) :
    st.Reaches s t v ↔ l ∈ (T.subst σ).leaves := by
  refine ⟨fun h => h.mem_leaves hs hσ hv free hT, fun hl => ?_⟩
  obtain ⟨k, hk, hl⟩ := Tree.mem_leaves_subst.mp hl
  obtain ⟨x, hx, hsub⟩ := hT.exists_leaf hk
  exact hsub.reaches.trans (hσ.reaches_of_leaf hs hvar hv hl hx)

/-- The occurs check agrees with building the replaced term. For every
chain without a circle that binds variables, and every variable that it
leaves free, the check answers, replacing answers, and the check says yes
exactly when the variable is found in the replaced term, which is when it
is one of its leaves. -/
theorem occurs_iff_contains_replace (hvar : ∀ ⦃x v⦄, s.get? x = some v → st.IsVariable x)
    (hval : ∀ ⦃x v⦄, s.get? x = some v → ∃ V, st.Denotes v V) (hs : st.Acyclic s)
    (ht : st.WellFormed t) (hv : st.IsVariable v) (free : s.get? v = none) :
    ∃ b r st' xs, st.occurs s v t = .ok b ∧ (s.replace t).on st = (.ok r, st') ∧
      st'.contains r v = .ok b ∧ st'.leaves r = .ok xs ∧ (b = true ↔ v ∈ xs) := by
  have hres : st.Resolvable s :=
    ⟨fun x v h => (hvar h).imp fun _ hl => hl.1, hval, hs⟩
  obtain ⟨σ, hσ⟩ := hs.exists_resolves
  obtain ⟨T, hT, -⟩ := ht
  obtain ⟨l, hl, -⟩ := hv
  obtain ⟨r, st', hr, hst, hrT⟩ := Subst.yields_replace hres hσ hT (extends_refl st)
  obtain ⟨b, hb, hreach⟩ := occurs_of_denotes hres hT v
  obtain ⟨c, hc, hsub⟩ := contains_of_denotes hrT v
  obtain ⟨xs, hxs, hleaves⟩ := leaves_of_denotes hrT
  have hbl : b = true ↔ l ∈ (T.subst σ).leaves :=
    hreach.trans (reaches_iff_mem_leaves hres hσ hvar hl free hT)
  have hcl : c = true ↔ l ∈ (T.subst σ).leaves :=
    hsub.trans (subterm_iff_mem_leaves hrT (hst hl))
  have hcb : c = b := Bool.eq_iff_iff.mpr (hcl.trans hbl.symm)
  refine ⟨b, r, st', xs, hb, hr, hcb ▸ hc, hxs, ?_⟩
  exact hbl.trans (mem_iff_of_leaves hleaves (hst hl)).symm

/-- Under `x ↦ g(y)` the variable `y` is a leaf of what `f(x, z)` is
replaced by. -/
theorem occurs_iff_contains_replace_sample :
    sample.occurs sampleChain ⟨1⟩ ⟨8⟩ = .ok true ∧
      ∃ b r st' xs, sample.occurs sampleChain ⟨1⟩ ⟨8⟩ = .ok b ∧
        (sampleChain.replace ⟨8⟩).on sample = (.ok r, st') ∧ st'.contains r ⟨1⟩ = .ok b ∧
        st'.leaves r = .ok xs ∧ (b = true ↔ ⟨1⟩ ∈ xs) :=
  have hs := respects_sampleChain_iff.1
  ⟨rfl, occurs_iff_contains_replace hs.key_var hs.resolvable.value_denotes hs.acyclic (by decide)
    ⟨_, rfl, rfl⟩ rfl⟩

end TypedTerms.TermStore
