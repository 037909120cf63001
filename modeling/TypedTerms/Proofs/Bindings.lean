import TypedTerms.Proofs.Reading
import TypedTerms.Subst.Resolve

/-!
# Bindings read as trees

A chain of bindings binds leaves to trees, the newest binding of each
leaf being the one that counts. A leaf refers to the leaves of its value,
and the chain is acyclic when no leaf comes back to itself that way.

An acyclic chain can be followed to its end. `exists_reading` says so for
any way of reading trees by a fold, and its case for trees themselves is
the resolution: the one map from leaves to trees that agrees with every
binding and moves no other leaf. Every map that agrees with the bindings
factors through it (`Resolves.subst_subst`).
-/

namespace TypedTerms

open Relation

namespace Subst

theorem mem_of_get? {s : Subst} {k v : TermId} (h : s.get? k = some v) : (k, v) ∈ s.bindings := by
  obtain ⟨newer, older, hs, -⟩ := List.lookup_eq_some_iff.mp h
  rw [hs]
  exact List.mem_append_right _ List.mem_cons_self

/-- The free terms are those that are no key of the chain. -/
theorem get?_eq_none_iff {s : Subst} {k : TermId} :
    s.get? k = none ↔ k ∉ s.bindings.map Prod.fst := by
  simp only [get?, List.lookup_eq_none_iff, List.mem_map, bne_iff_ne]
  constructor
  · rintro h ⟨p, hp, hk⟩
    exact h p hp hk.symm
  · intro h p hp hk
    exact h ⟨p, hp, hk.symm⟩

theorem get?_bind_self (s : Subst) (k v : TermId) : (s.bind k v).get? k = some v := by
  rw [get?_bind, if_pos rfl]

/-- What holds of a new binding and of the old ones holds of all. -/
theorem forall_get?_bind {s : Subst} {k w : TermId} {P : TermId → TermId → Prop} (new : P k w)
    (old : ∀ ⦃x v⦄, s.get? x = some v → P x v) ⦃x v : TermId⦄
    (h : (s.bind k w).get? x = some v) : P x v := by
  rw [get?_bind] at h
  split at h
  · next hxk =>
    cases h
    exact hxk ▸ new
  · exact old h

/-- What is free with one binding more was free without it. -/
theorem get?_of_get?_bind_eq_none {s : Subst} {k v x : TermId} (h : (s.bind k v).get? x = none) :
    s.get? x = none := by
  rw [get?_bind] at h
  split at h
  · cases h
  · exact h

end Subst

namespace TermStore

variable {st st' : TermStore} {s : Subst} {l k : Leaf} {V : Tree}

/-- The leaf is bound, to a term that stands for the tree. -/
def Binds (st : TermStore) (s : Subst) (l : Leaf) (V : Tree) : Prop :=
  ∃ x v, st.node? x = some (.leaf l) ∧ s.get? x = some v ∧ st.Denotes v V

/-- A leaf is bound to one tree at most, since only its newest binding
counts. -/
theorem Binds.unique {W : Tree} (h : st.Binds s l V) (h' : st.Binds s l W) : V = W := by
  obtain ⟨x, v, hx, hv, hV⟩ := h
  obtain ⟨y, w, hy, hw, hW⟩ := h'
  rw [node?_inj hx hy, hw] at hv
  cases hv
  exact denotes_unique hV hW

/-- The newest value of a leaf is what the leaf is bound to. -/
theorem Binds.denotes {x v : TermId} (h : st.Binds s l V) (hx : st.node? x = some (.leaf l))
    (hv : s.get? x = some v) : st.Denotes v V := by
  obtain ⟨y, w, hy, hw, hV⟩ := h
  rw [node?_inj hy hx, hv] at hw
  cases hw
  exact hV

/-- A chain that binds something is not empty. -/
theorem Binds.size_pos (h : st.Binds s l V) : 0 < s.size := by
  obtain ⟨x, v, -, hv, -⟩ := h
  exact List.length_pos_of_mem (Subst.mem_of_get? hv)

/-- A leaf whose term has no binding is bound to nothing. -/
theorem not_binds_of_free {x : TermId} (hx : st.node? x = some (.leaf l))
    (free : s.get? x = none) (V : Tree) : ¬ st.Binds s l V := by
  rintro ⟨y, w, hy, hw, -⟩
  rw [node?_inj hy hx, free] at hw
  cases hw

/-- The second leaf stands in the value of the first. -/
def Refers (st : TermStore) (s : Subst) (l k : Leaf) : Prop := ∃ V, st.Binds s l V ∧ k ∈ V.leaves

/-- No leaf comes back to itself from value to value. -/
def Acyclic (st : TermStore) (s : Subst) : Prop := ∀ l, ¬ TransGen (st.Refers s) l l

/-- A chain that binds nothing else than an acyclic one is acyclic. -/
theorem Acyclic.of_binds {s' : Subst} (hs : st.Acyclic s)
    (h : ∀ ⦃l V⦄, st'.Binds s' l V → st.Binds s l V) : st'.Acyclic s' := by
  intro l circle
  refine hs l (TransGen.mono ?_ l l circle)
  rintro a b ⟨V, hV, hb⟩
  exact ⟨V, h hV, hb⟩

/-- A chain that can be followed to its end: leaves are bound, to terms
that stand for trees, and no leaf comes back to itself. -/
structure Resolvable (st : TermStore) (s : Subst) : Prop where
  key_leaf : ∀ ⦃x v⦄, s.get? x = some v → ∃ l, st.node? x = some (.leaf l)
  value_denotes : ∀ ⦃x v⦄, s.get? x = some v → ∃ V, st.Denotes v V
  acyclic : st.Acyclic s

/-- The term is a variable. -/
def IsVariable (st : TermStore) (t : TermId) : Prop :=
  ∃ l, st.node? t = some (.leaf l) ∧ l.isVar = true

/-- A chain that unification may start from: every key is a variable,
every value is well formed, and no variable comes back to itself from
value to value. Of several bindings of one key only the newest counts. -/
structure Admissible (st : TermStore) (s : Subst) : Prop where
  key_var : ∀ ⦃x v⦄, s.get? x = some v → st.IsVariable x
  value_wf : ∀ ⦃x v⦄, s.get? x = some v → st.WellFormed v
  acyclic : st.Acyclic s

/-- An admissible chain can be followed to its end. -/
theorem Admissible.resolvable (hs : st.Admissible s) : st.Resolvable s where
  key_leaf _ _ h :=
    have ⟨l, hl, _⟩ := hs.key_var h
    ⟨l, hl⟩
  value_denotes _ _ h :=
    have ⟨V, hV, _⟩ := hs.value_wf h
    ⟨V, hV⟩
  acyclic := hs.acyclic

theorem not_binds_empty : ¬ st.Binds .empty l V := by
  rintro ⟨x, v, -, hv, -⟩
  cases hv

/-- Unification may start from no bindings. -/
theorem admissible_empty (st : TermStore) : st.Admissible .empty where
  key_var _ _ h := nomatch h
  value_wf _ _ h := nomatch h
  acyclic _ h := by
    obtain ⟨_, ⟨_, hb, _⟩, _⟩ := TransGen.head'_iff.mp h
    exact not_binds_empty hb

/-! ## One binding more -/

/-- With one binding more its key is bound to the new value, and every other
leaf as before. -/
theorem binds_bind_iff {x b : TermId} {k : Leaf} {V : Tree} (hx : st.node? x = some (.leaf l)) :
    st.Binds (s.bind x b) k V ↔ if k = l then st.Denotes b V else st.Binds s k V := by
  unfold Binds
  by_cases hkl : k = l
  · subst hkl
    rw [if_pos rfl]
    constructor
    · rintro ⟨y, v, hy, hv, hV⟩
      rw [node?_inj hy hx, Subst.get?_bind, if_pos rfl] at hv
      cases hv
      exact hV
    · exact fun hV => ⟨x, b, hx, Subst.get?_bind_self s x b, hV⟩
  · rw [if_neg hkl]
    have hne : ∀ y, st.node? y = some (.leaf k) → y ≠ x := by
      rintro y hy rfl
      rw [hx] at hy
      cases hy
      exact hkl rfl
    constructor
    · rintro ⟨y, v, hy, hv, hV⟩
      rw [Subst.get?_bind, if_neg (hne y hy)] at hv
      exact ⟨y, v, hy, hv, hV⟩
    · rintro ⟨y, v, hy, hv, hV⟩
      exact ⟨y, v, hy, by rwa [Subst.get?_bind, if_neg (hne y hy)], hV⟩

/-- A binding of a free term hides no other. -/
theorem Binds.bind {x b : TermId} (h : st.Binds s k V) (hx : st.node? x = some (.leaf l))
    (free : s.get? x = none) : st.Binds (s.bind x b) k V := by
  have hkl : k ≠ l := by
    rintro rfl
    exact not_binds_of_free hx free V h
  rw [binds_bind_iff hx, if_neg hkl]
  exact h

/-! ## Going along the bindings -/

/-- The leaves that have a binding. -/
def boundLeaves (st : TermStore) (s : Subst) : Finset Leaf :=
  (s.bindings.filterMap fun b => st.leaf? b.1).toFinset

theorem card_boundLeaves_le (st : TermStore) (s : Subst) : (st.boundLeaves s).card ≤ s.size :=
  (List.toFinset_card_le _).trans (List.length_filterMap_le _ _)

theorem Binds.mem_boundLeaves (h : st.Binds s l V) : l ∈ st.boundLeaves s := by
  obtain ⟨x, v, hx, hv, -⟩ := h
  refine List.mem_toFinset.mpr (List.mem_filterMap.mpr ⟨(x, v), Subst.mem_of_get? hv, ?_⟩)
  rw [leaf?, hx]

/-- How many bindings a leaf may still be followed along. -/
noncomputable def height (st : TermStore) (s : Subst) (l : Leaf) : Nat :=
  reachCount (st.Refers s) (st.boundLeaves s) l

theorem height_le_size (st : TermStore) (s : Subst) (l : Leaf) : st.height s l ≤ s.size :=
  (reachCount_le _ _).trans (st.card_boundLeaves_le s)

/-- The leaves of a value can be followed along fewer bindings than the
bound leaf. -/
theorem Acyclic.height_lt (hs : st.Acyclic s) (h : st.Binds s l V) (hk : k ∈ V.leaves) :
    st.height s k < st.height s l :=
  reachCount_lt ⟨V, h, hk⟩ h.mem_boundLeaves (hs l)

/-- Without a circle, going from a leaf to the leaves of its value comes to
an end. -/
theorem Acyclic.wellFounded (hs : st.Acyclic s) :
    WellFounded fun k l => st.Refers s l k := by
  refine Subrelation.wf ?_ (measure (st.height s)).wf
  rintro k l ⟨V, hb, hk⟩
  exact hs.height_lt hb hk

section Reading

variable {α : Type} (leaf : Leaf → α) (app : Operator → α → List α → α) (deref : α → α)

open Classical in
/-- What a leaf is read as, from what the leaves of its value are read
as. -/
noncomputable def readLeaf (st : TermStore) (s : Subst) (l : Leaf)
    (below : ∀ k, st.Refers s l k → α) : α :=
  if hl : ∃ V, st.Binds s l V then
    deref (hl.choose.fold (fun k => if hk : st.Refers s l k then below k hk else leaf k) app)
  else leaf l

/-- Along an acyclic chain every way of reading trees extends to bound
leaves: they are read as their values are, and `deref` says what the
binding itself adds. -/
theorem Acyclic.exists_reading (hs : st.Acyclic s) :
    ∃ f : Leaf → α, (∀ l V, st.Binds s l V → f l = deref (V.fold f app)) ∧
      ∀ l, (∀ V, ¬ st.Binds s l V) → f l = leaf l := by
  refine ⟨hs.wellFounded.fix (readLeaf leaf app deref st s), ?_, ?_⟩
  · intro l V hV
    have hl : ∃ V, st.Binds s l V := ⟨V, hV⟩
    rw [WellFounded.fix_eq, readLeaf, dif_pos hl, hl.choose_spec.unique hV]
    congr 1
    apply Tree.fold_congr
    intro k hk
    rw [dif_pos ⟨V, hV, hk⟩]
  · intro l hl
    rw [WellFounded.fix_eq, readLeaf, dif_neg fun ⟨V, hV⟩ => hl V hV]

end Reading

/-! ## Agreeing with the bindings -/

/-- Every bound leaf and its value become one tree under `θ`. -/
def Respects (st : TermStore) (s : Subst) (θ : Leaf → Tree) : Prop :=
  ∀ ⦃l V⦄, st.Binds s l V → θ l = V.subst θ

/-- `σ` follows every binding to its end and moves no other leaf. -/
structure Resolves (st : TermStore) (s : Subst) (σ : Leaf → Tree) : Prop where
  respects : st.Respects s σ
  free : ∀ ⦃l⦄, (∀ V, ¬ st.Binds s l V) → σ l = .leaf l

/-- Every chain without a circle resolves to some map of leaves. -/
theorem Acyclic.exists_resolves (hs : st.Acyclic s) : ∃ σ, st.Resolves s σ := by
  obtain ⟨σ, hbound, hfree⟩ := hs.exists_reading Tree.leaf Tree.app id
  exact ⟨σ, hbound, hfree⟩

/-- Going along the chain: what holds of a free leaf, and of a bound one
if it holds of the leaves of its value, holds of every leaf and what it is
resolved to. -/
theorem Resolves.induct {σ : Leaf → Tree} (hσ : st.Resolves s σ) (hs : st.Acyclic s)
    {P : Leaf → Tree → Prop}
    (bound : ∀ l V, st.Binds s l V → (∀ k ∈ V.leaves, P k (σ k)) → P l (V.subst σ))
    (free : ∀ l, (∀ V, ¬ st.Binds s l V) → P l (.leaf l)) (l : Leaf) : P l (σ l) := by
  induction l using hs.wellFounded.induction with
  | _ l ih =>
    by_cases hl : ∃ V, st.Binds s l V
    · obtain ⟨V, hV⟩ := hl
      rw [hσ.respects hV]
      exact bound l V hV fun k hk => ih k ⟨V, hV, hk⟩
    · have hfree : ∀ V, ¬ st.Binds s l V := fun V hV => hl ⟨V, hV⟩
      rw [hσ.free hfree]
      exact free l hfree

/-- Whatever comes after a resolution agrees with the bindings. -/
theorem Resolves.respects_subst {σ : Leaf → Tree} (hσ : st.Resolves s σ) (θ : Leaf → Tree) :
    st.Respects s fun l => (σ l).subst θ := by
  intro l V hV
  show (σ l).subst θ = _
  rw [hσ.respects hV, Tree.subst_subst]

/-- A map that agrees with the bindings makes one tree of every leaf and
its resolution. -/
theorem Resolves.subst_leaf {σ θ : Leaf → Tree} (hσ : st.Resolves s σ) (hs : st.Acyclic s)
    (hθ : st.Respects s θ) (l : Leaf) : (σ l).subst θ = θ l := by
  refine hσ.induct hs (P := fun l T => T.subst θ = θ l) ?_ (fun l _ => Tree.subst_leaf θ l) l
  intro l V hV ih
  calc (V.subst σ).subst θ = V.subst fun k => (σ k).subst θ := Tree.subst_subst σ θ V
    _ = V.subst θ := Tree.subst_congr ih
    _ = θ l := (hθ hV).symm

/-- A map that agrees with the bindings factors through the resolution. -/
theorem Resolves.subst_subst {σ θ : Leaf → Tree} (hσ : st.Resolves s σ) (hs : st.Acyclic s)
    (hθ : st.Respects s θ) (t : Tree) : (t.subst σ).subst θ = t.subst θ :=
  (Tree.subst_subst σ θ t).trans (Tree.subst_congr fun l _ => hσ.subst_leaf hs hθ l)

/-! ## Growth -/

/-- While the store grows, the bindings keep their meaning. -/
theorem Resolvable.binds_of_extends (hs : st.Resolvable s) (hst : st.Extends st') :
    st'.Binds s l V ↔ st.Binds s l V := by
  constructor
  · rintro ⟨x, v, hx, hv, hV⟩
    obtain ⟨k, hk⟩ := hs.key_leaf hv
    obtain ⟨W, hW⟩ := hs.value_denotes hv
    rw [hst hk] at hx
    cases hx
    exact ⟨x, v, hk, hv, denotes_unique (denotes_of_extends hst hW) hV ▸ hW⟩
  · rintro ⟨x, v, hx, hv, hV⟩
    exact ⟨x, v, hst hx, hv, denotes_of_extends hst hV⟩

/-- In a store that has grown the chain still goes in no circle. -/
theorem Resolvable.acyclic_of_extends (hs : st.Resolvable s) (hst : st.Extends st') :
    st'.Acyclic s :=
  hs.acyclic.of_binds fun _ _ hV => (hs.binds_of_extends hst).mp hV

/-- A chain that can be followed to its end still can when the store has
grown. -/
theorem Resolvable.of_extends (hs : st.Resolvable s) (hst : st.Extends st') : st'.Resolvable s where
  key_leaf _ _ hv :=
    have ⟨l, hl⟩ := hs.key_leaf hv
    ⟨l, hst hl⟩
  value_denotes _ _ hv :=
    have ⟨V, hV⟩ := hs.value_denotes hv
    ⟨V, denotes_of_extends hst hV⟩
  acyclic := hs.acyclic_of_extends hst

/-- The resolution of a chain is the same when the store has grown. -/
theorem Resolves.of_extends {σ : Leaf → Tree} (hσ : st.Resolves s σ) (hs : st.Resolvable s)
    (hst : st.Extends st') : st'.Resolves s σ where
  respects _ _ hV := hσ.respects ((hs.binds_of_extends hst).mp hV)
  free _ hl := hσ.free fun V hV => hl V ((hs.binds_of_extends hst).mpr hV)

end TermStore

end TypedTerms
