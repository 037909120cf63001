import TypedTerms.Proofs.Renaming
import TypedTerms.Proofs.Unify.Correct

/-!
# Runs that mirror each other

A relation of terms mirrors them when the rules cannot tell its two sides
apart: terms are equal on the one side exactly when they are equal on the
other, and related terms have one type, one tag, and related children.

Whatever is asked about terms on the one side is then answered alike on
the other, up to the relation: what a term is bound to, whether a
variable occurs, what an equation is taken apart into. So the rules do
the same on both sides (`Mirrors.unifyRule`, `Mirrors.matchRule`), and a
run from related equations, under related bindings, ends like the other
one (`Rule.MirroredBy.solve`). Nothing is asked of the terms or of the
bindings besides; the runs stop at the same broken contract, and run out
of steps together.
-/

namespace TypedTerms

/-- Both sides of the pairs are related. -/
def PairsRelated (R : TermId → TermId → Prop) (p q : TermId × TermId) : Prop :=
  R p.1 q.1 ∧ R p.2 q.2

/-- Related lists are related in pairs. -/
theorem zip_related {R : TermId → TermId → Prop} {as as' bs bs' : List TermId}
    (ha : List.Forall₂ R as as') (hb : List.Forall₂ R bs bs') :
    List.Forall₂ (PairsRelated R) (as.zip bs) (as'.zip bs') := by
  induction ha generalizing bs bs' with
  | nil => exact .nil
  | cons hx _ ih =>
    cases hb with
    | nil => exact .nil
    | cons hy hb => exact .cons ⟨hx, hy⟩ (ih hb)

/-- The chains have related bindings, in the same order. -/
def ChainsRelated (R : TermId → TermId → Prop) (s s' : Subst) : Prop :=
  List.Forall₂ (PairsRelated R) s.bindings s'.bindings

/-- The chains are related, and so are the equations. -/
def StatesRelated (R : TermId → TermId → Prop) (p q : Subst × List Equation) : Prop :=
  ChainsRelated R p.1 q.1 ∧ List.Forall₂ (PairsRelated R) p.2 q.2

theorem ChainsRelated.bind {R : TermId → TermId → Prop} {s s' : Subst} {x x' v v' : TermId}
    (h : ChainsRelated R s s') (hx : R x x') (hv : R v v') :
    ChainsRelated R (s.bind x v) (s'.bind x' v') := .cons ⟨hx, hv⟩ h

/-- The rule does the same on both sides of the relation. -/
def Rule.MirroredBy (rule : Rule) (R : TermId → TermId → Prop) : Prop :=
  ∀ ⦃s s' a a' b b'⦄, ChainsRelated R s s' → R a a' → R b b' →
    EndAlike (Option.Rel (StatesRelated R)) (rule s a b) (rule s' a' b')

/-- A run does what its rule does. -/
theorem Rule.MirroredBy.solve {rule : Rule} {R : TermId → TermId → Prop} (h : rule.MirroredBy R)
    {s s' : Subst} {pending pending' : List Equation} (hs : ChainsRelated R s s')
    (hpending : List.Forall₂ (PairsRelated R) pending pending') (n : Nat) :
    EndAlike (Option.Rel (ChainsRelated R)) (rule.solve n s pending)
      (rule.solve n s' pending') := by
  induction n generalizing s s' pending pending' with
  | zero =>
    cases hpending with
    | nil => exact .some hs
    | cons => rfl
  | succ n ih =>
    cases hpending with
    | nil => exact .some hs
    | @cons e e' rest rest' he hrest =>
      refine (h hs he.1 he.2).bind fun r r' hr => ?_
      cases hr with
      | none => exact .none
      | some hr => exact ih hr.1 (List.rel_append hr.2 hrest)

namespace TermStore

/-- The nodes are leaves with one tag, or have one operator over related
children. -/
inductive NodesRelated (R : TermId → TermId → Prop) : Node → Node → Prop where
  | leaf {l k : Leaf} (htag : l.tag = k.tag) : NodesRelated R (.leaf l) (.leaf k)
  | app {op : Operator} {c d : TermId} {cs ds : List TermId}
    (hall : List.Forall₂ R (c :: cs) (d :: ds)) : NodesRelated R (.app op c cs) (.app op d ds)

theorem NodesRelated.tag_eq {R : TermId → TermId → Prop} {n n' : Node} (h : NodesRelated R n n') :
    n.tag = n'.tag := by
  cases h with
  | leaf htag => exact congrArg Tag.leaf htag
  | app => rfl

theorem NodesRelated.children {R : TermId → TermId → Prop} {n n' : Node}
    (h : NodesRelated R n n') : List.Forall₂ R n.children n'.children := by
  cases h with
  | leaf => exact .nil
  | app hall => exact hall

/-- A relation of terms whose sides the rules cannot tell apart. -/
structure Mirrors (st : TermStore) (R : TermId → TermId → Prop) : Prop where
  eq_iff : ∀ ⦃a a' b b'⦄, R a a' → R b b' → (a = b ↔ a' = b')
  ty_eq : ∀ ⦃a a'⦄, R a a' → st.ty a = st.ty a'
  nodes : ∀ ⦃a a'⦄, R a a' →
    ∃ n n', st.node? a = some n ∧ st.node? a' = some n' ∧ NodesRelated R n n'

namespace Mirrors

variable {st : TermStore} {R : TermId → TermId → Prop} {s s' : Subst} {a a' b b' t t' x x' : TermId}

/-- Related terms have related values, or none. -/
theorem get? (h : st.Mirrors R) (hs : ChainsRelated R s s') (hx : R x x') :
    (∃ v v', s.get? x = some v ∧ s'.get? x' = some v' ∧ R v v') ∨
      s.get? x = none ∧ s'.get? x' = none := by
  obtain ⟨bs⟩ := s
  obtain ⟨bs'⟩ := s'
  change List.Forall₂ (PairsRelated R) bs bs' at hs
  induction hs with
  | nil => exact .inr ⟨rfl, rfl⟩
  | @cons b b' bs bs' hb _ ih =>
    have hfirst : ∀ (b : TermId × TermId) bs, (⟨b :: bs⟩ : Subst) = Subst.bind ⟨bs⟩ b.1 b.2 :=
      fun _ _ => rfl
    rw [hfirst, hfirst, Subst.get?_bind, Subst.get?_bind]
    by_cases hxk : x = b.1
    · rw [if_pos hxk, if_pos ((h.eq_iff hx hb.1).mp hxk)]
      exact .inl ⟨b.2, b'.2, rfl, rfl, hb.2⟩
    · rw [if_neg hxk, if_neg fun hxk' => hxk ((h.eq_iff hx hb.1).mpr hxk')]
      exact ih

theorem isVar_eq_of_tag_eq {l k : Leaf} (h : l.tag = k.tag) : l.isVar = k.isVar := by
  rw [Bool.eq_iff_iff, l.isVar_iff, k.isVar_iff, h]

/-- Related terms are both variables or neither. -/
theorem isVar_eq (h : st.Mirrors R) (ha : R a a') : st.isVar a = st.isVar a' := by
  obtain ⟨n, n', hn, hn', hnodes⟩ := h.nodes ha
  rw [isVar, isVar, ofLeaf, ofLeaf, node_of_node? hn, node_of_node? hn']
  cases hnodes with
  | leaf htag => exact congrArg Except.ok (isVar_eq_of_tag_eq htag)
  | app => rfl

/-- Related terms are taken apart into related equations. -/
theorem decompose (h : st.Mirrors R) (ha : R a a') (hb : R b b') :
    EndAlike (Option.Rel (List.Forall₂ (PairsRelated R))) (st.decompose a b)
      (st.decompose a' b') := by
  obtain ⟨m, m', hm, hm', hma⟩ := h.nodes ha
  obtain ⟨n, n', hn, hn', hnb⟩ := h.nodes hb
  have hiff : (m.tag = n.tag ∧ m.children ≠ [] ∧ m.children.length = n.children.length) ↔
      (m'.tag = n'.tag ∧ m'.children ≠ [] ∧ m'.children.length = n'.children.length) := by
    simp only [ne_eq, Node.children_eq_nil_iff, hma.tag_eq, hnb.tag_eq, hma.children.length_eq,
      hnb.children.length_eq]
  rw [TermStore.decompose, TermStore.decompose, node_of_node? hm, node_of_node? hn,
    node_of_node? hm', node_of_node? hn']
  simp only [bind, Except.bind]
  by_cases hsplit : m.tag = n.tag ∧ m.children ≠ [] ∧ m.children.length = n.children.length
  · rw [if_pos hsplit, if_pos (hiff.mp hsplit)]
    exact .some (zip_related hma.children hnb.children)
  · rw [if_neg hsplit, if_neg fun hsplit' => hsplit (hiff.mpr hsplit')]
    exact .none

/-- Searches that answer alike at every place answer alike. -/
theorem anyM_eq {α β : Type} {f : α → Except Violation Bool} {g : β → Except Violation Bool}
    {as : List α} {bs : List β} (h : List.Forall₂ (fun a b => f a = g b) as bs) :
    as.anyM f = bs.anyM g := by
  induction h with
  | nil => rfl
  | cons hab _ ih => rw [List.anyM_cons, List.anyM_cons, hab, ih]

/-- The occurs check answers the same on both sides. -/
theorem occursWithin_eq (h : st.Mirrors R) (hs : ChainsRelated R s s') (hx : R x x')
    (ht : R t t') (d : Nat) : st.occursWithin s x d t = st.occursWithin s' x' d t' := by
  induction d generalizing t t' with
  | zero => rfl
  | succ d ih =>
    rw [occursWithin, occursWithin]
    by_cases htx : t = x
    · rw [if_pos htx, if_pos ((h.eq_iff ht hx).mp htx)]
    rw [if_neg htx, if_neg fun htx' => htx ((h.eq_iff ht hx).mpr htx')]
    obtain ⟨n, n', hn, hn', hnodes⟩ := h.nodes ht
    rw [node_of_node? hn, node_of_node? hn']
    simp only [bind, Except.bind]
    cases hnodes with
    | app hall => exact anyM_eq (List.rel_reverse (hall.imp fun _ _ => ih))
    | @leaf l k htag =>
      simp only [isVar_eq_of_tag_eq htag]
      by_cases hk : k.isVar = true
      · rw [if_pos hk, if_pos hk]
        rcases h.get? hs ht with ⟨v, v', hv, hv', hR⟩ | ⟨hv, hv'⟩
        · rw [hv, hv']
          exact ih hR
        · rw [hv, hv']
      · rw [if_neg hk, if_neg hk]

/-- A variable occurs on both sides or on none. -/
theorem occurs_eq (h : st.Mirrors R) (hs : ChainsRelated R s s') (hx : R x x') (ht : R t t') :
    st.occurs s x t = st.occurs s' x' t' := h.occursWithin_eq hs hx ht st.depthLimit

/-- An equation at a variable comes to related states on both sides. -/
theorem solveVar (h : st.Mirrors R) (hs : ChainsRelated R s s') (hx : R x x') (ht : R t t') :
    EndAlike (Option.Rel (StatesRelated R)) (st.solveVar s x t) (st.solveVar s' x' t') := by
  rw [TermStore.solveVar, TermStore.solveVar]
  rcases h.get? hs hx with ⟨v, v', hv, hv', hR⟩ | ⟨hv, hv'⟩
  · rw [hv, hv']
    exact .some ⟨hs, .cons ⟨hR, ht⟩ .nil⟩
  rw [hv, hv']
  rcases h.get? hs ht with ⟨w, w', hw, hw', hR⟩ | ⟨hw, hw'⟩
  · rw [hw, hw']
    exact .some ⟨hs, .cons ⟨hx, hR⟩ .nil⟩
  rw [hw, hw']
  refine (EndAlike.of_eq (h.occurs_eq hs hx ht)).bind ?_
  rintro found _ rfl
  cases found with
  | true => exact .none
  | false => exact .some ⟨hs.bind hx ht, .nil⟩

/-- Both rules begin with the cases of one term on both sides and of
terms of different types, which are the same cases for related terms. -/
theorem guarded (h : st.Mirrors R) (hs : ChainsRelated R s s') (ha : R a a') (hb : R b b')
    {inner inner' : Except Violation (Option (Subst × List Equation))}
    (alike : EndAlike (Option.Rel (StatesRelated R)) inner inner') :
    EndAlike (Option.Rel (StatesRelated R))
      (do
        if a = b then return some (s, [])
        let ty ← st.ty a
        if ty ≠ (← st.ty b) then return none
        inner)
      (do
        if a' = b' then return some (s', [])
        let ty ← st.ty a'
        if ty ≠ (← st.ty b') then return none
        inner') := by
  by_cases hab : a = b
  · rw [if_pos hab, if_pos ((h.eq_iff ha hb).mp hab)]
    exact .some ⟨hs, .nil⟩
  rw [if_neg hab, if_neg fun hab' => hab ((h.eq_iff ha hb).mpr hab')]
  refine (EndAlike.of_eq (h.ty_eq ha)).bind ?_
  rintro A _ rfl
  refine (EndAlike.of_eq (h.ty_eq hb)).bind ?_
  rintro B _ rfl
  by_cases hAB : A ≠ B
  · rw [if_pos hAB, if_pos hAB]
    exact .none
  · rw [if_neg hAB, if_neg hAB]
    exact alike

/-- Both rules end with taking the equation apart. -/
theorem decomposed (h : st.Mirrors R) (hs : ChainsRelated R s s') (ha : R a a') (hb : R b b') :
    EndAlike (Option.Rel (StatesRelated R)) (do return (← st.decompose a b).map ((s, ·)))
      (do return (← st.decompose a' b').map ((s', ·))) := by
  refine (h.decompose ha hb).bind fun r r' hr => ?_
  cases hr with
  | none => exact .none
  | some hnew => exact .some ⟨hs, hnew⟩

/-- The rule of unification does the same on both sides. -/
theorem unifyRule (h : st.Mirrors R) : st.unifyRule.MirroredBy R := by
  intro s s' a a' b b' hs ha hb
  refine h.guarded hs ha hb ?_
  refine (EndAlike.of_eq (h.isVar_eq hb)).bind ?_
  rintro vb _ rfl
  cases vb with
  | true => exact h.solveVar hs hb ha
  | false =>
    refine (EndAlike.of_eq (h.isVar_eq ha)).bind ?_
    rintro va _ rfl
    cases va with
    | true => exact h.solveVar hs ha hb
    | false => exact h.decomposed hs ha hb

/-- The rule of matching does the same on both sides. -/
theorem matchRule (h : st.Mirrors R) : st.matchRule.MirroredBy R := by
  intro s s' a a' b b' hs ha hb
  refine h.guarded hs ha hb ?_
  refine (EndAlike.of_eq (h.isVar_eq ha)).bind ?_
  rintro va _ rfl
  cases va with
  | false => exact h.decomposed hs ha hb
  | true =>
    rw [if_pos rfl, if_pos rfl]
    rcases h.get? hs ha with ⟨v, v', hv, hv', hR⟩ | ⟨hv, hv'⟩
    · rw [hv, hv']
      by_cases hvb : v = b
      · simp only [if_pos hvb, if_pos ((h.eq_iff hR hb).mp hvb)]
        exact .some ⟨hs, .nil⟩
      · simp only [if_neg hvb, if_neg fun hvb' => hvb ((h.eq_iff hR hb).mpr hvb')]
        exact .none
    · rw [hv, hv']
      exact .some ⟨hs.bind ha hb, .nil⟩

end Mirrors

end TermStore

/-!
## Solving equations under other names

Which variables the equations are about does not matter. Rename them, in
the bindings and on both sides: unification and matching then answer the
same bindings renamed, in the same order, or nothing as before, and stop
at the same broken contract if they do (`unify_and_match_renamed`).

Nearly every term has another number once its variables are renamed, but
renaming mirrors terms (`mirrors_renamed`), and that is all the rules can
see.
-/

open TermStore

variable {st st' st'' : TermStore} {ρ : TermId → TermId} {θ : LeafRenaming} {s s' m m' : Subst}
  {a a' b b' t : TermId} {T : Tree}

/-- The rules cannot tell terms from their renamings. -/
theorem TermStore.mirrors_renamed (θ : LeafRenaming) (hst : st.Extends st') :
    st'.Mirrors (st.Renamed θ st') where
  eq_iff _ _ _ _ ha hb := ha.eq_iff hb
  ty_eq _ _ ha := ha.ty_eq hst
  nodes a a' ha := by
    obtain ⟨A, hA, ha'⟩ := ha
    cases A with
    | leaf l =>
      exact ⟨_, _, hst (denotes_leaf_iff.mp hA), denotes_leaf_iff.mp ha',
        .leaf (θ.tag_image l).symm⟩
    | app op first rest =>
      obtain ⟨c, cs, hnode, hall⟩ := denotes_app_iff.mp hA
      rw [Tree.rename_app, denotes_app_iff] at ha'
      obtain ⟨d, ds, hnode', hall'⟩ := ha'
      exact ⟨_, _, hst hnode, hnode', .app (forall₂_renamed hall hall')⟩

theorem PairsRelated.of_extends {p q : TermId × TermId}
    (h : PairsRelated (st.Renamed θ st') p q) (hst : st'.Extends st'') :
    PairsRelated (st.Renamed θ st'') p q := ⟨h.1.of_extends hst, h.2.of_extends hst⟩

/-- Renamed chains stay so when the later store grows. -/
theorem ChainsRelated.of_extends (h : ChainsRelated (st.Renamed θ st') s s')
    (hst : st'.Extends st'') : ChainsRelated (st.Renamed θ st'') s s' :=
  h.imp fun _ _ hb => hb.of_extends hst

/-- Every binding is between terms that stand for trees. -/
def TermStore.KnowsChain (st : TermStore) (s : Subst) : Prop :=
  ∀ b ∈ s.bindings, (∃ K, st.Denotes b.1 K) ∧ ∃ V, st.Denotes b.2 V

namespace Build

/-- Renaming a term that stands for a tree answers a renamed term. -/
theorem exists_rename (hθ : st.RenamesBy ρ θ) (hT : ∃ T, st.Denotes t T) (hst : st.Extends st') :
    ∃ t' st'', (rename ρ t).on st' = (.ok t', st'') ∧ st'.Extends st'' ∧
      st.Renamed θ st'' t t' := by
  obtain ⟨T, hT⟩ := hT
  obtain ⟨t', st'', hrun, hext, ht'⟩ := yields_rename hθ hT hst
  exact ⟨t', st'', hrun, hext, T, hT, ht'⟩

/-- Renaming a binding answers a renamed binding. -/
theorem exists_renameBinding {b : TermId × TermId} (hθ : st.RenamesBy ρ θ)
    (hkey : ∃ K, st.Denotes b.1 K) (hvalue : ∃ V, st.Denotes b.2 V) (hst : st.Extends st') :
    ∃ c st'', (renameBinding ρ b).on st' = (.ok c, st'') ∧ st'.Extends st'' ∧
      PairsRelated (st.Renamed θ st'') b c := by
  obtain ⟨k, st₁, hk, hst₁, hkR⟩ := exists_rename hθ hkey hst
  obtain ⟨v, st₂, hv, hst₂, hvR⟩ := exists_rename hθ hvalue (extends_trans hst hst₁)
  refine ⟨(k, v), st₂, ?_, extends_trans hst₁ hst₂, hkR.of_extends hst₂, hvR⟩
  rw [renameBinding, on_bind_ok hk, on_bind_ok hv, on_pure]

/-- A chain is renamed binding by binding. -/
theorem exists_renameBindings (hθ : st.RenamesBy ρ θ) (hs : st.KnowsChain s)
    (hst : st.Extends st') :
    ∃ s' st'', (renameBindings ρ s).on st' = (.ok s', st'') ∧ st'.Extends st'' ∧
      ChainsRelated (st.Renamed θ st'') s s' := by
  obtain ⟨bs, st'', hrun, hext, hall⟩ :=
    exists_mapM (g := renameBinding ρ) (R := fun st'' c b => PairsRelated (st.Renamed θ st'') b c)
      PairsRelated.of_extends
      (List.forall₂_same.mpr fun b hb _ hst => exists_renameBinding hθ (hs b hb).1 (hs b hb).2 hst)
      hst
  refine ⟨⟨bs⟩, st'', ?_, hext, hall.flip⟩
  rw [renameBindings, on_bind_ok hrun, on_pure]

end Build

/-- Renaming the chain answers the other chain. -/
def TermStore.RenamesTo (st : TermStore) (ρ : TermId → TermId) (m m' : Subst) : Prop :=
  ∃ st', (Build.renameBindings ρ m).on st = (.ok m', st')

/-- If every term is related to one term at most, every chain is related to
one at most. -/
theorem ChainsRelated.unique {R : TermId → TermId → Prop}
    (hR : ∀ {a b c}, R a b → R a c → b = c) (h : ChainsRelated R s m) (h' : ChainsRelated R s m') :
    m = m' := by
  have hpairs : Relator.RightUnique (PairsRelated R) := by
    rintro p q r hpq hpr
    exact Prod.ext (hR hpq.1 hpr.1) (hR hpq.2 hpr.2)
  exact congrArg Subst.mk (hpairs.forall₂ h h')

/-- A related chain is what renaming answers. -/
theorem ChainsRelated.renamesTo (h : ChainsRelated (st.Renamed θ st') m m')
    (hθ : st.RenamesBy ρ θ) (hst : st.Extends st') : st'.RenamesTo ρ m m' := by
  have hm : st.KnowsChain m := by
    intro b hb
    obtain ⟨c, -, ⟨K, hK, -⟩, ⟨V, hV, -⟩⟩ := exists_of_mem_left h hb
    exact ⟨⟨K, hK⟩, V, hV⟩
  obtain ⟨m'', st'', hrun, hst', h'⟩ := Build.exists_renameBindings hθ hm hst
  have hsame : m'' = m' :=
    ChainsRelated.unique (fun hb hc => (hb.eq_iff hc).mp rfl) h' (h.of_extends hst')
  exact ⟨st'', hsame ▸ hrun⟩

/-- Before and after the renaming a run ends alike. -/
theorem Rule.MirroredBy.renamed {rule : Rule} (h : rule.MirroredBy (st.Renamed θ st'))
    (hθ : st.RenamesBy ρ θ) (hst : st.Extends st') (hs : ChainsRelated (st.Renamed θ st') s s')
    (hab : PairsRelated (st.Renamed θ st') (a, b) (a', b')) (n : Nat) :
    EndAlike (Option.Rel (st'.RenamesTo ρ)) (rule.solve n s [(a, b)])
      (rule.solve n s' [(a', b')]) := by
  refine (h.solve hs (.cons hab .nil) n).imp fun r r' hr => ?_
  cases hr with
  | none => exact .none
  | some hm => exact .some (hm.renamesTo hθ hst)

/-- Unification and matching do not depend on which variables are used.
Let a renaming of the variables of the store be given, a chain of
bindings between any terms of the store, and two terms. The chain and the
terms can be renamed. Then both calls end alike before and after the
renaming, in whatever store they are made: the bindings that are
answered afterwards are the renamings of those before, in the same
order. -/
theorem unify_and_match_renamed (hρ : st.RenamesOn ρ {x | st.IsVariable x})
    (hs : st.KnowsChain s) (ha : ∃ A, st.Denotes a A) (hb : ∃ B, st.Denotes b B) :
    ∃ s' st₁ a' st₂ b' st₃, (Build.renameBindings ρ s).on st = (.ok s', st₁) ∧
      (Build.rename ρ a).on st₁ = (.ok a', st₂) ∧ (Build.rename ρ b).on st₂ = (.ok b', st₃) ∧
      ∀ st', st₃.Extends st' → ∀ n,
        EndAlike (Option.Rel (st'.RenamesTo ρ)) (st'.unifyWith n s a b)
            (st'.unifyWith n s' a' b') ∧
          EndAlike (Option.Rel (st'.RenamesTo ρ)) (st'.matchWith n s a b)
            (st'.matchWith n s' a' b') := by
  obtain ⟨θ, hθ⟩ := hρ.exists_leafRenaming
  obtain ⟨s', st₁, hrs, hst₁, hsR⟩ := Build.exists_renameBindings hθ hs (extends_refl st)
  obtain ⟨a', st₂, hra, hst₂, haR⟩ := Build.exists_rename hθ ha hst₁
  obtain ⟨b', st₃, hrb, hst₃, hbR⟩ := Build.exists_rename hθ hb (extends_trans hst₁ hst₂)
  refine ⟨s', st₁, a', st₂, b', st₃, hrs, hra, hrb, fun st' hst' n => ?_⟩
  have hst : st.Extends st' :=
    extends_trans (extends_trans hst₁ hst₂) (extends_trans hst₃ hst')
  have hchains := hsR.of_extends (extends_trans hst₂ (extends_trans hst₃ hst'))
  have hsides : PairsRelated (st.Renamed θ st') (a, b) (a', b') :=
    ⟨haR.of_extends (extends_trans hst₃ hst'), hbR.of_extends hst'⟩
  have hmirrors := mirrors_renamed θ hst
  exact ⟨hmirrors.unifyRule.renamed hθ hst hchains hsides n,
    hmirrors.matchRule.renamed hθ hst hchains hsides n⟩

/-- The renaming of `x` to `y`, of `y` to `z` and of `z` to `x`. -/
def sampleRotation (x : TermId) : TermId :=
  if x = ⟨0⟩ then ⟨1⟩ else if x = ⟨1⟩ then ⟨2⟩ else if x = ⟨2⟩ then ⟨0⟩ else x

/-- The first three terms of the store are its variables. -/
theorem isVariable_sample_iff {x : TermId} :
    sample.IsVariable x ↔ x = ⟨0⟩ ∨ x = ⟨1⟩ ∨ x = ⟨2⟩ := by
  constructor
  · rintro ⟨l, hx, hvar⟩
    have hall : ∀ x ∈ sample.known, sample.isVar x = .ok true → x = ⟨0⟩ ∨ x = ⟨1⟩ ∨ x = ⟨2⟩ := by
      decide
    exact hall x (mem_known hx) (by rw [isVar_of_leaf hx, hvar])
  · rintro (rfl | rfl | rfl) <;> exact ⟨_, rfl, rfl⟩

/-- The rotation takes variables of one type to each other, no two to the
same. -/
theorem renamesOn_sampleRotation : sample.RenamesOn sampleRotation {x | sample.IsVariable x} := by
  simp only [isVariable_sample_iff]
  constructor
  · rintro x (rfl | rfl | rfl) <;> exact ⟨_, rfl, rfl⟩
  · rintro x (rfl | rfl | rfl) <;> rfl
  · rintro x (rfl | rfl | rfl) y (rfl | rfl | rfl) h <;> first | rfl | cases h

theorem knowsChain_sample : sample.KnowsChain sampleChain := by
  have hx : sample.WellFormed ⟨0⟩ := by decide
  have hv : sample.WellFormed ⟨6⟩ := by decide
  exact List.forall_mem_singleton.mpr ⟨hx.exists_denotes, hv.exists_denotes⟩

/-- Unifying `f(x, z)` and `f(g(a), x)` under `x ↦ g(y)`, and `f(y, x)`
and `f(g(a), y)` under `y ↦ g(z)`. -/
theorem unify_and_match_renamed_sample :
    sample.RenamesOn sampleRotation {x | sample.IsVariable x} ∧ sample.KnowsChain sampleChain ∧
      sample.unifyWith 20 sampleChain ⟨8⟩ ⟨9⟩ = .ok (some sampleAnswer) ∧
      ∃ s' st₁ a' st₂ b' st₃,
        (Build.renameBindings sampleRotation sampleChain).on sample = (.ok s', st₁) ∧
          (Build.rename sampleRotation ⟨8⟩).on st₁ = (.ok a', st₂) ∧
          (Build.rename sampleRotation ⟨9⟩).on st₂ = (.ok b', st₃) ∧
          ∀ st', st₃.Extends st' → ∀ n,
            EndAlike (Option.Rel (st'.RenamesTo sampleRotation))
                (st'.unifyWith n sampleChain ⟨8⟩ ⟨9⟩) (st'.unifyWith n s' a' b') ∧
              EndAlike (Option.Rel (st'.RenamesTo sampleRotation))
                (st'.matchWith n sampleChain ⟨8⟩ ⟨9⟩) (st'.matchWith n s' a' b') := by
  have ha : sample.WellFormed ⟨8⟩ := by decide
  have hb : sample.WellFormed ⟨9⟩ := by decide
  exact ⟨renamesOn_sampleRotation, knowsChain_sample, rfl,
    unify_and_match_renamed renamesOn_sampleRotation knowsChain_sample ha.exists_denotes
      hb.exists_denotes⟩

end TypedTerms
