import TypedTerms.Proofs.Bindings
import TypedTerms.Solve.Match

/-!
# Terms under a map

What a term becomes when a map from leaves to trees is applied to the
tree that it stands for, said of the term one level at a time. Two sides
of an equation meet when they become one tree, each under a map of its
own: one map for both is what unification looks for, and a map for the
left side alone is what matching looks for. Compound terms meet when
their children do, place by place (`meets_app_iff`).

A map that puts trees of the right type in the place of variables, and
touches nothing else, keeps the type of a term, and what it is made of
as long as it is no variable.
-/

namespace TypedTerms.TermStore

variable {st : TermStore} {a b : TermId} {θ κ : Leaf → Tree} {l : Leaf} {V W : Tree}

/-- Under the map the term becomes the tree. -/
def Becomes (st : TermStore) (θ : Leaf → Tree) (t : TermId) (W : Tree) : Prop :=
  ∃ T, st.Denotes t T ∧ T.subst θ = W

/-- A term becomes one tree at most. -/
theorem Becomes.unique (h : st.Becomes θ a V) (h' : st.Becomes θ a W) : V = W := by
  obtain ⟨T, hT, rfl⟩ := h
  obtain ⟨U, hU, rfl⟩ := h'
  rw [denotes_unique hT hU]

/-- Whatever the map, a well-formed term becomes some tree. -/
theorem WellFormed.exists_becomes (h : st.WellFormed a) (θ : Leaf → Tree) :
    ∃ W, st.Becomes θ a W := by
  obtain ⟨T, hT, -⟩ := h
  exact ⟨T.subst θ, T, hT, rfl⟩

theorem becomes_self_iff : st.Becomes .leaf a W ↔ st.Denotes a W := by
  constructor
  · rintro ⟨T, hT, rfl⟩
    rwa [Tree.subst_id]
  · intro hW
    exact ⟨W, hW, W.subst_id⟩

/-- A leaf becomes what the map makes of it. -/
theorem becomes_leaf_iff (h : st.node? a = some (.leaf l)) : st.Becomes θ a W ↔ θ l = W := by
  constructor
  · rintro ⟨T, hT, rfl⟩
    rw [hT.eq_leaf h, Tree.subst_leaf]
  · rintro rfl
    exact ⟨.leaf l, denotes_leaf_iff.mpr h, rfl⟩

/-- Terms that become trees stand for trees, of which the map makes these.
-/
theorem exists_denotes_of_becomes {ts : List TermId} {Ws : List Tree}
    (h : List.Forall₂ (st.Becomes θ) ts Ws) :
    ∃ Ts, List.Forall₂ st.Denotes ts Ts ∧ Ts.map (Tree.subst θ) = Ws := by
  induction h with
  | nil => exact ⟨[], .nil, rfl⟩
  | cons hW _ ih =>
    obtain ⟨T, hT, rfl⟩ := hW
    obtain ⟨Ts, hTs, rfl⟩ := ih
    exact ⟨T :: Ts, .cons hT hTs, rfl⟩

/-- A compound term becomes the node over what its children become. -/
theorem becomes_app_iff {op : Operator} {c : TermId} {cs : List TermId}
    (h : st.node? a = some (.app op c cs)) :
    st.Becomes θ a W ↔
      ∃ C Cs, W = .app op C Cs ∧ List.Forall₂ (st.Becomes θ) (c :: cs) (C :: Cs) := by
  constructor
  · rintro ⟨T, hT, rfl⟩
    cases T with
    | leaf l =>
      rw [denotes_leaf_iff, h] at hT
      cases hT
    | app op' first rest =>
      obtain ⟨d, ds, hnode, hall⟩ := denotes_app_iff.mp hT
      rw [h] at hnode
      cases hnode
      refine ⟨_, _, Tree.subst_app θ op first rest, ?_⟩
      rw [← List.map_cons, List.forall₂_map_right_iff]
      exact hall.imp fun _ T hT => ⟨T, hT, rfl⟩
  · rintro ⟨C, Cs, rfl, hall⟩
    obtain ⟨Ts, hTs, hmap⟩ := exists_denotes_of_becomes hall
    cases Ts with
    | nil => cases hTs
    | cons T Ts =>
      refine ⟨.app op T Ts, denotes_app_iff.mpr ⟨c, cs, h, hTs⟩, ?_⟩
      rw [Tree.subst_app]
      cases hmap
      rfl

/-- A term that is no leaf which the map moves keeps its tag and the
places of its children. -/
theorem Becomes.shape {n : Node} (h : st.Becomes θ a W) (ha : st.node? a = some n)
    (fixed : ∀ l, n = .leaf l → θ l = .leaf l) :
    W.tag = n.tag ∧ List.Forall₂ (st.Becomes θ) n.children W.children := by
  cases n with
  | leaf l =>
    rw [becomes_leaf_iff ha, fixed l rfl] at h
    rw [← h]
    exact ⟨rfl, .nil⟩
  | app op c cs =>
    obtain ⟨C, Cs, rfl, hall⟩ := (becomes_app_iff ha).mp h
    exact ⟨rfl, hall⟩

/-! ## Equations -/

/-- The two sides become one tree, each under a map of its own. -/
def Meets (st : TermStore) (θ κ : Leaf → Tree) (e : Equation) : Prop :=
  ∃ W, st.Becomes θ e.1 W ∧ st.Becomes κ e.2 W

/-- Children meet place by place when the two lists become the same trees.
-/
theorem meets_zip_iff {cs ds : List TermId} (hlen : cs.length = ds.length) :
    (∀ e ∈ cs.zip ds, st.Meets θ κ e) ↔
      ∃ Ws, List.Forall₂ (st.Becomes θ) cs Ws ∧ List.Forall₂ (st.Becomes κ) ds Ws := by
  induction cs generalizing ds with
  | nil =>
    cases ds with
    | nil => exact ⟨fun _ => ⟨[], .nil, .nil⟩, fun _ _ he => nomatch he⟩
    | cons => cases hlen
  | cons c cs ih =>
    cases ds with
    | nil => cases hlen
    | cons d ds =>
      rw [List.zip_cons_cons, List.forall_mem_cons, ih (Nat.succ.inj hlen)]
      constructor
      · rintro ⟨⟨W, hc, hd⟩, Ws, hcs, hds⟩
        exact ⟨W :: Ws, .cons hc hcs, .cons hd hds⟩
      · rintro ⟨Ws, hcs, hds⟩
        cases hcs with
        | cons hc hcs =>
          cases hds with
          | cons hd hds => exact ⟨⟨_, hc, hd⟩, _, hcs, hds⟩

/-- Two terms with one operator become one tree when their children do,
place by place. -/
theorem meets_app_iff {op : Operator} {c d : TermId} {cs ds : List TermId}
    (ha : st.node? a = some (.app op c cs)) (hb : st.node? b = some (.app op d ds))
    (hlen : cs.length = ds.length) :
    st.Meets θ κ (a, b) ↔ ∀ e ∈ (c, d) :: cs.zip ds, st.Meets θ κ e := by
  have hlen' : (c :: cs).length = (d :: ds).length := congrArg Nat.succ hlen
  rw [← List.zip_cons_cons, meets_zip_iff hlen']
  unfold Meets
  simp only [becomes_app_iff ha, becomes_app_iff hb]
  constructor
  · rintro ⟨_, ⟨C, Cs, rfl, hC⟩, ⟨_, _, heq, hD⟩⟩
    cases heq
    exact ⟨C :: Cs, hC, hD⟩
  · rintro ⟨Ws, hC, hD⟩
    cases hC with
    | cons hc hcs => exact ⟨_, ⟨_, _, rfl, .cons hc hcs⟩, ⟨_, _, rfl, hD⟩⟩

/-- Terms that meet, and are no leaves which the maps move, are one term
or can be taken apart. -/
theorem Meets.eq_or_split {m n : Node} (h : st.Meets θ κ (a, b)) (ha : st.node? a = some m)
    (hb : st.node? b = some n) (hθ : ∀ l, m = .leaf l → θ l = .leaf l)
    (hκ : ∀ l, n = .leaf l → κ l = .leaf l) :
    a = b ∨ m.tag = n.tag ∧ m.children ≠ [] ∧ m.children.length = n.children.length := by
  obtain ⟨W, hW, hW'⟩ := h
  obtain ⟨htag, hchildren⟩ := hW.shape ha hθ
  obtain ⟨htag', hchildren'⟩ := hW'.shape hb hκ
  cases m with
  | app op c cs =>
    have hlen := hchildren.length_eq.trans hchildren'.length_eq.symm
    exact .inr ⟨htag.symm.trans htag', List.cons_ne_nil c cs, hlen⟩
  | leaf l =>
    cases n with
    | app => cases htag.symm.trans htag'
    | leaf k =>
      rw [becomes_leaf_iff ha, hθ l rfl] at hW
      rw [becomes_leaf_iff hb, hκ k rfl, ← hW] at hW'
      cases hW'
      exact .inl (node?_inj ha hb)

/-- The target is the pattern under the map. -/
def IsInstance (st : TermStore) (θ : Leaf → Tree) (e : Equation) : Prop :=
  ∃ T, st.Denotes e.2 T ∧ st.Becomes θ e.1 T

/-- To be an instance is to meet a target that stays as it is. -/
theorem isInstance_iff_meets {e : Equation} : st.IsInstance θ e ↔ st.Meets θ .leaf e := by
  unfold IsInstance Meets
  simp only [becomes_self_iff, and_comm]

/-- A compound target is an instance of a pattern with its operator when
its children are instances, place by place. -/
theorem isInstance_app_iff {op : Operator} {c d : TermId} {cs ds : List TermId}
    (ha : st.node? a = some (.app op c cs)) (hb : st.node? b = some (.app op d ds))
    (hlen : cs.length = ds.length) :
    st.IsInstance θ (a, b) ↔ ∀ e ∈ (c, d) :: cs.zip ds, st.IsInstance θ e := by
  simp only [isInstance_iff_meets]
  exact meets_app_iff ha hb hlen

/-- An instance of a leaf stands for what the map makes of the leaf. -/
theorem isInstance_leaf_iff (h : st.node? a = some (.leaf l)) :
    st.IsInstance θ (a, b) ↔ st.Denotes b (θ l) := by
  simp only [IsInstance, becomes_leaf_iff h, exists_eq_right']

/-- A pattern has one instance. -/
theorem IsInstance.unique {c : TermId} (h : st.IsInstance θ (a, b)) (h' : st.IsInstance θ (a, c)) :
    b = c := by
  obtain ⟨T, hb, hT⟩ := h
  obtain ⟨U, hc, hU⟩ := h'
  exact denotes_inj hb (hT.unique hU ▸ hc)

/-- Of a term that is its own instance the leaves are their own
instances. -/
theorem IsInstance.leaf_of_self {x : TermId} (h : st.IsInstance θ (a, a))
    (hx : st.node? x = some (.leaf l)) (hsub : st.Subterm x a) : st.IsInstance θ (x, x) := by
  obtain ⟨T, hT, U, hU, heq⟩ := h
  rw [denotes_unique hU hT] at heq
  have hl : θ l = .leaf l :=
    Tree.eq_of_subst_eq (heq.trans T.subst_id.symm) (hT.mem_leaves hx hsub)
  rw [isInstance_leaf_iff hx, hl]
  exact denotes_leaf_iff.mpr hx

/-! ## Under an instantiation -/

/-- A map that keeps types keeps the type of a well-formed term. -/
theorem Becomes.ty_eq {η : Instantiation} (h : st.Becomes η.image a W) (ha : st.WellFormed a) :
    st.ty a = W.ty := by
  obtain ⟨T, hT, rfl⟩ := h
  obtain ⟨U, hU, hwf⟩ := ha
  rw [denotes_unique hU hT] at hwf
  rw [ty_of_denotes hT, η.ty_subst hwf]

/-- A leaf that is no variable stands for itself. -/
theorem image_of_not_isVariable (η : Instantiation) (ha : st.node? a = some (.leaf l))
    (hvar : ¬ st.IsVariable a) : η.image l = .leaf l :=
  η.image_of_not_var l (Bool.eq_false_iff.mpr fun hl => hvar ⟨l, ha, hl⟩)

end TypedTerms.TermStore
