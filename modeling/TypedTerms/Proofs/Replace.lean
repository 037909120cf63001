import TypedTerms.Proofs.Bindings
import TypedTerms.Proofs.Listed

/-!
# What replacing builds

A step `Yields` a tree when it answers a term for the tree and leaves a
store that has only grown. Mapping the leaves of a term yields the tree
with the mapped leaves, and so replacing yields the tree under what the
bindings lead to, whatever has been added to the store since the bindings
were made. Only the bindings that a term leads to matter: they must come
to an end, whatever the others do (`Followable.yields_replace`). In a
chain that can be followed throughout they all do, and the term becomes
the tree under the resolution (`yields_replace`).
-/

namespace TypedTerms

open TermStore

namespace Build

variable {st st' : TermStore} {t : TermId} {T : Tree}

/-- After a first step that answers, the rest runs on the store that it
leaves. -/
theorem on_bind_ok {α β : Type} {x : Build α} {f : α → Build β} {a : α}
    (h : x.on st = (.ok a, st')) : (x >>= f).on st = (f a).on st' := by
  rw [on_bind, h]

/-- The step answers a term for the tree, on a store that has only
grown. -/
def Yields (x : Build TermId) (st : TermStore) (T : Tree) : Prop :=
  ∃ r st', x.on st = (.ok r, st') ∧ st.Extends st' ∧ st'.Denotes r T

theorem yields_pure (h : st.Denotes t T) : Yields (pure t) st T :=
  ⟨t, st, rfl, extends_refl st, h⟩

/-- What is put together yields a tree if its second step does, on whatever
the first has answered and made. -/
theorem yields_bind {x : Build TermId} {f : TermId → Build TermId} {U : Tree} (hx : Yields x st T)
    (hf : ∀ r st', st.Extends st' → st'.Denotes r T → Yields (f r) st' U) :
    Yields (x >>= f) st U := by
  obtain ⟨r, st₁, hr, hst₁, hrT⟩ := hx
  obtain ⟨q, st₂, hq, hst₂, hqU⟩ := hf r st₁ hst₁ hrT
  exact ⟨q, st₂, (on_bind_ok hr).trans hq, extends_trans hst₁ hst₂, hqU⟩

/-- Steps that yield one tree answer one term. -/
theorem Yields.answers_same {x y : Build TermId} (hx : Yields x st T)
    (hy : ∀ st', st.Extends st' → Yields y st' T) :
    ∃ r st₁ st₂, x.on st = (.ok r, st₁) ∧ y.on st₁ = (.ok r, st₂) := by
  obtain ⟨r, st₁, hr, hst₁, hrT⟩ := hx
  obtain ⟨q, st₂, hq, hst₂, hqT⟩ := hy st₁ hst₁
  have hrq : r = q := denotes_inj (denotes_of_extends hst₂ hrT) hqT
  exact ⟨r, st₁, st₂, hr, hrq ▸ hq⟩

/-- Steps for the members of a list, one after the other. What is
answered stays related to what was expected while the store grows. -/
theorem exists_mapM {α β γ : Type} {g : α → Build β} {R : TermStore → β → γ → Prop} {as : List α}
    {cs : List γ} (mono : ∀ {st' st'' b c}, R st' b c → st'.Extends st'' → R st'' b c)
    (h : List.Forall₂ (fun a c => ∀ st', st.Extends st' →
      ∃ b st'', (g a).on st' = (.ok b, st'') ∧ st'.Extends st'' ∧ R st'' b c) as cs)
    (hst : st.Extends st') :
    ∃ bs st'', (as.mapM g).on st' = (.ok bs, st'') ∧ st'.Extends st'' ∧
      List.Forall₂ (R st'') bs cs := by
  induction h generalizing st' with
  | nil => exact ⟨[], st', by rw [List.mapM_nil, on_pure], extends_refl st', .nil⟩
  | cons hg _ ih =>
    obtain ⟨b, st₁, hb, hst₁, hR⟩ := hg st' hst
    obtain ⟨bs, st₂, hbs, hst₂, hall⟩ := ih (extends_trans hst hst₁)
    refine ⟨b :: bs, st₂, ?_, extends_trans hst₁ hst₂, .cons (mono hR hst₂) hall⟩
    rw [List.mapM_cons, on_bind_ok hb, on_bind_ok hbs, on_pure]

/-- Steps that yield trees one by one answer terms for all of them, none of
which is lost by what is made later. -/
theorem yields_mapM {g : TermId → Build TermId} {ts : List TermId} {Ts : List Tree}
    (h : List.Forall₂ (fun t T => ∀ st', st.Extends st' → Yields (g t) st' T) ts Ts)
    (hst : st.Extends st') :
    ∃ rs st'', (ts.mapM g).on st' = (.ok rs, st'') ∧ st'.Extends st'' ∧
      List.Forall₂ st''.Denotes rs Ts :=
  exists_mapM (fun hT hst => denotes_of_extends hst hT) h hst

theorem on_children {n : Node} (h : st.node? t = some n) :
    (liftM (read (·.children t)) : Build (List TermId)).on st = (.ok n.children, st) := by
  show (read (·.children t)).on st = _
  rw [on_read, children_of_node? h]

/-- Rebuilding a node interns it over the new children. -/
theorem on_remake {op : Operator} {c d : TermId} {cs ds : List TermId}
    (h : st.node? t = some (.app op c cs)) :
    (remake t (d :: ds)).on st =
      (.ok (st.intern (.app op d ds)).1, (st.intern (.app op d ds)).2) := by
  rw [remake, on_bind_ok (a := .operator op) (by rw [on_read, tag_of_node? h]; rfl)]
  rfl

/-- Rebuilding a node over terms for some trees yields the node over these
trees. -/
theorem yields_remake {op : Operator} {c d : TermId} {cs ds : List TermId} {first : Tree}
    {rest : List Tree} (h : st.node? t = some (.app op c cs))
    (hall : List.Forall₂ st.Denotes (d :: ds) (first :: rest)) :
    Yields (remake t (d :: ds)) st (.app op first rest) := by
  have hst := extends_intern st (.app op d ds)
  refine ⟨_, _, on_remake h, hst, denotes_app_iff.mpr ⟨d, ds, node?_intern st _, ?_⟩⟩
  exact hall.imp fun _ _ hc => denotes_of_extends hst hc

/-- Mapping the leaves of a term yields its tree with the mapped
leaves. -/
theorem yields_mapLeavesWithin {f : TermId → Build TermId} {θ : Leaf → Tree} {d : Nat}
    (hT : st.Denotes t T) (hd : T.depth ≤ d)
    (hf : ∀ x, ∀ l ∈ T.leaves, st.node? x = some (.leaf l) →
      ∀ st', st.Extends st' → Yields (f x) st' (θ l))
    (hst : st.Extends st') : Yields (mapLeavesWithin f d t) st' (T.subst θ) := by
  refine hT.within_induct (P := fun d t T => (∀ x, ∀ l ∈ T.leaves, st.node? x = some (.leaf l) →
      ∀ st', st.Extends st' → Yields (f x) st' (θ l)) →
    ∀ st', st.Extends st' → Yields (mapLeavesWithin f d t) st' (T.subst θ)) hd ?_ ?_ hf st' hst
  · intro d u l hu hf st' hst
    obtain ⟨r, st'', hr, hext, hden⟩ := hf u l (Tree.mem_leaves_leaf.mpr rfl) hu st' hst
    refine ⟨r, st'', ?_, hext, hden⟩
    rw [mapLeavesWithin, on_bind_ok (on_children (hst hu))]
    exact hr
  · intro d u op c cs first rest hu _ hbelow hf st' hst
    have hsteps : List.Forall₂ (fun x C => ∀ st', st.Extends st' →
        Yields (mapLeavesWithin f d x) st' (C.subst θ)) (c :: cs) (first :: rest) :=
      forall₂_imp_of_mem hbelow fun x _ C hC hx =>
        hx fun y l hl => hf y l (Tree.mem_leaves_app.mpr ⟨C, hC, hl⟩)
    obtain ⟨rs, st₁, hrs, hst₁, hmapped⟩ :=
      yields_mapM (List.forall₂_map_right_iff.mpr hsteps) hst
    cases rs with
    | nil => cases hmapped
    | cons r rs =>
      obtain ⟨a, st₂, ha, hst₂, hden⟩ := yields_remake (hst₁ (hst hu)) hmapped
      refine ⟨a, st₂, ?_, extends_trans hst₁ hst₂, by rwa [Tree.subst_app]⟩
      rw [mapLeavesWithin, on_bind_ok (on_children (hst hu))]
      exact (on_bind_ok hrs).trans ha

theorem on_read_ok {α : Type} (f : TermStore → α) :
    (liftM (read fun st => .ok (f st)) : Build α).on st = (.ok (f st), st) := rfl

/-- A map of leaves that yields trees, however the store has grown
meanwhile, yields the tree with these in the place of its leaves. -/
theorem yields_mapLeaves {f : TermId → Build TermId} {θ : Leaf → Tree} (hT : st.Denotes t T)
    (hf : ∀ x, ∀ l ∈ T.leaves, st.node? x = some (.leaf l) →
      ∀ st', st.Extends st' → Yields (f x) st' (θ l))
    (hst : st.Extends st') : Yields (mapLeaves f t) st' (T.subst θ) := by
  have hd := (denotes_of_extends hst hT).depth_le_growingDepthLimit
  obtain ⟨r, st'', hr, hext, hden⟩ := yields_mapLeavesWithin hT hd hf hst
  refine ⟨r, st'', ?_, hext, hden⟩
  rw [mapLeaves, on_bind_ok (on_read_ok growingDepthLimit)]
  exact hr

end Build

namespace Subst

open Build

variable {st st' : TermStore} {s : Subst} {t : TermId} {T : Tree} {σ : Leaf → Tree}

theorem get?_of_isEmpty (h : s.isEmpty = true) (t : TermId) : s.get? t = none := by
  rw [get?, List.isEmpty_iff.mp h, List.lookup_nil]

/-- Bindings that can be followed from some leaves on, `σ` being what the
leaves are replaced by in the end: a bound leaf leads to leaves of a lower
rank, and a free one stays. -/
structure Followable (st : TermStore) (s : Subst) (σ : Leaf → Tree) (rank : Leaf → Nat)
    (within : Leaf → Prop) : Prop where
  bound : ∀ ⦃l x v⦄, within l → st.node? x = some (.leaf l) → s.get? x = some v →
    ∃ V, st.Denotes v V ∧ σ l = V.subst σ ∧ ∀ k ∈ V.leaves, within k ∧ rank k < rank l
  free : ∀ ⦃l x⦄, within l → st.node? x = some (.leaf l) → s.get? x = none → σ l = .leaf l

variable {rank : Leaf → Nat} {within : Leaf → Prop}

/-- Through more bindings in a row than the ranks of its leaves, a term is
replaced to the end. -/
theorem Followable.yields_replaceWithin {n : Nat} (h : Followable st s σ rank within)
    (hT : st.Denotes t T) (hn : ∀ l ∈ T.leaves, within l ∧ rank l < n) (hst : st.Extends st') :
    Yields (s.replaceWithin n t) st' (T.subst σ) := by
  -- `n` bounds the ranks; below a bound leaf they are lower
  induction n generalizing t T st' with
  | zero =>
    obtain ⟨l, hl⟩ := T.exists_mem_leaves
    exact absurd (hn l hl).2 (Nat.not_lt_zero _)
  | succ n ih =>
    rw [replaceWithin]
    by_cases hempty : s.isEmpty = true
    · rw [if_pos hempty, Tree.subst_eq_self]
      · exact yields_pure (denotes_of_extends hst hT)
      · intro l hl
        obtain ⟨x, hx, -⟩ := hT.exists_leaf hl
        exact h.free (hn l hl).1 hx (get?_of_isEmpty hempty x)
    rw [if_neg hempty]
    refine yields_mapLeaves hT ?_ hst
    intro x l hl hx st' hst
    obtain ⟨hin, hlt⟩ := hn l hl
    cases hv : s.get? x with
    | none =>
      rw [h.free hin hx hv]
      exact yields_pure (denotes_leaf_iff.mpr (hst hx))
    | some v =>
      obtain ⟨V, hV, heq, hbelow⟩ := h.bound hin hx hv
      have hvx : v ≠ x := by
        rintro rfl
        rw [hV.eq_leaf hx] at hbelow
        exact absurd (hbelow l (Tree.mem_leaves_leaf.mpr rfl)).2 (Nat.lt_irrefl _)
      simp only [if_neg hvx, heq]
      refine ih hV ?_ hst
      intro k hk
      obtain ⟨hkin, hkl⟩ := hbelow k hk
      exact ⟨hkin, hkl.trans_le (Nat.le_of_lt_succ hlt)⟩

/-- Where the ranks are no more than there are bindings, replacing yields
the tree with every leaf replaced. -/
theorem Followable.yields_replace (h : Followable st s σ rank within) (hT : st.Denotes t T)
    (hn : ∀ l ∈ T.leaves, within l ∧ rank l ≤ s.size) (hst : st.Extends st') :
    Yields (s.replace t) st' (T.subst σ) := by
  apply h.yields_replaceWithin hT _ hst
  intro l hl
  exact ⟨(hn l hl).1, Nat.lt_succ_of_le (hn l hl).2⟩

/-- A chain that can be followed to its end can be followed from every leaf
on. -/
theorem followable_of_resolves (hs : st.Resolvable s) (hσ : st.Resolves s σ) :
    Followable st s σ (st.height s) fun _ => True where
  bound l x v _ hx hv := by
    obtain ⟨V, hV⟩ := hs.value_denotes hv
    have hbinds : st.Binds s l V := ⟨x, v, hx, hv, hV⟩
    exact ⟨V, hV, hσ.respects hbinds, fun k hk => ⟨trivial, hs.acyclic.height_lt hbinds hk⟩⟩
  free _ _ _ hx hv := hσ.free (not_binds_of_free hx hv)

/-- Replacing yields the tree under the resolution of the bindings. -/
theorem yields_replace (hs : st.Resolvable s) (hσ : st.Resolves s σ) (hT : st.Denotes t T)
    (hst : st.Extends st') : Yields (s.replace t) st' (T.subst σ) := by
  apply (followable_of_resolves hs hσ).yields_replace hT _ hst
  intro l _
  exact ⟨trivial, st.height_le_size s l⟩

end Subst

end TypedTerms

/-!
## Replacing after replacing

A map of terms realizes a map of leaves when it yields, of every term,
the tree under the map; replacing along a chain realizes the resolution
of the chain. One way of replacing absorbs another when it makes the same
of a term and of what the other has made of it. Of maps of leaves that is
said leaf by leaf (`Realizes.absorbs`), and it says that the outer one is
a special case of the inner one.
-/

namespace TypedTerms.TermStore

open Build

variable {st st' : TermStore} {s : Subst} {f g : TermId → Build TermId} {θ κ : Leaf → Tree}

/-- From the store on, the map of terms yields the tree of a term under
the map of leaves. -/
def Realizes (st : TermStore) (f : TermId → Build TermId) (θ : Leaf → Tree) : Prop :=
  ∀ ⦃st' u U⦄, st.Extends st' → st'.Denotes u U → Yields (f u) st' (U.subst θ)

theorem Realizes.of_extends (h : st.Realizes f θ) (hst : st.Extends st') : st'.Realizes f θ :=
  fun _ _ _ hst' hU => h (extends_trans hst hst') hU

/-- Replacing along a chain realizes the resolution of the chain. -/
theorem realizes_replace (hs : st.Resolvable s) (hθ : st.Resolves s θ) :
    st.Realizes s.replace θ := by
  intro st' u U hst hU
  exact Subst.yields_replace (hs.of_extends hst) (hθ.of_extends hs hst) hU (extends_refl st')

/-- One map after another realizes one substitution after another. -/
theorem Realizes.comp (hf : st.Realizes f θ) (hg : st.Realizes g κ) :
    st.Realizes (f >=> g) fun l => (θ l).subst κ := by
  intro st' u U hst hU
  rw [← Tree.subst_subst]
  apply yields_bind (hf hst hU)
  intro r st'' hst' hr
  exact hg (extends_trans hst hst') hr

/-- From the store on, the outer map makes the same of a term and of what
the inner map has made of it. Both answer, for every term that stands for
a tree. -/
def Absorbs (st : TermStore) (outer inner : TermId → Build TermId) : Prop :=
  ∀ ⦃st' u U⦄, st.Extends st' → st'.Denotes u U →
    ∃ r st₁ st₂, ((inner >=> outer) u).on st' = (.ok r, st₁) ∧ (outer u).on st₁ = (.ok r, st₂)

/-- One replacement absorbs another when, of the leaves, the outer map makes
the same as of what the inner map makes of them. -/
theorem Realizes.absorbs (hg : st.Realizes g κ) (hf : st.Realizes f θ)
    (h : ∀ l, (θ l).subst κ = κ l) : st.Absorbs g f := by
  intro st' u U hst hU
  have hboth := hf.comp hg hst hU
  rw [Tree.subst_congr fun l _ => h l] at hboth
  apply hboth.answers_same
  intro st'' hst'
  exact hg (extends_trans hst hst') (denotes_of_extends hst' hU)

/-- Replacing along a chain absorbs replacing along another one, if every
map that agrees with the first agrees with the second. -/
theorem Resolvable.absorbs {m m' : Subst} (hm : st.Resolvable m) (hm' : st.Resolvable m')
    (h : ∀ θ, st.Respects m θ → st.Respects m' θ) : st.Absorbs m.replace m'.replace := by
  obtain ⟨μ, hμ⟩ := hm.acyclic.exists_resolves
  obtain ⟨ν, hν⟩ := hm'.acyclic.exists_resolves
  apply (realizes_replace hm hμ).absorbs (realizes_replace hm' hν)
  exact hν.subst_leaf hm'.acyclic (h μ hμ.respects)

end TypedTerms.TermStore

/-!
## What replacing comes to

Replacing follows the bindings until none is left. In what it answers no
bound leaf stands any more (`Resolves.not_binds_of_mem_leaves`): by going
along the chain, since the leaves of a value are replaced before they are
put in its place. So replacing once more changes nothing.

Where no bound leaf stands, every node is rebuilt over the children that
it has, and comes out as the node that the store knows. The term is
answered as it is, and nothing is made (`Subst.on_replace_of_untouched`).
-/

namespace TypedTerms

open TermStore

namespace Build

variable {st : TermStore} {t : TermId} {T : Tree} {f : TermId → Build TermId} {d : Nat}

/-- Steps that answer what they are given, and make nothing, do so one after
the other. -/
theorem on_mapM_self {α : Type} {g : α → Build α} {as : List α}
    (h : ∀ a ∈ as, (g a).on st = (.ok a, st)) : (as.mapM g).on st = (.ok as, st) := by
  induction as with
  | nil => rw [List.mapM_nil, on_pure]
  | cons a as ih =>
    obtain ⟨ha, has⟩ := List.forall_mem_cons.mp h
    rw [List.mapM_cons, on_bind_ok ha, on_bind_ok (ih has), on_pure]

/-- A term over the children that it has is the term, and is known. -/
theorem on_remake_self {op : Operator} {c : TermId} {cs : List TermId}
    (h : st.node? t = some (.app op c cs)) : (remake t (c :: cs)).on st = (.ok t, st) := by
  rw [on_remake h, intern_of_node? h]

/-- Mapping the leaves of a term to themselves answers the term, and
makes nothing. -/
theorem on_mapLeavesWithin_self (hT : st.Denotes t T) (hd : T.depth ≤ d)
    (hf : ∀ x l, st.node? x = some (.leaf l) → l ∈ T.leaves → (f x).on st = (.ok x, st)) :
    (mapLeavesWithin f d t).on st = (.ok t, st) := by
  refine hT.walk_induct (P := fun d u => (mapLeavesWithin f d u).on st = (.ok u, st)) hd ?_
  intro d u n hn hu ih
  rw [mapLeavesWithin, on_bind_ok (on_children hn)]
  cases n with
  | leaf l => exact hf u l hn (hT.mem_leaves hn hu)
  | app op c cs => exact (on_bind_ok (on_mapM_self ih)).trans (on_remake_self hn)

/-- Where every leaf is mapped to itself, the term is answered and nothing
is made. -/
theorem on_mapLeaves_self (hT : st.Denotes t T)
    (hf : ∀ x l, st.node? x = some (.leaf l) → l ∈ T.leaves → (f x).on st = (.ok x, st)) :
    (mapLeaves f t).on st = (.ok t, st) := by
  rw [mapLeaves, on_bind_ok (on_read_ok growingDepthLimit)]
  exact on_mapLeavesWithin_self hT hT.depth_le_growingDepthLimit hf

end Build

open Build

variable {st : TermStore} {s : Subst} {t : TermId} {T : Tree} {σ : Leaf → Tree} {l k : Leaf}

/-- No bound term stands in the term. -/
def TermStore.Untouched (st : TermStore) (s : Subst) (t : TermId) : Prop :=
  ∀ ⦃x v⦄, s.get? x = some v → ¬ st.Subterm x t

/-- A term in which no bound term stands is answered as it is, and
nothing is made. -/
theorem Subst.on_replace_of_untouched (hT : st.Denotes t T) (h : st.Untouched s t) :
    (s.replace t).on st = (.ok t, st) := by
  rw [replace, replaceWithin]
  by_cases hempty : s.isEmpty = true
  · rw [if_pos hempty, on_pure]
  rw [if_neg hempty]
  apply on_mapLeaves_self hT
  intro x l hx hl
  cases hv : s.get? x with
  | none => rfl
  | some v =>
    obtain ⟨y, hy, hsub⟩ := hT.exists_leaf hl
    exact absurd (node?_inj hx hy ▸ hsub) (h hv)

namespace TermStore

/-- The leaves of what the resolution puts in the place of a leaf are not
bound. -/
theorem Resolves.not_binds_of_mem_leaves (hσ : st.Resolves s σ) (hs : st.Acyclic s)
    (hk : k ∈ (σ l).leaves) (V : Tree) : ¬ st.Binds s k V := by
  refine hσ.induct hs (P := fun _ T => k ∈ T.leaves → ¬ st.Binds s k V) ?_ ?_ l hk
  · intro l W _ ih hk
    obtain ⟨j, hj, hk⟩ := Tree.mem_leaves_subst.mp hk
    exact ih j hj hk
  · intro l free hk
    rw [Tree.mem_leaves_leaf.mp hk]
    exact free V

/-- In a term for a tree under the resolution no bound term stands. -/
theorem Resolves.untouched (hσ : st.Resolves s σ) (hs : st.Resolvable s)
    (hr : st.Denotes t (T.subst σ)) : st.Untouched s t := by
  intro x v hv hsub
  obtain ⟨k, hk⟩ := hs.key_leaf hv
  obtain ⟨V, hV⟩ := hs.value_denotes hv
  obtain ⟨l, -, hkl⟩ := Tree.mem_leaves_subst.mp (hr.mem_leaves hk hsub)
  exact hσ.not_binds_of_mem_leaves hs.acyclic hkl V ⟨x, v, hk, hv, hV⟩

/-- Replacing resolves fully, and once is enough. Along every chain whose
keys are leaves, whose values are terms of the store, and on which no
leaf comes back to itself, it answers for every term. In what it answers
no key stands; replacing that answers it as it is, and makes nothing. And
it answers the term itself exactly when no key stands in the term. -/
theorem replace_resolves (hs : st.Resolvable s) (hT : st.Denotes t T) :
    ∃ r st', (s.replace t).on st = (.ok r, st') ∧ st'.Untouched s r ∧
      (s.replace r).on st' = (.ok r, st') ∧ (r = t ↔ st.Untouched s t) := by
  obtain ⟨σ, hσ⟩ := hs.acyclic.exists_resolves
  obtain ⟨r, st', hr, hst, hrT⟩ := Subst.yields_replace hs hσ hT (extends_refl st)
  have hclear : st'.Untouched s r := (hσ.of_extends hs hst).untouched (hs.of_extends hst) hrT
  refine ⟨r, st', hr, hclear, Subst.on_replace_of_untouched hrT hclear, ?_⟩
  constructor
  · rintro rfl x v hv hsub
    exact hclear hv (hsub.of_extends hst)
  · intro h
    rw [Subst.on_replace_of_untouched hT h] at hr
    cases hr
    rfl

/-- A chain on which every leaf of a value is of a lower rank than the key
has no circle. -/
theorem acyclic_of_rank (rank : Leaf → Nat) (h : ∀ ⦃x v⦄, s.get? x = some v →
    ∀ l V, st.node? x = some (.leaf l) → st.Denotes v V → ∀ k ∈ V.leaves, rank k < rank l) :
    st.Acyclic s := by
  intro l
  refine not_transGen_self (M := fun l n => rank l = n) (fun hm hn => hm.symm.trans hn) ?_ rfl
  rintro l k _ rfl ⟨V, ⟨x, v, hx, hv, hV⟩, hk⟩
  exact ⟨rank k, h hv l V hx hV k hk, rfl⟩

/-- The chain `a ↦ y, x ↦ g(a)`, which binds a constant and a variable. -/
def sampleDefinitions : Subst := (Subst.empty.bind ⟨3⟩ ⟨1⟩).bind ⟨0⟩ ⟨7⟩

/-- Ranks by which `x` comes before `a`, and `a` before `y`. -/
def sampleRank : Leaf → Nat
  | .var 0 _ => 2
  | .global .. => 1
  | _ => 0

/-- From `x` the bindings lead to `a` and on to `y`, and end there. -/
theorem resolvable_sampleDefinitions : sample.Resolvable sampleDefinitions := by
  have hy : sample.Denotes ⟨1⟩ (.leaf (.var 1 .individual)) := denotes_leaf_iff.mpr rfl
  have hga : sample.Denotes ⟨7⟩ (.app .call (.leaf (.function 4 ⟨1⟩ .individual [.individual]))
      [.leaf (.global 3 ⟨0⟩ .individual)]) := ⟨_, _, rfl, rfl, _, _, rfl, rfl, rfl⟩
  have none {P : TermId → TermId → Prop} : ∀ ⦃x v⦄, Subst.empty.get? x = some v → P x v :=
    fun _ _ hv => nomatch hv
  refine ⟨?_, ?_, acyclic_of_rank sampleRank ?_⟩
  · exact Subst.forall_get?_bind ⟨_, rfl⟩ (Subst.forall_get?_bind ⟨_, rfl⟩ none)
  · exact Subst.forall_get?_bind ⟨_, hga⟩ (Subst.forall_get?_bind ⟨_, hy⟩ none)
  · refine Subst.forall_get?_bind ?_ (Subst.forall_get?_bind ?_ none)
    · rintro l V hx hV
      cases hx
      rw [denotes_unique hV hga]
      decide
    · rintro l V hx hV
      cases hx
      rw [denotes_unique hV hy]
      decide

/-- Under `a ↦ y, x ↦ g(a)` the term `f(x, z)` becomes `f(g(y), z)`. -/
theorem replace_resolves_sample :
    sample.Resolvable sampleDefinitions ∧
      ∃ r st', (sampleDefinitions.replace ⟨8⟩).on sample = (.ok r, st') ∧
        st'.Untouched sampleDefinitions r ∧ (sampleDefinitions.replace r).on st' = (.ok r, st') ∧
        (r = ⟨8⟩ ↔ sample.Untouched sampleDefinitions ⟨8⟩) :=
  have ⟨_, hT, _⟩ : sample.WellFormed ⟨8⟩ := by decide
  ⟨resolvable_sampleDefinitions, replace_resolves resolvable_sampleDefinitions hT⟩

end TermStore

end TypedTerms
