import TypedTerms.Proofs.Reach
import TypedTerms.Proofs.Tree.Typing

/-!
# Reading terms as trees

What holds of the tree that a term stands for, said of the term. Children
and leaves of the tree are stood for by terms below the term, the levels
of the tree are no more than the nodes of the store, and the type derived
for the term is the type of the tree.

A term is well formed when it stands for a tree and every call in it has
a function at its head. It then has a type, and so has everything below
it.
-/

namespace TypedTerms

/-- Of two lists related place by place, a member of the first is related
to a member of the second. -/
theorem exists_of_mem_left {α β : Type} {R : α → β → Prop} {as : List α} {bs : List β}
    (h : List.Forall₂ R as bs) {a : α} (ha : a ∈ as) : ∃ b ∈ bs, R a b := by
  induction h with
  | nil => cases ha
  | cons hab _ ih =>
    rcases List.mem_cons.mp ha with rfl | ha
    · exact ⟨_, List.mem_cons_self, hab⟩
    · obtain ⟨b, hb, hr⟩ := ih ha
      exact ⟨b, List.mem_cons_of_mem _ hb, hr⟩

/-- Of lists related place by place, the members are related in another
way if the relation of members implies it. -/
theorem forall₂_imp_of_mem {α β : Type} {R S : α → β → Prop} {as : List α} {bs : List β}
    (h : List.Forall₂ R as bs) (himp : ∀ a ∈ as, ∀ b ∈ bs, R a b → S a b) :
    List.Forall₂ S as bs := by
  rw [List.forall₂_iff_zip] at h ⊢
  refine ⟨h.1, fun hmem => ?_⟩
  obtain ⟨ha, hb⟩ := List.of_mem_zip hmem
  exact himp _ ha _ hb (h.2 hmem)

/-- A list each of whose members is related to something is related place
by place to a list. -/
theorem exists_forall₂ {α β : Type} {R : α → β → Prop} {as : List α}
    (h : ∀ a ∈ as, ∃ b, R a b) : ∃ bs, List.Forall₂ R as bs := by
  induction as with
  | nil => exact ⟨[], .nil⟩
  | cons a as ih =>
    obtain ⟨⟨b, hb⟩, hrest⟩ := List.forall_mem_cons.mp h
    obtain ⟨bs, hbs⟩ := ih hrest
    exact ⟨b :: bs, .cons hb hbs⟩

/-- Steps that only answer, one for each member of a list, answer the
list of what they answer. -/
theorem mapM_eq_pure {m : Type → Type} [Monad m] [LawfulMonad m] {α β : Type} {f : α → m β}
    {as : List α} {bs : List β} (h : List.Forall₂ (fun a b => f a = pure b) as bs) :
    as.mapM f = pure bs := by
  induction h with
  | nil => exact List.mapM_nil
  | cons hab _ ih => rw [List.mapM_cons, hab, ih, pure_bind, pure_bind]

namespace TermStore

variable {st st' : TermStore} {t u c : TermId} {T : Tree} {l : Leaf}

/-! ## One level -/

/-- Terms stand for trees when they do so one by one. -/
theorem denotesAll_iff {ts : List TermId} {Ts : List Tree} :
    st.DenotesAll ts Ts ↔ List.Forall₂ st.Denotes ts Ts := by
  induction Ts generalizing ts with
  | nil => rw [DenotesAll, List.forall₂_nil_right_iff]
  | cons T Ts ih =>
    rw [DenotesAll, List.forall₂_cons_right_iff]
    simp only [ih]
    constructor
    · rintro ⟨t, ts', rfl, ht, hts⟩
      exact ⟨t, ts', ht, hts, rfl⟩
    · rintro ⟨t, ts', ht, hts, rfl⟩
      exact ⟨t, ts', rfl, ht, hts⟩

theorem denotes_leaf_iff : st.Denotes t (.leaf l) ↔ st.node? t = some (.leaf l) := by
  rw [Denotes]

/-- A term stands for a compound tree when its node has the operator and its
children stand for the children of the tree. -/
theorem denotes_app_iff {op : Operator} {first : Tree} {rest : List Tree} :
    st.Denotes t (.app op first rest) ↔
      ∃ c cs, st.node? t = some (.app op c cs) ∧
        List.Forall₂ st.Denotes (c :: cs) (first :: rest) := by
  rw [Denotes]
  simp only [denotesAll_iff, List.forall₂_cons]

/-- The store knows a term that stands for a tree, by the tag and the
children of the tree. -/
theorem Denotes.node (h : st.Denotes t T) :
    ∃ n, st.node? t = some n ∧ n.tag = T.tag ∧ List.Forall₂ st.Denotes n.children T.children := by
  cases T with
  | leaf l => exact ⟨_, denotes_leaf_iff.mp h, rfl, .nil⟩
  | app op first rest =>
    obtain ⟨c, cs, hnode, hall⟩ := denotes_app_iff.mp h
    exact ⟨_, hnode, rfl, hall⟩

theorem Denotes.eq_leaf (h : st.Denotes t T) (hnode : st.node? t = some (.leaf l)) :
    T = .leaf l := denotes_unique h (denotes_leaf_iff.mpr hnode)

/-- The leaf that a term is, if it is one. -/
def leaf? (st : TermStore) (t : TermId) : Option Leaf :=
  match st.node? t with
  | some (.leaf l) => some l
  | _ => none

/-- The first term is a child of the second. -/
def IsChild (st : TermStore) (c t : TermId) : Prop := ∃ n, st.node? t = some n ∧ c ∈ n.children

/-- The first term is the second, or stands somewhere inside it. -/
def Subterm (st : TermStore) (u t : TermId) : Prop :=
  Relation.ReflTransGen (fun t c => st.IsChild c t) t u

theorem isChild_iff {n : Node} (h : st.node? t = some n) : st.IsChild c t ↔ c ∈ n.children := by
  simp only [IsChild, h, Option.some.injEq, exists_eq_left']

/-- A child of the term stands for a child of the tree. -/
theorem Denotes.child (h : st.Denotes t T) (hc : st.IsChild c t) :
    ∃ C ∈ T.children, st.Denotes c C := by
  obtain ⟨n, hn, -, hall⟩ := h.node
  exact exists_of_mem_left hall ((isChild_iff hn).mp hc)

/-- A child of the tree is stood for by a child of the term. -/
theorem Denotes.exists_child {C : Tree} (h : st.Denotes t T) (hC : C ∈ T.children) :
    ∃ c, st.IsChild c t ∧ st.Denotes c C := by
  obtain ⟨n, hn, -, hall⟩ := h.node
  obtain ⟨c, hmem, hc⟩ := exists_of_mem_left hall.flip hC
  exact ⟨c, ⟨n, hn, hmem⟩, hc⟩

/-! ## Below a term -/

theorem Subterm.of_child {a : TermId} (h : st.Subterm a c) (hc : st.IsChild c t) :
    st.Subterm a t := .head hc h

/-- What stands in a term is the term or stands in a child. -/
theorem subterm_iff {n : Node} (h : st.node? t = some n) :
    st.Subterm u t ↔ u = t ∨ ∃ c ∈ n.children, st.Subterm u c := by
  rw [Subterm, Relation.ReflTransGen.cases_head_iff, eq_comm]
  simp only [isChild_iff h, Subterm]

/-- Nothing stands in a leaf but the leaf itself. -/
theorem Subterm.eq_of_leaf (h : st.Subterm u t) (ht : st.node? t = some (.leaf l)) : u = t :=
  ((subterm_iff ht).mp h).resolve_right fun ⟨_, hc, _⟩ => nomatch hc

/-- A leaf of the tree is stood for by a term below the term. -/
theorem Denotes.exists_leaf (h : st.Denotes t T) (hl : l ∈ T.leaves) :
    ∃ x, st.node? x = some (.leaf l) ∧ st.Subterm x t := by
  induction T generalizing t with
  | leaf k =>
    rw [Tree.mem_leaves_leaf] at hl
    exact ⟨t, hl ▸ denotes_leaf_iff.mp h, .refl⟩
  | app op first rest ih =>
    obtain ⟨C, hC, hl⟩ := Tree.mem_leaves_app.mp hl
    obtain ⟨c, hc, hcC⟩ := h.exists_child hC
    obtain ⟨x, hx, hsub⟩ := ih C hC hcC hl
    exact ⟨x, hx, hsub.of_child hc⟩

/-- What stands in a term stands for a tree with leaves of the term. -/
theorem Denotes.subterm (h : st.Denotes t T) (hu : st.Subterm u t) :
    ∃ U, st.Denotes u U ∧ ∀ l ∈ U.leaves, l ∈ T.leaves := by
  induction hu with
  | refl => exact ⟨T, h, fun _ hl => hl⟩
  | tail _ hc ih =>
    obtain ⟨U, hU, hsub⟩ := ih
    obtain ⟨C, hC, hcC⟩ := hU.child hc
    exact ⟨C, hcC, fun l hl => hsub l (Tree.mem_leaves_of_mem_children hC hl)⟩

/-- A leaf stands in a term when it is a leaf of the tree. -/
theorem Denotes.mem_leaves (h : st.Denotes t T) (hx : st.node? u = some (.leaf l))
    (hu : st.Subterm u t) : l ∈ T.leaves := by
  obtain ⟨U, hU, hsub⟩ := h.subterm hu
  rw [hU.eq_leaf hx] at hsub
  exact hsub l (Tree.mem_leaves_leaf.mpr rfl)

/-- Every term that the store knows. -/
def known (st : TermStore) : Finset TermId := (Finset.range st.size).image TermId.mk

/-- The store knows no more terms than it has nodes. -/
theorem card_known_le (st : TermStore) : st.known.card ≤ st.size :=
  Finset.card_image_le.trans (Finset.card_range _).le

theorem mem_known {n : Node} (h : st.node? t = some n) : t ∈ st.known := by
  refine Finset.mem_image.mpr ⟨t.raw, Finset.mem_range.mpr ?_, rfl⟩
  by_contra hle
  rw [node?, Interner.get?_eq_none_iff.mpr (Nat.le_of_not_lt hle)] at h
  cases h

/-- A term that stands for a tree does not stand inside itself. -/
theorem Denotes.not_below_itself (h : st.Denotes t T) :
    ¬ Relation.TransGen (fun t c => st.IsChild c t) t t := by
  refine not_transGen_self (M := fun t d => ∃ T, st.Denotes t T ∧ T.depth = d) ?_ ?_ ⟨T, h, rfl⟩
  · rintro t m n ⟨T, hT, rfl⟩ ⟨U, hU, rfl⟩
    rw [denotes_unique hT hU]
  · rintro t c m ⟨T, hT, rfl⟩ hc
    obtain ⟨C, hC, hcC⟩ := hT.child hc
    exact ⟨C.depth, Tree.depth_lt_of_mem hC, C, hcC, rfl⟩

/-- A tree has no more levels than the store has nodes: on the way down
no node comes twice. -/
theorem Denotes.depth_le_size (h : st.Denotes t T) : T.depth ≤ st.size := by
  suffices hcount : T.depth ≤ reachCount (fun t c => st.IsChild c t) st.known t from
    hcount.trans ((reachCount_le _ _).trans st.card_known_le)
  induction T generalizing t with
  | leaf l => exact reachCount_pos (mem_known (denotes_leaf_iff.mp h))
  | app op first rest ih =>
    obtain ⟨n, hn, -, -⟩ := h.node
    have hdrop : ∀ {c}, st.IsChild c t →
        reachCount (fun t c => st.IsChild c t) st.known c <
          reachCount (fun t c => st.IsChild c t) st.known t :=
      fun hc => reachCount_lt hc (mem_known hn) h.not_below_itself
    have hchild : ∀ C ∈ first :: rest,
        C.depth ≤ reachCount (fun t c => st.IsChild c t) st.known t - 1 := by
      intro C hC
      obtain ⟨c, hc, hcC⟩ := h.exists_child hC
      have hle := ih C hC hcC
      have := hdrop hc
      omega
    have hpos := reachCount_pos (r := fun t c => st.IsChild c t) (mem_known hn)
    have hdepth : (Tree.app op first rest).depth ≤ _ := Tree.depth_app_le hchild
    omega

/-- The bound for maps that make terms is enough for every term that is
known at their start. -/
theorem Denotes.depth_le_growingDepthLimit (h : st.Denotes t T) :
    T.depth ≤ st.growingDepthLimit := by
  rw [growingDepthLimit, depthLimit, Nat.add_assoc]
  exact h.depth_le_size.trans (Nat.le_add_right _ _)

/-- Induction along a walk through a term, on the tree and the levels
together: a walk that is given as many levels as the tree has comes to a
leaf with a level left, and to a node with as many more as its children
need. -/
theorem Denotes.within_induct {P : Nat → TermId → Tree → Prop} {d : Nat} (h : st.Denotes t T)
    (hd : T.depth ≤ d)
    (leaf : ∀ {d u l}, st.node? u = some (.leaf l) → P (d + 1) u (.leaf l))
    (app : ∀ {d u op c cs first rest}, st.node? u = some (.app op c cs) →
      List.Forall₂ st.Denotes (c :: cs) (first :: rest) →
      List.Forall₂ (P d) (c :: cs) (first :: rest) → P (d + 1) u (.app op first rest)) :
    P d t T := by
  induction T generalizing t d with
  | leaf l =>
    obtain ⟨d, rfl⟩ := Nat.exists_eq_add_of_le' hd
    exact leaf (denotes_leaf_iff.mp h)
  | app op first rest ih =>
    obtain ⟨c, cs, hnode, hall⟩ := denotes_app_iff.mp h
    cases d with
    | zero => exact absurd hd (Nat.not_succ_le_zero _)
    | succ d =>
      refine app hnode hall (forall₂_imp_of_mem hall fun x _ C hC hx => ?_)
      have hlt := Tree.depth_lt_of_mem (t := .app op first rest) hC
      exact ih C hC hx (Nat.le_of_lt_succ (hlt.trans_le hd))

/-- What holds at every part of a term, provided it holds one level further
down at the children of the part, holds at the term with as many levels as
its tree has. -/
theorem Denotes.walk_induct {P : Nat → TermId → Prop} {d : Nat} (h : st.Denotes t T)
    (hd : T.depth ≤ d)
    (step : ∀ {d u n}, st.node? u = some n → st.Subterm u t → (∀ c ∈ n.children, P d c) →
      P (d + 1) u) : P d t := by
  refine h.within_induct (P := fun d u _ => st.Subterm u t → P d u) hd ?_ ?_ .refl
  · intro d u l hu hsub
    exact step hu hsub fun c hc => nomatch hc
  · intro d u op c cs first rest hu _ hbelow hsub
    refine step hu hsub fun x hx => ?_
    obtain ⟨C, -, hxC⟩ := exists_of_mem_left hbelow hx
    exact hxC (.tail hsub ⟨_, hu, hx⟩)

/-! ## Types -/

/-- Within as many levels as the tree has, the type of the tree is
derived. -/
theorem tyWithin_of_denotes {d : Nat} (h : st.Denotes t T) (hd : T.depth ≤ d) :
    st.tyWithin d t = T.ty := by
  refine h.within_induct (P := fun d t T => st.tyWithin d t = T.ty) hd ?_ ?_
  · intro d u l hu
    rw [tyWithin, node_of_node? hu]
    rfl
  · intro d u op c cs first rest hu hall hbelow
    have hfirst := (List.forall₂_cons.mp hall).1
    have hc := (List.forall₂_cons.mp hbelow).1
    rw [tyWithin, node_of_node? hu, Tree.ty]
    cases hr : op.resultRule with
    | always A => simp only [bind, Except.bind, hr, pure, Except.pure]
    | firstOperand => simp only [bind, Except.bind, hr, hc]
    | headResult =>
      simp only [bind, Except.bind, hr]
      cases first with
      | leaf k =>
        rw [node_of_node? (denotes_leaf_iff.mp hfirst)]
        cases k <;> rfl
      | app op' first' rest' =>
        obtain ⟨d, ds, hd, -⟩ := denotes_app_iff.mp hfirst
        rw [node_of_node? hd]
        rfl

/-- The type derived for a term is the type of its tree. -/
theorem ty_of_denotes (h : st.Denotes t T) : st.ty t = T.ty :=
  tyWithin_of_denotes h (h.depth_le_size.trans (Nat.le_succ _))

/-- The term stands for a tree in which every call has a function at its
head. -/
def WellFormed (st : TermStore) (t : TermId) : Prop := ∃ T, st.Denotes t T ∧ T.WellFormed

theorem WellFormed.exists_denotes (h : st.WellFormed t) : ∃ T, st.Denotes t T :=
  have ⟨T, hT, _⟩ := h
  ⟨T, hT⟩

theorem WellFormed.known (h : st.WellFormed t) : ∃ n, st.node? t = some n :=
  have ⟨_, hT, _⟩ := h
  have ⟨n, hn, _⟩ := hT.node
  ⟨n, hn⟩

theorem WellFormed.child (h : st.WellFormed t) (hc : st.IsChild c t) : st.WellFormed c := by
  obtain ⟨T, hT, hwf⟩ := h
  obtain ⟨C, hC, hcC⟩ := hT.child hc
  exact ⟨C, hcC, hwf.child hC⟩

/-- What stands in a well-formed term is well formed. -/
theorem WellFormed.subterm (h : st.WellFormed t) (hu : st.Subterm u t) : st.WellFormed u := by
  induction hu with
  | refl => exact h
  | tail _ hc ih => exact ih.child hc

/-- A well-formed term has a type. -/
theorem WellFormed.exists_ty (h : st.WellFormed t) : ∃ A, st.ty t = .ok A := by
  obtain ⟨T, hT, hwf⟩ := h
  obtain ⟨A, hA⟩ := hwf.exists_ty
  exact ⟨A, (ty_of_denotes hT).trans hA⟩

/-! ## Growth -/

/-- A well-formed term stays so when the store grows. -/
theorem WellFormed.of_extends (h : st.WellFormed t) (hst : st.Extends st') : st'.WellFormed t := by
  obtain ⟨T, hT, hwf⟩ := h
  exact ⟨T, denotes_of_extends hst hT, hwf⟩

/-- A term keeps its type when the store grows. -/
theorem ty_of_extends (h : st.Denotes t T) (hst : st.Extends st') : st'.ty t = st.ty t :=
  (ty_of_denotes (denotes_of_extends hst h)).trans (ty_of_denotes h).symm

theorem Subterm.of_extends (h : st.Subterm u t) (hst : st.Extends st') : st'.Subterm u t :=
  Relation.ReflTransGen.mono (fun _ _ ⟨n, hn, hc⟩ => ⟨n, hst hn, hc⟩) t u h

end TermStore

end TypedTerms

/-!
## Deciding well-formedness

A term is well formed when it stands for a tree with functions at the
heads of its calls. The tree need not be given to tell: looking through
the term, for as many levels as the store has nodes, decides it
(`wellFormed_iff`).
-/

namespace TypedTerms.TermStore

variable {st : TermStore} {t c : TermId} {T : Tree} {d : Nat}

/-- Is the term a function? -/
def isFunction (st : TermStore) (t : TermId) : Bool :=
  match st.node? t with
  | some (.leaf (.function ..)) => true
  | _ => false

/-- Does the term end within a number of levels, with a function at the
head of every call? -/
def isWellFormedWithin (st : TermStore) : Nat → TermId → Bool
  | 0, _ => false
  | d + 1, t =>
    match st.node? t with
    | none => false
    | some (.leaf _) => true
    | some (.app op first rest) =>
      (op ≠ .call || st.isFunction first) && (first :: rest).all (st.isWellFormedWithin d)

/-- A term that passes for a function has the leaf of one. -/
theorem exists_function_of_isFunction (h : st.isFunction t = true) :
    ∃ id name result params, st.node? t = some (.leaf (.function id name result params)) := by
  rw [isFunction] at h
  split at h
  · next hnode => exact ⟨_, _, _, _, hnode⟩
  · cases h

theorem isFunction_of_denotes {id : Nat} {name : Symbol} {result : Ty} {params : List Ty}
    (h : st.Denotes t (.leaf (.function id name result params))) : st.isFunction t = true := by
  rw [isFunction, denotes_leaf_iff.mp h]

/-- A leaf is well formed, since no call stands in it. -/
theorem wellFormed_leaf {l : Leaf} (h : st.node? t = some (.leaf l)) : st.WellFormed t :=
  ⟨.leaf l, denotes_leaf_iff.mpr h, .leaf l⟩

/-- Well-formed terms stand for well-formed trees, one by one. -/
theorem exists_trees {ts : List TermId} (h : ∀ t ∈ ts, st.WellFormed t) :
    ∃ Ts, List.Forall₂ st.Denotes ts Ts ∧ ∀ T ∈ Ts, T.WellFormed := by
  obtain ⟨Ts, hTs⟩ := exists_forall₂ h
  refine ⟨Ts, hTs.imp fun _ _ hT => hT.1, fun T hT => ?_⟩
  obtain ⟨t, -, -, hwf⟩ := exists_of_mem_left hTs.flip hT
  exact hwf

/-- An operator over well-formed terms is well formed, a call if its head
is a function. -/
theorem wellFormed_app {op : Operator} {cs : List TermId}
    (h : st.node? t = some (.app op c cs)) (head : op = .call → st.isFunction c = true)
    (hall : ∀ x ∈ c :: cs, st.WellFormed x) : st.WellFormed t := by
  obtain ⟨Ts, hTs, hwf⟩ := exists_trees hall
  cases Ts with
  | nil => cases hTs
  | cons first rest =>
    refine ⟨.app op first rest, denotes_app_iff.mpr ⟨c, cs, h, hTs⟩, .app ?_ hwf⟩
    intro hop
    obtain ⟨id, name, result, params, hfun⟩ := exists_function_of_isFunction (head hop)
    exact ⟨id, name, result, params, (List.forall₂_cons.mp hTs).1.eq_leaf hfun⟩

/-- The test accepts only well-formed terms, whatever the levels that it is
given. -/
theorem wellFormed_of_isWellFormedWithin (h : st.isWellFormedWithin d t = true) :
    st.WellFormed t := by
  induction d generalizing t with
  | zero => cases h
  | succ d ih =>
    rw [isWellFormedWithin] at h
    split at h
    · cases h
    · next hnode => exact wellFormed_leaf hnode
    · next op first rest hnode =>
      rw [Bool.and_eq_true, List.all_eq_true] at h
      apply wellFormed_app hnode
      · intro hop
        simpa [hop] using h.1
      · intro x hx
        exact ih (h.2 x hx)

/-- Given as many levels as the tree has, the test accepts a well-formed
term. -/
theorem isWellFormedWithin_of_denotes (hT : st.Denotes t T) (hwf : T.WellFormed)
    (hd : T.depth ≤ d) : st.isWellFormedWithin d t = true := by
  refine hT.within_induct (P := fun d t T => T.WellFormed → st.isWellFormedWithin d t = true)
    hd ?_ ?_ hwf
  · intro d u l hu _
    rw [isWellFormedWithin, hu]
  · intro d u op c cs first rest hu hall hbelow hwf
    cases hwf with
    | app head hwf =>
      simp only [isWellFormedWithin, hu]
      rw [Bool.and_eq_true, List.all_eq_true]
      constructor
      · by_cases hop : op = .call
        · obtain ⟨id, name, result, params, rfl⟩ := head hop
          rw [isFunction_of_denotes (List.forall₂_cons.mp hall).1, Bool.or_true]
        · rw [decide_eq_true hop, Bool.true_or]
      · intro x hx
        obtain ⟨C, hC, hxC⟩ := exists_of_mem_left hbelow hx
        exact hxC (hwf C hC)

/-- The size of the store is as many levels as the test ever needs, so the
test decides. -/
theorem wellFormed_iff : st.WellFormed t ↔ st.isWellFormedWithin st.size t = true :=
  ⟨fun ⟨_, hT, hwf⟩ => isWellFormedWithin_of_denotes hT hwf hT.depth_le_size,
    wellFormed_of_isWellFormedWithin⟩

instance (st : TermStore) (t : TermId) : Decidable (st.WellFormed t) :=
  decidable_of_iff _ wellFormed_iff.symm

end TypedTerms.TermStore
