import TypedTerms.Proofs.Contains
import TypedTerms.Term.FreeVars

/-!
# Walks in a store that has grown

A walk through a term reads the nodes of the term and nothing else, so
what is added to the store later makes no difference to it. Each walk is
followed for one level: it answers the same at a term if it does at the
children. By induction over the tree that the term stands for it answers
the same at the term (`walk_eq`), within any two numbers of levels that
are enough.
-/

namespace TypedTerms

/-! ## Loops over a list

A loop asks about the members of its list only. -/

section Loops

variable {m : Type → Type} [Monad m] {α β : Type} {as : List α}

/-- Only what is done for the members of the list matters. -/
theorem forM_congr {f g : α → m PUnit} (h : ∀ a ∈ as, f a = g a) : as.forM f = as.forM g := by
  induction as with
  | nil => rfl
  | cons a as ih =>
    obtain ⟨ha, has⟩ := List.forall_mem_cons.mp h
    change (f a >>= fun _ => as.forM f) = g a >>= fun _ => as.forM g
    rw [ha, ih has]

theorem anyM_congr {f g : α → m Bool} (h : ∀ a ∈ as, f a = g a) : as.anyM f = as.anyM g := by
  induction as with
  | nil => rfl
  | cons a as ih =>
    obtain ⟨ha, has⟩ := List.forall_mem_cons.mp h
    rw [List.anyM_cons, List.anyM_cons, ha, ih has]

/-- Only the steps for the members of the list matter, from the left. -/
theorem foldlM_congr {f g : β → α → m β} (h : ∀ a ∈ as, ∀ b, f b a = g b a) (b : β) :
    as.foldlM f b = as.foldlM g b := by
  induction as generalizing b with
  | nil => rfl
  | cons a as ih =>
    obtain ⟨ha, has⟩ := List.forall_mem_cons.mp h
    rw [List.foldlM_cons, List.foldlM_cons, ha, funext (ih has)]

theorem foldrM_congr [LawfulMonad m] {f g : α → β → m β} (h : ∀ a ∈ as, ∀ b, f a b = g a b)
    (b : β) : as.foldrM f b = as.foldrM g b := by
  induction as with
  | nil => rfl
  | cons a as ih =>
    obtain ⟨ha, has⟩ := List.forall_mem_cons.mp h
    rw [List.foldrM_cons, List.foldrM_cons, ih has, funext ha]

end Loops

@[simp] theorem Check.read_ok {α : Type} (a : α) : Check.read (.ok a) = pure a := rfl

namespace TermStore

variable {st st' : TermStore} {t u v x : TermId} {T : Tree} {n : Node} {A : Ty} {d d' : Nat}

/-! ## One level -/

/-- The term stands for a tree. -/
def Unfolds (st : TermStore) (t : TermId) : Prop := ∃ T, st.Denotes t T

/-- A term that stands for a tree is known. -/
theorem Unfolds.exists_node (h : st.Unfolds t) : ∃ n, st.node? t = some n := by
  obtain ⟨T, hT⟩ := h
  exact hT.node.imp fun _ hn => hn.1

/-- The children of a term that stands for a tree do so too. -/
theorem Unfolds.of_mem_children (h : st.Unfolds t) (hn : st.node? t = some n)
    (hx : x ∈ n.children) : st.Unfolds x := by
  obtain ⟨T, hT⟩ := h
  obtain ⟨X, -, hX⟩ := hT.child ⟨n, hn, hx⟩
  exact ⟨X, hX⟩

/-- Induction along a walk: what holds of a node within one level more than
of its children holds of the term within the levels that walks are given. -/
theorem Unfolds.walk_induct {P : Nat → TermId → Prop} (h : st.Unfolds t)
    (step : ∀ {d u n}, st.node? u = some n → st.Subterm u t → (∀ c ∈ n.children, P d c) →
      P (d + 1) u) : P st.depthLimit t := by
  obtain ⟨T, hT⟩ := h
  exact hT.walk_induct (hT.depth_le_size.trans (Nat.le_succ _)) step

/-- What stands in a term that stands for a tree does so too. -/
theorem Unfolds.subterm (h : st.Unfolds t) (hu : st.Subterm u t) : st.Unfolds u := by
  obtain ⟨T, hT⟩ := h
  exact (hT.subterm hu).imp fun _ hU => hU.1

section Grown

variable (hst : st.Extends st') (ht : st.Unfolds t)
include hst ht

theorem node?_eq_of_extends : st'.node? t = st.node? t := by
  obtain ⟨n, hn⟩ := ht.exists_node
  rw [hn, hst hn]

theorem node_eq_of_extends : st'.node t = st.node t := by
  rw [node, node, node?_eq_of_extends hst ht]

/-- A term has the same type later, or stops at the same broken contract. -/
theorem ty_eq_of_extends : st'.ty t = st.ty t := by
  obtain ⟨T, hT⟩ := ht
  exact ty_of_extends hT hst

theorem isVar_eq_of_extends : st'.isVar t = st.isVar t := by
  rw [isVar, isVar, ofLeaf, ofLeaf, node_eq_of_extends hst ht]

theorem tag_eq_of_extends : st'.tag t = st.tag t := by
  rw [tag, tag, node_eq_of_extends hst ht]

end Grown

/-! ## Whole walks -/

/-- A walk answers the same in a store that has grown, if at every term it
does so provided it does at the children of the term. -/
theorem walk_eq {α : Type} (walk : TermStore → Nat → TermId → α) (hst : st.Extends st')
    (step : ∀ {t n d d'}, st.node? t = some n → st.Unfolds t →
      (∀ c ∈ n.children, walk st' d' c = walk st d c) → walk st' (d' + 1) t = walk st (d + 1) t)
    (ht : st.Unfolds t) : walk st' st'.depthLimit t = walk st st.depthLimit t := by
  -- the later store allows for more levels, but the tree has no more
  have within : ∀ {T t d d'}, st.Denotes t T → T.depth ≤ d → T.depth ≤ d' →
      walk st' d' t = walk st d t := by
    intro T
    induction T with
    | leaf l =>
      intro t d d' hT hd hd'
      obtain ⟨d, rfl⟩ := Nat.exists_eq_add_of_le' hd
      obtain ⟨d', rfl⟩ := Nat.exists_eq_add_of_le' hd'
      exact step (denotes_leaf_iff.mp hT) ⟨_, hT⟩ fun c hc => nomatch hc
    | app op first rest ih =>
      intro t d d' hT hd hd'
      obtain ⟨c, cs, hnode, hall⟩ := denotes_app_iff.mp hT
      cases d with
      | zero => exact absurd hd (Nat.not_succ_le_zero _)
      | succ d =>
        cases d' with
        | zero => exact absurd hd' (Nat.not_succ_le_zero _)
        | succ d' =>
          refine step hnode ⟨_, hT⟩ fun x hx => ?_
          obtain ⟨C, hC, hxC⟩ := exists_of_mem_left hall hx
          have hlt := Tree.depth_lt_of_mem (t := .app op first rest) hC
          exact ih C hC hxC (Nat.le_of_lt_succ (hlt.trans_le hd))
            (Nat.le_of_lt_succ (hlt.trans_le hd'))
  obtain ⟨T, hT⟩ := ht
  exact within hT (hT.depth_le_size.trans (Nat.le_succ _))
    ((denotes_of_extends hst hT).depth_le_size.trans (Nat.le_succ _))

/-- The children that count for the size are children. -/
theorem mem_children_of_counted (h : x ∈ countedChildren n) : x ∈ n.children := by
  unfold countedChildren at h
  split at h
  · exact List.mem_cons_of_mem _ h
  · exact h

section Grown

variable (hst : st.Extends st') (ht : st.Unfolds t)
include hst ht

/-- The same variables are found in a term later. -/
theorem contains_eq_of_extends (v : TermId) : st'.contains t v = st.contains t v := by
  refine walk_eq (fun st => st.containsWithin v) hst ?_ ht
  intro t n d d' hn ht hchildren
  rw [containsWithin, containsWithin, children_of_node? hn, children_of_node? (hst hn)]
  split
  · rfl
  · exact anyM_congr fun c hc => hchildren c (List.mem_reverse.mp hc)

/-- A term has the same size later. -/
theorem symbolCount_eq_of_extends : st'.symbolCount t = st.symbolCount t := by
  refine walk_eq symbolCountWithin hst ?_ ht
  intro t n d d' hn ht hchildren
  rw [symbolCountWithin, symbolCountWithin, node_of_node? hn, node_of_node? (hst hn)]
  exact foldrM_congr (fun c hc total => by rw [hchildren c (mem_children_of_counted hc)]) 1

/-- The same variables are free in a term later, in the same order. -/
theorem freeVars_eq_of_extends : st'.freeVars t = st.freeVars t := by
  let walk st d t bound found := freeVarsWithin st d bound t found
  refine congrFun (congrFun (walk_eq walk hst ?_ ht) []) []
  intro t n d d' hn _ hchildren
  funext bound found
  have hwalk : ∀ c ∈ n.children, ∀ bound found,
      st'.freeVarsWithin d' bound c found = st.freeVarsWithin d bound c found :=
    fun c hc bound found => congrFun (congrFun (hchildren c hc) bound) found
  show st'.freeVarsWithin (d' + 1) bound t found = st.freeVarsWithin (d + 1) bound t found
  rw [freeVarsWithin, freeVarsWithin, node_of_node? hn, node_of_node? (hst hn)]
  cases n with
  | leaf l => rfl
  | app op first rest =>
    cases op with
    | universal | existential => exact hwalk first List.mem_cons_self _ _
    | _ => exact foldlM_congr (fun c hc found => hwalk c hc bound found) found

/-- A check derives the same type for a term later, or reports the same
error. -/
theorem derive_eq_of_extends : st'.derive t = st.derive t := by
  refine walk_eq deriveWithin hst ?_ ht
  intro t n d d' hn ht hchildren
  rw [deriveWithin, deriveWithin, node_of_node? hn, node_of_node? (hst hn)]
  simp only [Check.read_ok, pure_bind]
  cases n with
  | leaf l => rfl
  | app op first rest =>
    have hfirst := ht.of_mem_children hn (x := first) List.mem_cons_self
    simp only [node_eq_of_extends hst hfirst, hchildren first List.mem_cons_self]

end Grown

/-! ## Checking -/

/-- The variables of a quantifier are checked the same later if each of them
is. -/
theorem checkVariables_congr {vars : List TermId} {tag : Tag} (hst : st.Extends st')
    (hvars : ∀ v ∈ vars, st.Unfolds v)
    (h : ∀ v ∈ vars, st'.checkWithin d' v = st.checkWithin d v) :
    (vars.forM fun v => do
      if ← Check.read (st'.isVar v) then st'.checkWithin d' v (← Check.read (st'.ty v))
      else throw (.invalid tag (.bound (← Check.read (st'.tag v))))) =
    (vars.forM fun v => do
      if ← Check.read (st.isVar v) then st.checkWithin d v (← Check.read (st.ty v))
      else throw (.invalid tag (.bound (← Check.read (st.tag v)))) : Check Unit) := by
  refine forM_congr fun v hv => ?_
  rw [isVar_eq_of_extends hst (hvars v hv), ty_eq_of_extends hst (hvars v hv),
    tag_eq_of_extends hst (hvars v hv), h v hv]

/-- The arguments of a call are checked the same later if each of them is.
-/
theorem checkArguments_congr {args : List TermId} (params : List Ty)
    (h : ∀ x ∈ args, st'.checkWithin d' x = st.checkWithin d x) :
    ((args.zip params).forM fun (arg, param) => st'.checkWithin d' arg param) =
      (args.zip params).forM fun (arg, param) => st.checkWithin d arg param :=
  forM_congr fun p hp => congrFun (h p.1 (List.of_mem_zip hp).1) p.2

/-- A term is checked the same later, errors included. -/
theorem check_eq_of_extends (hst : st.Extends st') (ht : st.Unfolds t) (A : Ty) :
    st'.check t A = st.check t A := by
  refine congrFun (walk_eq checkWithin hst ?_ ht) A
  intro t n d d' hn ht hchildren
  funext A
  rw [checkWithin, checkWithin, node_of_node? hn, node_of_node? (hst hn)]
  simp only [Check.read_ok, pure_bind, derive_eq_of_extends hst ht]
  cases n with
  | leaf l => rfl
  | app op first rest =>
    have hfirst := ht.of_mem_children hn (x := first) List.mem_cons_self
    have hall : ∀ B, (first :: rest).forM (st'.checkWithin d' · B) =
        (first :: rest).forM (st.checkWithin d · B) := fun B =>
      forM_congr fun c hc => congrFun (hchildren c hc) B
    have hrest : ∀ c ∈ rest, st'.checkWithin d' c = st.checkWithin d c := fun c hc =>
      hchildren c (List.mem_cons_of_mem first hc)
    have hvars : ∀ v ∈ rest, st.Unfolds v := fun v hv =>
      ht.of_mem_children hn (List.mem_cons_of_mem first hv)
    simp only [hall, checkVariables_congr hst hvars hrest, checkArguments_congr _ hrest,
      node_eq_of_extends hst hfirst, derive_eq_of_extends hst hfirst,
      hchildren first List.mem_cons_self]

end TermStore

end TypedTerms
