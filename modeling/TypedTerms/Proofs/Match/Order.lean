import TypedTerms.Proofs.Contains
import TypedTerms.Proofs.Match.Sound

/-!
# Which variables matching binds, and in which order

Matching takes the pattern apart and keeps what is left of it on a stack.
The leaves that it has been past and the leaves of the pending patterns
are, at every step, the leaves of the pattern from left to right
(`Visiting`). A variable that it comes to is bound, unless it has a value.
So the new keys are the variables of the pattern that were free, each at
the place where it stands first (`matchWith_binds_in_order`).

A pair that is the same on both sides is passed over together with all
its leaves. No variable is missed there: it would be one of the pattern
and of the target.
-/

namespace TypedTerms.TermStore

variable {st : TermStore} {s s₀ s' m : Subst} {a b p t x v : TermId} {xs ys seen : List TermId}
  {pending new rest : List Equation} {T : Tree} {l : Leaf} {n : Nat}

/-! ## The leaves of a term -/

/-- The leaves of a term, left to right, each as often as it stands
there; none, if the walk through the term has no end. -/
def leafList (st : TermStore) (t : TermId) : List TermId :=
  match st.leaves t with
  | .ok xs => xs
  | .error _ => []

/-- The list of the leaves is what the walk answers, and stands for the
leaves of the tree. -/
theorem leafList_of_denotes (h : st.Denotes t T) : st.leaves t = .ok (st.leafList t) ∧
    List.Forall₂ (fun x l => st.node? x = some (.leaf l)) (st.leafList t) T.leaves := by
  obtain ⟨xs, hxs, hleaves⟩ := leaves_of_denotes h
  rw [leafList, hxs]
  exact ⟨rfl, hleaves⟩

/-- Terms for the same leaves are the same terms. -/
theorem eq_of_same_leaves {ls : List Leaf}
    (hx : List.Forall₂ (fun x l => st.node? x = some (.leaf l)) xs ls)
    (hy : List.Forall₂ (fun x l => st.node? x = some (.leaf l)) ys ls) : xs = ys := by
  induction hx generalizing ys with
  | nil =>
    cases hy
    rfl
  | cons h _ ih =>
    cases hy with
    | cons h' hy => rw [node?_inj h h', ih hy]

theorem leafList_leaf (h : st.node? t = some (.leaf l)) : st.leafList t = [t] :=
  eq_of_same_leaves (leafList_of_denotes (denotes_leaf_iff.mpr h)).2 (.cons h .nil)

theorem leafList_of_isVariable (h : st.IsVariable t) : st.leafList t = [t] := by
  obtain ⟨l, hl, -⟩ := h
  exact leafList_leaf hl

/-- The leaves of a compound term are those of its children, one child
after the other. -/
theorem leafList_app {op : Operator} {c : TermId} {cs : List TermId} (hT : st.Denotes t T)
    (h : st.node? t = some (.app op c cs)) : st.leafList t = (c :: cs).flatMap st.leafList := by
  cases T with
  | leaf l =>
    rw [denotes_leaf_iff.mp hT] at h
    cases h
  | app op first rest =>
    obtain ⟨d, ds, hnode, hall⟩ := denotes_app_iff.mp hT
    cases h.symm.trans hnode
    apply eq_of_same_leaves (leafList_of_denotes hT).2
    rw [Tree.leaves, Tree.fold_app]
    refine List.rel_flatten (a := (c :: cs).map st.leafList)
      (b := (first :: rest).map Tree.leaves) ?_
    rw [List.forall₂_map_left_iff, List.forall₂_map_right_iff]
    exact hall.imp fun _ _ hC => (leafList_of_denotes hC).2

/-- The leaves of a term stand in the term. -/
theorem subterm_of_mem_leafList (hT : st.Denotes t T) (hx : x ∈ st.leafList t) :
    st.Subterm x t := by
  obtain ⟨l, hl, hxl⟩ := exists_of_mem_left (leafList_of_denotes hT).2 hx
  obtain ⟨y, hy, hsub⟩ := hT.exists_leaf hl
  rwa [node?_inj hxl hy]

/-! ## The variables among terms -/

/-- The variables among the terms that the chain leaves free, each at the
place where it stands first. -/
def newVariables (st : TermStore) (s : Subst) (xs : List TermId) : List TermId :=
  (xs.filter fun x => (st.leaf? x).any Leaf.isVar && !s.isBound x).eraseDups

/-- A term passes for a variable when its leaf is one. -/
theorem any_leaf?_iff : (st.leaf? x).any Leaf.isVar = true ↔ st.IsVariable x := by
  rw [leaf?, IsVariable]
  cases st.node? x with
  | none => simp
  | some n => cases n <;> simp

/-- The new variables are the variables among the terms that have no
binding. -/
theorem mem_newVariables :
    x ∈ st.newVariables s xs ↔ x ∈ xs ∧ st.IsVariable x ∧ s.get? x = none := by
  rw [newVariables, List.mem_eraseDups, List.mem_filter, Bool.and_eq_true, any_leaf?_iff,
    Subst.isBound, Bool.not_eq_true', Option.isSome_eq_false_iff, Option.isNone_iff_eq_none]

/-- Behind other terms, terms add the free variables among them that were
not there before. -/
theorem newVariables_append (st : TermStore) (s : Subst) (xs ys : List TermId) :
    st.newVariables s (xs ++ ys) =
      st.newVariables s xs ++ st.newVariables s (ys.filter (· ∉ xs)) := by
  rw [newVariables, newVariables, newVariables, List.filter_append, List.eraseDups_append,
    List.removeAll, List.filter_filter, List.filter_filter]
  congr 2
  apply List.filter_congr
  intro y _
  generalize hnew : ((st.leaf? y).any Leaf.isVar && !s.isBound y) = new
  cases new <;> simp [hnew]

/-- Terms add nothing, if every variable among them was there before or is
bound. -/
theorem newVariables_append_eq_self
    (h : ∀ x ∈ ys, st.IsVariable x → s.get? x = none → x ∈ xs) :
    st.newVariables s (xs ++ ys) = st.newVariables s xs := by
  rw [newVariables_append, List.append_right_eq_self, List.eq_nil_iff_forall_not_mem]
  intro x hx
  obtain ⟨hmem, hvar, free⟩ := mem_newVariables.mp hx
  obtain ⟨hy, hnot⟩ := List.mem_filter.mp hmem
  exact of_decide_eq_true hnot (h x hy hvar free)

/-- A free variable that was not there before comes last. -/
theorem newVariables_concat (hvar : st.IsVariable x) (free : s.get? x = none) (hx : x ∉ xs) :
    st.newVariables s (xs ++ [x]) = st.newVariables s xs ++ [x] := by
  have hnew : ((st.leaf? x).any Leaf.isVar && !s.isBound x) = true := by
    rw [any_leaf?_iff.mpr hvar, Subst.isBound, free]
    rfl
  have hself : st.newVariables s [x] = [x] := by
    simp only [newVariables, List.filter_singleton, hnew]
    rfl
  have hlast : [x].filter (· ∉ xs) = [x] := by
    simp only [List.filter_singleton, decide_eq_true hx]
    rfl
  rw [newVariables_append, hlast, hself]

/-- Of `f(x, z)` and `x` again, `x` and `z` are new. -/
example : patternSample.newVariables .empty [⟨5⟩, ⟨0⟩, ⟨2⟩, ⟨0⟩] = [⟨0⟩, ⟨2⟩] := rfl

/-- The second chain has one binding more for each of the variables among
the terms that the first leaves free, in the order in which they stand
there first, and the new bindings have the property. -/
def AddsInOrder (st : TermStore) (P : TermId → TermId → Prop) (s₀ : Subst)
    (seen : List TermId) (s : Subst) : Prop :=
  ∃ frames : List (TermId × TermId), s.bindings = frames.reverse ++ s₀.bindings ∧
    frames.map Prod.fst = st.newVariables s₀ seen ∧ ∀ b ∈ frames, P b.1 b.2

section AddsInOrder

variable {P : TermId → TermId → Prop}

theorem addsInOrder_start : st.AddsInOrder P s [] s := ⟨[], rfl, rfl, fun _ hb => nomatch hb⟩

/-- Free are the terms that were free and are no variable seen since. -/
theorem AddsInOrder.get?_eq_none_iff (h : st.AddsInOrder P s₀ seen s) :
    s.get? x = none ↔ x ∉ st.newVariables s₀ seen ∧ s₀.get? x = none := by
  obtain ⟨frames, heq, hkeys, -⟩ := h
  rw [Subst.get?_eq_none_iff, heq, List.map_append, List.map_reverse, hkeys, List.mem_append,
    List.mem_reverse, not_or, Subst.get?_eq_none_iff]

/-- The chain stays past terms whose variables it binds. -/
theorem AddsInOrder.pass (h : st.AddsInOrder P s₀ seen s)
    (hxs : ∀ x ∈ xs, st.IsVariable x → s.get? x ≠ none) :
    st.AddsInOrder P s₀ (seen ++ xs) s := by
  have hseen : ∀ x ∈ xs, st.IsVariable x → s₀.get? x = none → x ∈ seen := by
    intro x hx hvar free
    by_contra hnot
    refine hxs x hx hvar (h.get?_eq_none_iff.mpr ⟨?_, free⟩)
    exact fun hnew => hnot (mem_newVariables.mp hnew).1
  obtain ⟨frames, heq, hkeys, hall⟩ := h
  exact ⟨frames, heq, hkeys.trans (newVariables_append_eq_self hseen).symm, hall⟩

/-- Binding a free variable adds the binding for it, which has not been seen
before. -/
theorem AddsInOrder.bind (h : st.AddsInOrder P s₀ seen s) (hvar : st.IsVariable x)
    (free : s.get? x = none) (hP : P x v) : st.AddsInOrder P s₀ (seen ++ [x]) (s.bind x v) := by
  obtain ⟨hnew, hfree⟩ := h.get?_eq_none_iff.mp free
  have hseen : x ∉ seen := fun hx => hnew (mem_newVariables.mpr ⟨hx, hvar, hfree⟩)
  obtain ⟨frames, heq, hkeys, hall⟩ := h
  refine ⟨frames ++ [(x, v)], ?_, ?_, ?_⟩
  · rw [Subst.bind, heq, List.reverse_concat, List.cons_append]
  · rw [List.map_append, hkeys, newVariables_concat hvar hfree hseen]
    rfl
  · exact List.forall_mem_append.mpr ⟨hall, List.forall_mem_singleton.mpr hP⟩

end AddsInOrder

/-! ## Going through the pattern -/

/-- The leaves of the patterns, one pattern after the other. -/
def pendingLeaves (st : TermStore) (pending : List Equation) : List TermId :=
  pending.flatMap fun e => st.leafList e.1

/-- The leaves pending between children are those of the children of the
pattern, in order. -/
theorem pendingLeaves_zip {cs ds : List TermId} (h : cs.length = ds.length) :
    st.pendingLeaves (cs.zip ds) = cs.flatMap st.leafList := by
  rw [pendingLeaves, ← List.flatMap_map, List.map_fst_zip h.le]

/-- The key does not stand in the target; the value does, and is of the
type of the key. -/
structure FromTarget (st : TermStore) (t x v : TermId) : Prop where
  value : st.Subterm v t
  same_ty : ∃ A, st.ty x = .ok A ∧ st.ty v = .ok A
  key : ¬ st.Subterm x t

/-- A state of matching `p` against `t` from the chain `s₀`: what is still
pending are the last of the leaves of the pattern, and the variables among
the first have been bound. -/
structure Visiting (st : TermStore) (p t : TermId) (s₀ s : Subst) (pending : List Equation) :
    Prop where
  below : ∀ e ∈ pending, st.Subterm e.1 p ∧ st.Subterm e.2 t
  visited : ∃ seen, st.leafList p = seen ++ st.pendingLeaves pending ∧
    st.AddsInOrder (st.FromTarget t) s₀ seen s

theorem visiting_start : st.Visiting p t s s [(p, t)] where
  below := List.forall_mem_singleton.mpr ⟨.refl, .refl⟩
  visited := ⟨[], by simp [pendingLeaves], addsInOrder_start⟩

/-- A step goes past the leaves in order: it takes an equation apart, or
passes the one leaf of its side and binds it if it is a free variable. -/
theorem Visiting.step (hp : st.WellFormed p) (ht : st.WellFormed t) (apart : st.Apart p t)
    (h : st.Visiting p t s₀ s ((a, b) :: rest))
    (hr : st.matchRule s a b = .ok (some (s', new))) : st.Visiting p t s₀ s' (new ++ rest) := by
  obtain ⟨hap, hbt⟩ := h.below _ List.mem_cons_self
  have hstep := (allWellFormed_of_below hp ht h.below).matchStep hr
  refine ⟨hstep.below h.below, ?_⟩
  obtain ⟨seen, hleaves, hadds⟩ := h.visited
  have hpast : st.leafList p = (seen ++ st.leafList a) ++ st.pendingLeaves rest := by
    rw [hleaves, List.append_assoc]
    rfl
  cases hstep with
  | same hab =>
    -- no leaf that is passed over is a variable: pattern and target would share it
    refine ⟨_, hpast, hadds.pass ?_⟩
    intro x hx hvar
    obtain ⟨A, hA, -⟩ := hp.subterm hap
    have hxa : st.Subterm x a := subterm_of_mem_leafList hA hx
    have hxb : st.Subterm x b := hab ▸ hxa
    exact absurd (hbt.trans hxb) (apart x hvar (hap.trans hxa))
  | met hvar hv =>
    refine ⟨_, hpast, hadds.pass ?_⟩
    rw [leafList_of_isVariable hvar, List.forall_mem_singleton, hv]
    exact fun _ => nofun
  | bind _ hty hvar free =>
    obtain ⟨B, hB⟩ := (ht.subterm hbt).exists_ty
    rw [leafList_of_isVariable hvar] at hpast
    exact ⟨_, hpast, hadds.bind hvar free ⟨hbt, ⟨B, hty.trans hB, hB⟩, apart a hvar hap⟩⟩
  | @split op c d cs ds hna hnb hlen =>
    obtain ⟨A, hA, -⟩ := hp.subterm hap
    refine ⟨seen, ?_, hadds⟩
    have hnew : st.pendingLeaves ((c, d) :: cs.zip ds) = st.leafList a := by
      rw [leafList_app hA hna]
      show st.pendingLeaves ((c :: cs).zip (d :: ds)) = _
      exact pendingLeaves_zip (congrArg Nat.succ hlen)
    rw [hpast, List.append_assoc, ← hnew, pendingLeaves, pendingLeaves, pendingLeaves,
      List.flatMap_append]

/-- Matching binds the variables of the pattern, and in order. Let pattern
and target have no variable in common. Then the chain that matching
answers is the chain that it was given with one binding more for each
variable of the pattern that was free. They are made in the order in which
the variables stand in the pattern for the first time, from left to right.
Every new value is a part of the target, of the type of its key, and no
new key stands in the target. -/
theorem matchWith_binds_in_order (hp : st.WellFormed p) (ht : st.WellFormed t)
    (apart : st.Apart p t) (hm : st.matchWith n s p t = .ok (some m)) :
    ∃ (xs : List TermId) (frames : List (TermId × TermId)), st.leaves p = .ok xs ∧
      m.bindings = frames.reverse ++ s.bindings ∧ frames.map Prod.fst = st.newVariables s xs ∧
      ∀ b ∈ frames, st.Subterm b.2 t ∧ (∃ A, st.ty b.1 = .ok A ∧ st.ty b.2 = .ok A) ∧
        ¬ st.Subterm b.1 t := by
  have hend : st.Visiting p t s m [] :=
    Rule.invariant_of_solve (I := st.Visiting p t s) (Visiting.step hp ht apart) visiting_start hm
  obtain ⟨seen, hleaves, frames, heq, hkeys, hall⟩ := hend.visited
  obtain ⟨P, hP, -⟩ := hp
  rw [pendingLeaves, List.flatMap_nil, List.append_nil] at hleaves
  refine ⟨seen, frames, hleaves ▸ (leafList_of_denotes hP).1, heq, hkeys, ?_⟩
  exact fun b hb => ⟨(hall b hb).value, (hall b hb).same_ty, (hall b hb).key⟩

/-- Matching `f(x, z)` against `f(g(y), a)` binds `x` first, and then
`z`. -/
theorem matchWith_binds_in_order_sample :
    patternSample.matchWith 20 .empty ⟨7⟩ ⟨8⟩ = .ok (some ⟨[(⟨2⟩, ⟨3⟩), (⟨0⟩, ⟨6⟩)]⟩) ∧
      ∃ (xs : List TermId) (frames : List (TermId × TermId)),
        patternSample.leaves ⟨7⟩ = .ok xs ∧
        [(⟨2⟩, ⟨3⟩), (⟨0⟩, ⟨6⟩)] = frames.reverse ++ Subst.empty.bindings ∧
        frames.map Prod.fst = patternSample.newVariables .empty xs ∧
        ∀ b ∈ frames, patternSample.Subterm b.2 ⟨8⟩ ∧
          (∃ A, patternSample.ty b.1 = .ok A ∧ patternSample.ty b.2 = .ok A) ∧
          ¬ patternSample.Subterm b.1 ⟨8⟩ :=
  ⟨rfl, matchWith_binds_in_order (n := 20) (by decide) (by decide) apart_sample rfl⟩

end TypedTerms.TermStore
