import Mathlib.Algebra.Order.BigOperators.Group.List
import Mathlib.Algebra.Order.Ring.Nat
import Mathlib.Data.List.MinMax
import TypedTerms.Term.Tree

/-!
# Folds of trees

A tree is read from the leaves up: `Tree.fold` gives a meaning to every
leaf and combines the meanings of the children at every operator.
Substitution, the list of leaves, weight and depth are folds, so the laws
of folds are proved once. Two of them carry the rest: a fold looks at the
leaves of the tree only (`fold_congr`), and a fold of a tree under a
substitution is a fold of the tree itself (`fold_subst`).
-/

namespace TypedTerms.Tree

/-- A property of trees that the operators hand up from the children
holds of every tree. -/
@[elab_as_elim, induction_eliminator]
theorem ind {motive : Tree → Prop} (leaf : ∀ l, motive (.leaf l))
    (app : ∀ op first rest, (∀ c ∈ first :: rest, motive c) → motive (.app op first rest))
    (t : Tree) : motive t :=
  @Tree.rec motive (fun ts => ∀ c ∈ ts, motive c) leaf
    (fun op first rest ihFirst ihRest =>
      app op first rest (List.forall_mem_cons.mpr ⟨ihFirst, ihRest⟩))
    (fun _ h => absurd h List.not_mem_nil)
    (fun _ _ ihHead ihTail => List.forall_mem_cons.mpr ⟨ihHead, ihTail⟩)
    t

/-- The children at the root, in order. -/
def children : Tree → List Tree
  | .leaf _ => []
  | .app _ first rest => first :: rest

section Fold

variable {α : Type} (leaf : Leaf → α) (app : Operator → α → List α → α)

mutual

/-- The meaning of a tree, from the meanings of its leaves up. -/
def fold : Tree → α
  | .leaf l => leaf l
  | .app op first rest => app op (fold first) (foldAll rest)

/-- The meanings of a list of trees. -/
def foldAll : List Tree → List α
  | [] => []
  | t :: ts => fold t :: foldAll ts

end

theorem foldAll_eq_map (ts : List Tree) : foldAll leaf app ts = ts.map (fold leaf app) := by
  induction ts with
  | nil => rfl
  | cons t ts ih => rw [foldAll, ih, List.map_cons]

@[simp] theorem fold_leaf (l : Leaf) : fold leaf app (.leaf l) = leaf l := rfl

/-- Folding a node is putting together what its children are folded to. -/
@[simp] theorem fold_app (op : Operator) (first : Tree) (rest : List Tree) :
    fold leaf app (.app op first rest) =
      app op (fold leaf app first) (rest.map (fold leaf app)) := by
  rw [fold, foldAll_eq_map]

end Fold

/-! ## Substitution and leaves -/

/-- The tree with a tree in place of every leaf, all at once. -/
def subst (θ : Leaf → Tree) : Tree → Tree := fold θ .app

@[simp] theorem subst_leaf (θ : Leaf → Tree) (l : Leaf) : (Tree.leaf l).subst θ = θ l := rfl

@[simp] theorem subst_app (θ : Leaf → Tree) (op : Operator) (first : Tree) (rest : List Tree) :
    (Tree.app op first rest).subst θ = .app op (first.subst θ) (rest.map (subst θ)) :=
  fold_app θ .app op first rest

/-- The children of the new tree are those of the old one, substituted. -/
theorem subst_mem_children {θ : Leaf → Tree} {c t : Tree} (h : c ∈ t.children) :
    c.subst θ ∈ (t.subst θ).children := by
  cases t with
  | leaf l => cases h
  | app op first rest =>
    rw [subst_app]
    exact List.mem_map_of_mem (f := subst θ) h

/-- The leaves of a tree, left to right. -/
def leaves : Tree → List Leaf := fold (fun l => [l]) fun _ first rest => first ++ rest.flatten

@[simp] theorem mem_leaves_leaf {l k : Leaf} : l ∈ (Tree.leaf k).leaves ↔ l = k :=
  List.mem_singleton

@[simp] theorem mem_leaves_app {l : Leaf} {op : Operator} {first : Tree} {rest : List Tree} :
    l ∈ (Tree.app op first rest).leaves ↔ ∃ c ∈ first :: rest, l ∈ c.leaves := by
  rw [leaves, fold_app, List.mem_append, List.mem_flatten, List.exists_mem_cons_iff]
  simp only [List.mem_map, exists_exists_and_eq_and]

/-- A leaf of a child is a leaf of the tree. -/
theorem mem_leaves_of_mem_children {l : Leaf} {c t : Tree} (hc : c ∈ t.children)
    (hl : l ∈ c.leaves) : l ∈ t.leaves := by
  cases t with
  | leaf k => cases hc
  | app op first rest => exact mem_leaves_app.mpr ⟨c, hc, hl⟩

/-- Every tree has a leaf. -/
theorem exists_mem_leaves (t : Tree) : ∃ l, l ∈ t.leaves := by
  induction t with
  | leaf l => exact ⟨l, mem_leaves_leaf.mpr rfl⟩
  | app op first rest ih =>
    obtain ⟨l, hl⟩ := ih first List.mem_cons_self
    exact ⟨l, mem_leaves_app.mpr ⟨first, List.mem_cons_self, hl⟩⟩

/-- A fold asks for the meaning of the leaves that stand in the tree, and
of no others. -/
theorem fold_congr {α : Type} {f g : Leaf → α} (app : Operator → α → List α → α) {t : Tree}
    (h : ∀ l ∈ t.leaves, f l = g l) : t.fold f app = t.fold g app := by
  induction t with
  | leaf l => exact h l (mem_leaves_leaf.mpr rfl)
  | app op first rest ih =>
    have hChild : ∀ c ∈ first :: rest, c.fold f app = c.fold g app := by
      intro c hc
      apply ih c hc
      intro l hl
      exact h l (mem_leaves_app.mpr ⟨c, hc, hl⟩)
    obtain ⟨hFirst, hRest⟩ := List.forall_mem_cons.mp hChild
    rw [fold_app, fold_app, hFirst, List.map_congr_left hRest]

/-- A fold of a tree under a substitution reads every leaf by what stands
in its place. -/
theorem fold_subst {α : Type} (f : Leaf → α) (app : Operator → α → List α → α) (θ : Leaf → Tree)
    (t : Tree) : (t.subst θ).fold f app = t.fold (fun l => (θ l).fold f app) app := by
  induction t with
  | leaf l => rfl
  | app op first rest ih =>
    obtain ⟨ihFirst, ihRest⟩ := List.forall_mem_cons.mp ih
    rw [subst_app, fold_app, fold_app, ihFirst, List.map_map]
    congr 1
    exact List.map_congr_left ihRest

/-- Only the leaves of the tree matter to what is made of it. -/
theorem subst_congr {θ η : Leaf → Tree} {t : Tree} (h : ∀ l ∈ t.leaves, θ l = η l) :
    t.subst θ = t.subst η :=
  fold_congr Tree.app h

/-- Substituting twice is substituting once, by the composed map. -/
theorem subst_subst (θ η : Leaf → Tree) (t : Tree) :
    (t.subst θ).subst η = t.subst fun l => (θ l).subst η := fold_subst η .app θ t

theorem subst_id (t : Tree) : t.subst .leaf = t := by
  induction t with
  | leaf l => rfl
  | app op first rest ih =>
    obtain ⟨ihFirst, ihRest⟩ := List.forall_mem_cons.mp ih
    rw [subst_app, ihFirst, List.map_congr_left ihRest, List.map_id']

/-- Two substitutions that make one tree of a tree do the same to each of
its leaves. -/
theorem eq_of_subst_eq {θ η : Leaf → Tree} {t : Tree} (h : t.subst θ = t.subst η) {l : Leaf}
    (hl : l ∈ t.leaves) : θ l = η l := by
  induction t with
  | leaf k =>
    rw [mem_leaves_leaf.mp hl]
    exact h
  | app op first rest ih =>
    obtain ⟨c, hc, hlc⟩ := mem_leaves_app.mp hl
    rw [subst_app, subst_app] at h
    injection h with _ hFirst hRest
    rcases List.mem_cons.mp hc with rfl | hmem
    · exact ih c hc hFirst hlc
    · exact ih c hc (List.map_inj_left.mp hRest c hmem) hlc

/-- The leaves of the new tree are those of what is put in the place of the
old leaves. -/
theorem mem_leaves_subst {θ : Leaf → Tree} {t : Tree} {k : Leaf} :
    k ∈ (t.subst θ).leaves ↔ ∃ l ∈ t.leaves, k ∈ (θ l).leaves := by
  induction t with
  | leaf l => simp only [subst_leaf, mem_leaves_leaf, exists_eq_left]
  | app op first rest ih =>
    rw [subst_app, mem_leaves_app, ← List.map_cons]
    simp only [List.mem_map, exists_exists_and_eq_and, mem_leaves_app]
    constructor
    · rintro ⟨c, hc, hk⟩
      obtain ⟨l, hl, hk⟩ := (ih c hc).mp hk
      exact ⟨l, ⟨c, hc, hl⟩, hk⟩
    · rintro ⟨l, ⟨c, hc, hl⟩, hk⟩
      exact ⟨c, hc, (ih c hc).mpr ⟨l, hl, hk⟩⟩

/-- A substitution that leaves the leaves of a tree alone leaves the tree
alone. -/
theorem subst_eq_self {θ : Leaf → Tree} {t : Tree} (h : ∀ l ∈ t.leaves, θ l = .leaf l) :
    t.subst θ = t := (subst_congr h).trans t.subst_id

/-! ## Weight and depth -/

/-- The weight of a tree: one for each operator, and that of its leaves. -/
def weight (ω : Leaf → Nat) : Tree → Nat := fold ω fun _ first rest => first + rest.sum + 1

@[simp] theorem weight_leaf (ω : Leaf → Nat) (l : Leaf) : (Tree.leaf l).weight ω = ω l := rfl

@[simp] theorem weight_app (ω : Leaf → Nat) (op : Operator) (first : Tree) (rest : List Tree) :
    (Tree.app op first rest).weight ω =
      first.weight ω + (rest.map (weight ω)).sum + 1 := by
  rw [weight, fold_app]

/-- A child weighs less than the tree. -/
theorem weight_lt_of_mem (ω : Leaf → Nat) {c t : Tree} (h : c ∈ t.children) :
    c.weight ω < t.weight ω := by
  cases t with
  | leaf l => cases h
  | app op first rest =>
    have hle : c.weight ω ≤ ((first :: rest).map (weight ω)).sum :=
      List.single_le_sum (fun _ _ => Nat.zero_le _) _ (List.mem_map_of_mem h)
    rw [List.map_cons, List.sum_cons] at hle
    rw [weight_app]
    exact Nat.lt_succ_of_le hle

/-- The number of levels of a tree. -/
def depth : Tree → Nat := fold (fun _ => 1) fun _ first rest => (first :: rest).foldr max 0 + 1

/-- A node is one level deeper than the deepest of its children. -/
theorem depth_app (op : Operator) (first : Tree) (rest : List Tree) :
    (Tree.app op first rest).depth = ((first :: rest).map depth).foldr max 0 + 1 := by
  rw [depth, fold_app, List.map_cons]

/-- A child has fewer levels than the tree. -/
theorem depth_lt_of_mem {c t : Tree} (h : c ∈ t.children) : c.depth < t.depth := by
  cases t with
  | leaf l => cases h
  | app op first rest =>
    rw [depth_app]
    exact Nat.lt_succ_of_le (List.le_max_of_le (List.mem_map_of_mem h) le_rfl)

/-- A tree has one level more than its children have at most. -/
theorem depth_app_le {op : Operator} {first : Tree} {rest : List Tree} {n : Nat}
    (h : ∀ c ∈ first :: rest, c.depth ≤ n) : (Tree.app op first rest).depth ≤ n + 1 := by
  rw [depth_app]
  apply Nat.succ_le_succ
  apply List.max_le_of_forall_le
  intro d hd
  obtain ⟨c, hc, rfl⟩ := List.mem_map.mp hd
  exact h c hc

end TypedTerms.Tree
