import TypedTerms.Proofs.Replace

/-!
# Renaming variables

A renaming exchanges variables for variables of their types and confuses
no two of them. On terms it acts leaf by leaf, on a chain binding by
binding. Behind it stands a map of leaves, `LeafRenaming`, which is what
renaming does to the tree that a term stands for.

Trees tell a renaming from other substitutions: no two of them become
the same (`Tree.rename_injective`), so terms are equal exactly when their
renamings are (`Renamed.eq_iff`). And the type of a tree stays, be the
tree well formed or not (`Tree.ty_rename`).
-/

/-!
## Computations that end alike

Two computations that may stop at a broken contract, seen from outside:
they end alike when both answer, and the answers are related, or when
both stop, at the same broken contract.
-/

namespace TypedTerms

/-- Two computations end alike: with related answers, or at the same
broken contract. -/
def EndAlike {α β : Type} (R : α → β → Prop) : Except Violation α → Except Violation β → Prop
  | .ok a, .ok b => R a b
  | .error v, .error w => v = w
  | _, _ => False

namespace EndAlike

variable {α β γ δ : Type} {R : α → β → Prop} {S : γ → δ → Prop}

theorem of_eq {x y : Except Violation α} (h : x = y) : EndAlike Eq x y := by
  subst h
  cases x <;> rfl

/-- Computations end alike when their first steps do and the rest does so
after related answers. -/
theorem bind {x : Except Violation α} {y : Except Violation β} {f : α → Except Violation γ}
    {g : β → Except Violation δ} (h : EndAlike R x y)
    (hfg : ∀ a b, R a b → EndAlike S (f a) (g b)) : EndAlike S (x >>= f) (y >>= g) := by
  match x, y, h with
  | .error v, .error _, rfl => exact rfl
  | .ok a, .ok b, hab => exact hfg a b hab

/-- Answers that are related remain so under a weaker relation. -/
theorem imp {T : α → β → Prop} {x : Except Violation α} {y : Except Violation β}
    (h : EndAlike R x y) (hRT : ∀ a b, R a b → T a b) : EndAlike T x y := by
  match x, y, h with
  | .error v, .error _, rfl => exact rfl
  | .ok a, .ok b, hab => exact hRT a b hab

/-- Beside a computation that stops, one stops at the same broken
contract. -/
theorem eq_error {x : Except Violation α} {v : Violation}
    (h : EndAlike R x (.error v : Except Violation β)) : x = .error v := by
  cases x with
  | error w => exact congrArg Except.error h
  | ok a => cases h

/-- Beside a computation that answers, one answers. -/
theorem exists_ok {x : Except Violation α} {b : β} (h : EndAlike R x (.ok b)) :
    ∃ a, x = .ok a ∧ R a b := by
  cases x with
  | error v => cases h
  | ok a => exact ⟨a, rfl, h⟩

/-- Where the one computation answers, so does the other. -/
theorem exists_ok_right {y : Except Violation β} {a : α}
    (h : EndAlike R (.ok a : Except Violation α) y) : ∃ b, y = .ok b ∧ R a b := by
  cases y with
  | error v => cases h
  | ok b => exact ⟨b, rfl, h⟩

end EndAlike

/-! ## Renamings -/

/-- A map of leaves that puts in the place of each variable one of its
type, never the same for two, and leaves the other leaves alone. -/
structure LeafRenaming where
  image : Leaf → Leaf
  injective : Function.Injective image
  image_of_not_var : ∀ l, l.isVar = false → image l = l
  isVar_image : ∀ l, (image l).isVar = l.isVar
  ty_image : ∀ l, (image l).ty = l.ty

/-- Renaming keeps the tag of a leaf. -/
theorem LeafRenaming.tag_image (θ : LeafRenaming) (l : Leaf) : (θ.image l).tag = l.tag := by
  cases hl : l.isVar with
  | false => rw [θ.image_of_not_var l hl]
  | true => rw [l.isVar_iff.mp hl, (θ.image l).isVar_iff.mp ((θ.isVar_image l).trans hl)]

namespace Tree

variable (θ : LeafRenaming)

/-- The tree with its variables renamed. -/
def rename : Tree → Tree := subst fun l => .leaf (θ.image l)

@[simp] theorem rename_leaf (l : Leaf) : (Tree.leaf l).rename θ = .leaf (θ.image l) := rfl

@[simp] theorem rename_app (op : Operator) (first : Tree) (rest : List Tree) :
    (Tree.app op first rest).rename θ = .app op (first.rename θ) (rest.map (rename θ)) :=
  subst_app _ op first rest

/-- No two trees become the same when they are renamed. -/
theorem rename_injective : Function.Injective (rename θ) := by
  have : Nonempty Leaf := ⟨.boolean true⟩
  obtain ⟨back, hback⟩ := θ.injective.hasLeftInverse
  have undone : ∀ t : Tree, (t.rename θ).subst (fun l => .leaf (back l)) = t := by
    intro t
    rw [rename, subst_subst]
    exact subst_eq_self fun l _ => congrArg Tree.leaf (hback l)
  intro t u h
  rw [← undone t, h, undone u]

/-- A call with a variable at its head has no type, whatever the type of the
variable. -/
theorem callResult_of_isVar {l : Leaf} (hl : l.isVar = true) :
    (Tree.leaf l).callResult = .error (.callHead (.leaf .var)) := by
  cases l <;> first | rfl | cases hl

/-- Renaming the head of a call changes nothing about the type of the call,
functions being left alone. -/
theorem callResult_rename (t : Tree) : (t.rename θ).callResult = t.callResult := by
  cases t with
  | app op first rest =>
    rw [rename_app]
    rfl
  | leaf l =>
    rw [rename_leaf]
    cases hl : l.isVar with
    | false => rw [θ.image_of_not_var l hl]
    | true => rw [callResult_of_isVar hl, callResult_of_isVar ((θ.isVar_image l).trans hl)]

/-- Renaming keeps the type of every tree, and trees without a type stay
without, for the same reason. -/
theorem ty_rename (t : Tree) : (t.rename θ).ty = t.ty := by
  induction t with
  | leaf l => exact congrArg Except.ok (θ.ty_image l)
  | app op first rest ih =>
    rw [rename_app]
    cases hr : op.resultRule with
    | always A => rw [ty, hr, ty, hr]
    | firstOperand =>
      rw [ty, hr, ty, hr]
      exact ih first List.mem_cons_self
    | headResult =>
      rw [ty, hr, ty, hr]
      exact callResult_rename θ first

end Tree

namespace TermStore

variable {st st' st'' : TermStore} {ρ : TermId → TermId} {θ : LeafRenaming} {a a' b b' : TermId}
  {A : Tree}

/-- On a set of variables the map gives variables of the same types, and
no two the same. -/
structure RenamesOn (st : TermStore) (ρ : TermId → TermId) (xs : Set TermId) : Prop where
  isVariable : ∀ ⦃x⦄, x ∈ xs → st.IsVariable (ρ x)
  ty_eq : ∀ ⦃x⦄, x ∈ xs → st.ty (ρ x) = st.ty x
  injOn : Set.InjOn ρ xs

/-- On the variables of the store, the map of terms is the map of
leaves. -/
def RenamesBy (st : TermStore) (ρ : TermId → TermId) (θ : LeafRenaming) : Prop :=
  ∀ ⦃x l⦄, st.node? x = some (.leaf l) → l.isVar = true →
    st.node? (ρ x) = some (.leaf (θ.image l))

/-- The leaf is a variable that the store knows. -/
def KnowsVar (st : TermStore) (l : Leaf) : Prop := ∃ x, st.node? x = some (.leaf l) ∧ l.isVar = true

/-- What becomes of a leaf: a variable of the store becomes the variable
that the map gives, and every other leaf stays. -/
theorem RenamesOn.exists_image (h : st.RenamesOn ρ {x | st.IsVariable x}) (l : Leaf) :
    ∃ k, (∀ x, st.node? x = some (.leaf l) → l.isVar = true →
        st.node? (ρ x) = some (.leaf k) ∧ k.isVar = true ∧ k.ty = l.ty) ∧
      (¬ st.KnowsVar l → k = l) := by
  by_cases hl : st.KnowsVar l
  · obtain ⟨x, hx, hvar⟩ := id hl
    obtain ⟨k, hk, hkvar⟩ := h.isVariable ⟨l, hx, hvar⟩
    have hty := h.ty_eq ⟨l, hx, hvar⟩
    rw [ty_of_denotes (denotes_leaf_iff.mpr hk), ty_of_denotes (denotes_leaf_iff.mpr hx)] at hty
    refine ⟨k, ?_, fun hno => absurd hl hno⟩
    intro y hy _
    rw [node?_inj hy hx]
    exact ⟨hk, hkvar, Except.ok.inj hty⟩
  · exact ⟨l, fun x hx hvar => absurd ⟨x, hx, hvar⟩ hl, fun _ => rfl⟩

/-- Behind a renaming of the variables of a store stands a renaming of
leaves. -/
theorem RenamesOn.exists_leafRenaming (h : st.RenamesOn ρ {x | st.IsVariable x}) :
    ∃ θ, st.RenamesBy ρ θ := by
  choose image moved stays using h.exists_image
  -- what a known variable becomes is known, so no leaf that stays becomes the same
  have known : ∀ {l k}, image l = image k → st.KnowsVar l → st.KnowsVar k := by
    rintro l k hlk ⟨x, hx, hvar⟩
    by_contra hk
    obtain ⟨hρx, hρvar, -⟩ := moved l x hx hvar
    rw [hlk, stays k hk] at hρx hρvar
    exact hk ⟨ρ x, hρx, hρvar⟩
  have injective : Function.Injective image := by
    intro l k hlk
    by_cases hl : st.KnowsVar l
    · obtain ⟨y, hy, hyvar⟩ := known hlk hl
      obtain ⟨x, hx, hxvar⟩ := hl
      have hρ : ρ x = ρ y := node?_inj (moved l x hx hxvar).1 (hlk ▸ (moved k y hy hyvar).1)
      rw [h.injOn ⟨l, hx, hxvar⟩ ⟨k, hy, hyvar⟩ hρ, hy] at hx
      cases hx
      rfl
    · rw [← stays l hl, ← stays k fun hk => hl (known hlk.symm hk), hlk]
  have kept : ∀ l, (image l).isVar = l.isVar ∧ (image l).ty = l.ty := by
    intro l
    by_cases hl : st.KnowsVar l
    · obtain ⟨x, hx, hvar⟩ := hl
      obtain ⟨-, hρvar, hρty⟩ := moved l x hx hvar
      exact ⟨hρvar.trans hvar.symm, hρty⟩
    · rw [stays l hl]
      exact ⟨rfl, rfl⟩
  have fixed : ∀ l, l.isVar = false → image l = l :=
    fun l hl => stays l fun ⟨_, _, hvar⟩ => absurd hvar (Bool.eq_false_iff.mp hl)
  refine ⟨⟨image, injective, fixed, fun l => (kept l).1, fun l => (kept l).2⟩, ?_⟩
  intro x l hx hvar
  exact (moved l x hx hvar).1

/-- The term of the later store is what renaming makes of the other
one. -/
def Renamed (st : TermStore) (θ : LeafRenaming) (st' : TermStore) (a a' : TermId) : Prop :=
  ∃ A, st.Denotes a A ∧ st'.Denotes a' (A.rename θ)

theorem Renamed.of_extends (h : st.Renamed θ st' a a') (hst : st'.Extends st'') :
    st.Renamed θ st'' a a' := by
  obtain ⟨A, hA, ha'⟩ := h
  exact ⟨A, hA, denotes_of_extends hst ha'⟩

/-- Terms are equal exactly when their renamings are. -/
theorem Renamed.eq_iff (ha : st.Renamed θ st' a a') (hb : st.Renamed θ st' b b') :
    a = b ↔ a' = b' := by
  obtain ⟨A, hA, ha'⟩ := ha
  obtain ⟨B, hB, hb'⟩ := hb
  constructor
  · rintro rfl
    rw [denotes_unique hB hA] at hb'
    exact denotes_inj ha' hb'
  · rintro rfl
    have hAB : A = B := Tree.rename_injective θ (denotes_unique ha' hb')
    exact denotes_inj hA (hAB ▸ hB)

/-- A term and its renaming have the same type, or the same broken contract.
-/
theorem Renamed.ty_eq (h : st.Renamed θ st' a a') (hst : st.Extends st') :
    st'.ty a = st'.ty a' := by
  obtain ⟨A, hA, ha'⟩ := h
  rw [ty_of_denotes (denotes_of_extends hst hA), ty_of_denotes ha', A.ty_rename θ]

/-- Terms for trees and terms for the renamed trees are renamed one by one.
-/
theorem forall₂_renamed {as as' : List TermId} {As : List Tree}
    (h : List.Forall₂ st.Denotes as As)
    (h' : List.Forall₂ st'.Denotes as' (As.map (Tree.rename θ))) :
    List.Forall₂ (st.Renamed θ st') as as' := by
  induction h generalizing as' with
  | nil =>
    cases h'
    exact .nil
  | cons hA _ ih =>
    cases h' with
    | cons hA' h' => exact .cons ⟨_, hA, hA'⟩ (ih h')

end TermStore

namespace Build

open TermStore

variable {st st' st'' : TermStore} {ρ : TermId → TermId} {θ : LeafRenaming} {t : TermId} {T : Tree}
  {s : Subst}

/-- A leaf under a map of variables. -/
def renameLeaf (ρ : TermId → TermId) (x : TermId) : Build TermId := do
  if ← read (·.isVar x) then return ρ x else return x

/-- The term with its variables renamed. -/
def rename (ρ : TermId → TermId) (t : TermId) : Build TermId := mapLeaves (renameLeaf ρ) t

/-- The binding with its key and its value renamed. -/
def renameBinding (ρ : TermId → TermId) (b : TermId × TermId) : Build (TermId × TermId) := do
  return (← rename ρ b.1, ← rename ρ b.2)

/-- The chain with its bindings renamed. -/
def renameBindings (ρ : TermId → TermId) (s : Subst) : Build Subst := do
  return ⟨← s.bindings.mapM (renameBinding ρ)⟩

/-- Renaming a leaf yields the renamed leaf. -/
theorem yields_renameLeaf {x : TermId} {l : Leaf} (hθ : st.RenamesBy ρ θ)
    (hx : st.node? x = some (.leaf l)) (hst : st.Extends st') :
    Yields (renameLeaf ρ x) st' (.leaf (θ.image l)) := by
  have hread : (read (·.isVar x)).on st' = (.ok l.isVar, st') := by
    rw [on_read, isVar_of_leaf (hst hx)]
  cases hl : l.isVar with
  | true =>
    rw [hl] at hread
    exact ⟨ρ x, st', on_bind_ok hread, extends_refl st', denotes_leaf_iff.mpr (hst (hθ hx hl))⟩
  | false =>
    rw [hl] at hread
    rw [θ.image_of_not_var l hl]
    exact ⟨x, st', on_bind_ok hread, extends_refl st', denotes_leaf_iff.mpr (hst hx)⟩

/-- Renaming a term yields the tree with its variables renamed. -/
theorem yields_rename (hθ : st.RenamesBy ρ θ) (hT : st.Denotes t T) (hst : st.Extends st') :
    Yields (rename ρ t) st' (T.rename θ) := by
  apply yields_mapLeaves hT _ hst
  intro x l _ hx st'' hst
  exact yields_renameLeaf hθ hx hst

end Build

end TypedTerms
