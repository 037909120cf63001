import TypedTerms.Proofs.Folding.Typed
import TypedTerms.Proofs.Unify.Checked

/-!
# Folding before and after instantiation

What folding decides before variables are replaced it would decide the
same way after. A rule looks at literals, which a substitution leaves as
they are, at whether two operands are one, and at types; all of this an
instance shares with what it is an instance of (`Folds.stays`). So every
rule that fired stays one that fires, and where none did the node is
rebuilt and folded over the same operands either way: by induction over
the tree, simplifying first makes no difference
(`WellTyped.exists_commutes`).

The instances of a quantifier need not be well typed, since bindings may
be for the variables that it binds. What is asked of the trees in the
place of variables is therefore only that they are simplified to trees of
the types of the variables. For the resolution of checked bindings this
holds by going along the chain, each value being well typed itself
(`Checked.exists_resolution`).
-/

namespace TypedTerms

namespace Tree

variable {θ : Leaf → Tree} {op : Operator} {T R S x F G : Tree} {rest Rs Ss : List Tree}

/-- The tree under `θ` is simplified to a tree of the same type. -/
structure FoldsUnder (θ : Leaf → Tree) (T S : Tree) : Prop where
  simplify_eq : (T.subst θ).simplify = .ok S
  ty : S.ty = T.ty

section Stays

variable (fixed : ∀ l, l.isVar = false → θ l = .leaf l)
include fixed

/-- A leaf that is no variable is its own instance, and is left as it is. -/
theorem foldsUnder_of_isVar {l : Leaf} (hl : l.isVar = false) :
    FoldsUnder θ (.leaf l) (.leaf l) := by
  refine ⟨?_, rfl⟩
  rw [subst_leaf, fixed l hl, simplify_leaf]

/-- A literal constant is its own instance. -/
theorem foldsUnder_of_isConst (hx : x.isConst = true) : FoldsUnder θ x x := by
  cases x with
  | app => cases hx
  | leaf l =>
    apply foldsUnder_of_isVar fixed
    cases l <;> first | rfl | cases hx

theorem foldsUnder_boolean (b : Bool) : FoldsUnder θ (boolean b) (boolean b) :=
  foldsUnder_of_isConst fixed rfl

theorem foldsUnder_literal (n : Numeral) : FoldsUnder θ (literal n) (literal n) :=
  foldsUnder_of_isConst fixed (by cases n <;> rfl)

omit fixed in
theorem FoldsUnder.unique (h : FoldsUnder θ T R) (h' : FoldsUnder θ T S) : R = S :=
  Except.ok.inj (h.simplify_eq.symm.trans h'.simplify_eq)

/-- Over two literals the rules see the same two literals. -/
theorem eq_of_literals {a b : Numeral}
    (h : List.Forall₂ (FoldsUnder θ) (literal a :: literal b :: rest) (G :: Ss)) :
    ∃ Es, G = literal a ∧ Ss = literal b :: Es := by
  obtain ⟨hG, hSs⟩ := List.forall₂_cons.mp h
  cases hSs with
  | cons hE _ =>
    exact ⟨_, hG.unique (foldsUnder_literal fixed a),
      congrArg (· :: _) (hE.unique (foldsUnder_literal fixed b))⟩

/-- A rule that fires on operands fires on their instances, and makes an
instance of what it made. -/
theorem Folds.stays (h : Folds op F Rs R)
    (hall : List.Forall₂ (FoldsUnder θ) (F :: Rs) (G :: Ss)) :
    ∃ S, Folds op G Ss S ∧ FoldsUnder θ R S := by
  have hG := (List.forall₂_cons.mp hall).1
  have hbool := foldsUnder_boolean fixed
  have hlit := foldsUnder_literal fixed
  cases h with
  | same =>
    obtain ⟨-, hSs⟩ := List.forall₂_cons.mp hall
    cases hSs with
    | cons hE _ =>
      rw [hE.unique hG]
      exact ⟨_, .same, hbool _⟩
  | different hne hx hy =>
    obtain ⟨-, hSs⟩ := List.forall₂_cons.mp hall
    cases hSs with
    | cons hE _ =>
      rw [hG.unique (foldsUnder_of_isConst fixed hx), hE.unique (foldsUnder_of_isConst fixed hy)]
      exact ⟨_, .different hne hx hy, hbool _⟩
  | less h =>
    obtain ⟨Es, rfl, rfl⟩ := eq_of_literals fixed hall
    exact ⟨_, .less h, hbool _⟩
  | lessEquals h =>
    obtain ⟨Es, rfl, rfl⟩ := eq_of_literals fixed hall
    exact ⟨_, .lessEquals h, hbool _⟩
  | add h =>
    obtain ⟨Es, rfl, rfl⟩ := eq_of_literals fixed hall
    exact ⟨_, .add h, hlit _⟩
  | subtract h =>
    obtain ⟨Es, rfl, rfl⟩ := eq_of_literals fixed hall
    exact ⟨_, .subtract h, hlit _⟩
  | multiply h =>
    obtain ⟨Es, rfl, rfl⟩ := eq_of_literals fixed hall
    exact ⟨_, .multiply h, hlit _⟩
  | divide h =>
    obtain ⟨Es, rfl, rfl⟩ := eq_of_literals fixed hall
    exact ⟨_, .divide h, hlit _⟩
  | quotient hn =>
    obtain ⟨Es, rfl, rfl⟩ := eq_of_literals fixed hall
    exact ⟨_, .quotient hn, hlit _⟩
  | remainder hn =>
    obtain ⟨Es, rfl, rfl⟩ := eq_of_literals fixed hall
    exact ⟨_, .remainder hn, hlit _⟩
  | negate =>
    rw [hG.unique (hlit _)]
    exact ⟨_, .negate, hlit _⟩
  | rounding =>
    rw [hG.unique (hlit _)]
    exact ⟨_, .rounding, hlit _⟩
  | floor =>
    rw [hG.unique (hlit _)]
    exact ⟨_, .floor, hlit _⟩
  | convert =>
    rw [hG.unique (hlit _)]
    exact ⟨_, .convert, hlit _⟩
  | isInteger =>
    rw [hG.unique (hlit _)]
    exact ⟨_, .isInteger, hbool _⟩
  | isRational =>
    rw [hG.unique (hlit _)]
    exact ⟨_, .isRational, hbool _⟩
  -- decided by the type alone, which the instance has too
  | ofInteger h => exact ⟨G, .ofInteger (hG.ty.trans h), hG⟩
  | ofSort h => exact ⟨G, .ofSort (hG.ty.trans h), hG⟩
  | integerType h => exact ⟨_, .integerType (hG.ty.trans h), hbool _⟩
  | rationalType h =>
    exact ⟨_, .rationalType (h.imp hG.ty.trans hG.ty.trans), hbool _⟩

/-- A node whose operator fits is rebuilt over what the instances of its
children are simplified to, and folded. -/
theorem foldsUnder_app (fits : op.Fits ((F :: Rs).map operand))
    (hall : List.Forall₂ (FoldsUnder θ) (F :: Rs) (G :: Ss)) :
    ∃ S, FoldsUnder θ (Tree.app op F Rs) S ∧ refold op G Ss = .ok S := by
  obtain ⟨hG, hSs⟩ := List.forall₂_cons.mp hall
  have hhead : op = .call → G = F := by
    rintro rfl
    obtain ⟨id, name, result, params, rfl⟩ := exists_function_of_fits fits
    exact hG.unique (foldsUnder_of_isVar fixed rfl)
  obtain ⟨S, hS, hcases⟩ := exists_refold
    (exists_foldNode_of_fits fits (fun A hA => ⟨A, hG.ty.trans hA⟩) hSs.length_eq.symm)
  refine ⟨S, ⟨?_, ?_⟩, hS⟩
  · have hchildren : List.Forall₂ (fun C E => C.simplify = .ok E) ((F :: Rs).map (subst θ))
        (G :: Ss) := List.forall₂_map_left_iff.mpr (hall.imp fun _ _ hD => hD.simplify_eq)
    rw [subst_app, simplify_eq_refold hchildren, hS]
  · have hty : S.ty = (Tree.app op G Ss).ty := by
      rcases hcases with rfl | hfolds
      · rfl
      · exact hfolds.ty
    exact hty.trans (ty_app_congr hG.ty hhead)

/-- A well-typed tree that is simplified to `R`, and whose instance is
simplified to `S`, whether the tree was simplified before or not. -/
structure Commutes (θ : Leaf → Tree) (T R S : Tree) : Prop where
  simplified : Simplified T R
  first : FoldsUnder θ R S
  last : (T.subst θ).simplify = .ok S

/-- A node is folded alike over what its children are simplified to before
replacing, and after. -/
theorem WellTyped.commutes_app {first : Tree} {p : Tree × Tree} {ps : List (Tree × Tree)}
    (h : (Tree.app op first rest).WellTyped)
    (hall : List.Forall₂ (fun C p => Commutes θ C p.1 p.2) (first :: rest) (p :: ps)) :
    ∃ R S, Commutes θ (Tree.app op first rest) R S := by
  have hbefore : List.Forall₂ Simplified (first :: rest) ((p :: ps).map Prod.fst) :=
    List.forall₂_map_right_iff.mpr (hall.imp fun _ _ hC => hC.simplified)
  have hunder : List.Forall₂ (FoldsUnder θ) ((p :: ps).map Prod.fst) ((p :: ps).map Prod.snd) := by
    rw [List.forall₂_map_left_iff, List.forall₂_map_right_iff, List.forall₂_same]
    intro q hq
    obtain ⟨C, -, hC⟩ := exists_of_mem_left hall.flip hq
    exact hC.first
  have hafter : List.Forall₂ (fun C E => C.simplify = .ok E) ((first :: rest).map (subst θ))
      ((p :: ps).map Prod.snd) := by
    rw [List.forall₂_map_left_iff, List.forall₂_map_right_iff]
    exact hall.imp fun _ _ hC => hC.last
  have hlast := (congrArg simplify (subst_app θ op first rest)).trans (simplify_eq_refold hafter)
  obtain ⟨R, hR, hcases⟩ := h.simplified_app hbefore
  rcases hcases with rfl | hfolds
  · -- no rule fires before replacing; after it one may, on the same operands either way
    obtain ⟨S, hRS, hS⟩ := foldsUnder_app fixed (wellTyped_app_iff.mp hR.wellTyped).1 hunder
    exact ⟨_, S, hR, hRS, hlast.trans hS⟩
  · obtain ⟨S, hS, hRS⟩ := hfolds.stays fixed hunder
    refine ⟨R, S, hR, hRS, hlast.trans ?_⟩
    rw [refold, foldNode_of_folds hS]
    rfl

/-- Simplifying commutes with substitution, where the trees in the place
of the leaves are simplified to trees of the types of the leaves. -/
theorem WellTyped.exists_commutes (h : T.WellTyped)
    (hθ : ∀ l ∈ T.leaves, ∃ S, FoldsUnder θ (.leaf l) S) : ∃ R S, Commutes θ T R S := by
  induction T with
  | leaf l =>
    obtain ⟨S, hS⟩ := hθ l (mem_leaves_leaf.mpr rfl)
    exact ⟨.leaf l, S, ⟨rfl, h, rfl, fun _ hl => hl⟩, hS, hS.simplify_eq⟩
  | app op first rest ih =>
    obtain ⟨-, hchildren⟩ := wellTyped_app_iff.mp h
    have hchild : ∀ C ∈ first :: rest, ∃ p : Tree × Tree, Commutes θ C p.1 p.2 := by
      intro C hC
      obtain ⟨R, S, hRS⟩ := ih C hC (hchildren C hC) fun l hl =>
        hθ l (mem_leaves_app.mpr ⟨C, hC, hl⟩)
      exact ⟨(R, S), hRS⟩
    obtain ⟨ps, hall⟩ := exists_forall₂ hchild
    cases hall with
    | cons hp hps => exact h.commutes_app fixed (.cons hp hps)

end Stays

end Tree

namespace TermStore

open Build

variable {st st' : TermStore} {s : Subst} {t : TermId} {A : Ty} {l : Leaf} {V : Tree}
  {σ : Leaf → Tree}

/-- What checked bindings resolve a leaf to is simplified to a tree of the
type of the leaf. -/
theorem Checked.foldsUnder (hs : st.Checked s) (hσ : st.Resolves s σ) (l : Leaf) :
    ∃ S, Tree.FoldsUnder σ (.leaf l) S := by
  have himage : ∃ S, (σ l).simplify = .ok S ∧ S.ty = .ok l.ty := by
    refine hσ.induct hs.acyclic (P := fun l T => ∃ S, T.simplify = .ok S ∧ S.ty = .ok l.ty) ?_
      (fun l _ => ⟨.leaf l, Tree.simplify_leaf l, rfl⟩) l
    intro l V hV ih
    have fixed := fun k hk => hσ.fixed (l := k) hs.admissible hk
    obtain ⟨R, S, hRS⟩ := (hs.wellTyped_of_binds hV).exists_commutes fixed fun k hk =>
      have ⟨S, hS, hty⟩ := ih k hk
      ⟨S, hS, hty⟩
    refine ⟨S, hRS.last, ?_⟩
    exact hRS.first.ty.trans (hRS.simplified.keeps.ty.trans (hs.keepsTypes.ty_of_binds hV))
  obtain ⟨S, hS, hty⟩ := himage
  exact ⟨S, hS, hty⟩

/-- Constant folding commutes with instantiation. Let a term pass its
check, at some type, and let the bindings, without a circle, be of
variables to terms that pass the check at the types of the variables.
Then simplifying what the term is replaced by answers the term that is
answered when the term is also simplified before it is replaced, whichever
is done first. -/
theorem simplify_replace_simplify (hs : st.Checked s) (h : (st.check t A).run = .ok (.ok ())) :
    (∃ r st₁ st₂, (do simplify (← s.replace (← simplify t))).on st = (.ok r, st₁) ∧
      (do simplify (← s.replace t)).on st₁ = (.ok r, st₂)) ∧
    ∃ r st₁ st₂, (do simplify (← s.replace t)).on st = (.ok r, st₁) ∧
      (do simplify (← s.replace (← simplify t))).on st₁ = (.ok r, st₂) := by
  obtain ⟨T, hT, -, hwt⟩ := check_eq_ok_iff.mp h
  have hres := hs.admissible.resolvable
  obtain ⟨σ, hσ⟩ := hs.acyclic.exists_resolves
  obtain ⟨R, S, hRS⟩ := hwt.exists_commutes (fun k hk => hσ.fixed (l := k) hs.admissible hk)
    fun l _ => hs.foldsUnder hσ l
  have hfirst : ∀ st', st.Extends st' →
      Yields (do simplify (← s.replace (← simplify t))) st' S := fun st' hst =>
    yields_bind (yields_simplify (denotes_of_extends hst hT) hRS.simplified.simplify_eq)
      fun r st₁ hst₁ hr =>
        have hst₁ := extends_trans hst hst₁
        yields_bind (Subst.yields_replace (hres.of_extends hst₁) (hσ.of_extends hres hst₁) hr
          (extends_refl st₁)) fun q st₂ _ hq => yields_simplify hq hRS.first.simplify_eq
  have hlast : ∀ st', st.Extends st' → Yields (do simplify (← s.replace t)) st' S :=
    fun st' hst => yields_bind (Subst.yields_replace hres hσ hT hst)
      fun q st₁ _ hq => yields_simplify hq hRS.last
  exact ⟨(hfirst st (extends_refl st)).answers_same hlast,
    (hlast st (extends_refl st)).answers_same hfirst⟩

/-- The chain `x ↦ 5/2`. -/
def roundedChain : Subst := ⟨[(⟨0⟩, ⟨1⟩)]⟩

theorem checked_roundedChain : roundedSample.Checked roundedChain :=
  checked_singleton (l := .fraction .real (.reduce 5 2 (by decide))) ⟨_, rfl, rfl⟩ rfl rfl trivial
    (by decide)

/-- Under `x ↦ 5/2` the formula `∀ x, x < round(5/2)` becomes a formula
over `true`, whether its bound is rounded before `x` is replaced or
after. -/
theorem simplify_replace_simplify_sample :
    roundedSample.Checked roundedChain ∧ (roundedSample.check ⟨4⟩ .bool).run = .ok (.ok ()) ∧
      (∃ r st₁ st₂, (do simplify (← roundedChain.replace (← simplify ⟨4⟩))).on roundedSample =
          (.ok r, st₁) ∧
        (do simplify (← roundedChain.replace ⟨4⟩)).on st₁ = (.ok r, st₂)) ∧
      ∃ r st₁ st₂, (do simplify (← roundedChain.replace ⟨4⟩)).on roundedSample = (.ok r, st₁) ∧
        (do simplify (← roundedChain.replace (← simplify ⟨4⟩))).on st₁ = (.ok r, st₂) :=
  ⟨checked_roundedChain, rfl, simplify_replace_simplify (A := .bool) checked_roundedChain rfl⟩

end TermStore

end TypedTerms
