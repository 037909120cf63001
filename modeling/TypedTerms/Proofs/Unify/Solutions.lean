import TypedTerms.Proofs.Becomes
import TypedTerms.Proofs.Unify.Step

/-!
# What unification solves

A map from leaves to trees solves a state of unification when it agrees
with the bindings made so far and makes the two sides of every pending
equation one tree. The steps of unification neither lose nor add
solutions (`UnifyStep.solves_iff`), and what a step refuses is solved by
no map that puts trees of the right type in the place of variables
(`UnifyStep.not_solves`).

Both are proved for every map at once, so neither needs to know which
bindings the run will end with.
-/

namespace TypedTerms.TermStore

variable {st : TermStore} {s s' : Subst} {a b x v : TermId} {new rest : List Equation}
  {θ : Leaf → Tree} {l : Leaf} {V W : Tree}

/-- The map makes the two sides one tree. -/
def Holds (st : TermStore) (θ : Leaf → Tree) (e : Equation) : Prop :=
  ∃ W, st.Becomes θ e.1 W ∧ st.Becomes θ e.2 W

/-- The map agrees with the bindings, and every equation holds under
it. -/
def Solves (st : TermStore) (s : Subst) (pending : List Equation) (θ : Leaf → Tree) : Prop :=
  st.Respects s θ ∧ ∀ e ∈ pending, st.Holds θ e

theorem Holds.symm (h : st.Holds θ (a, b)) : st.Holds θ (b, a) := by
  obtain ⟨W, ha, hb⟩ := h
  exact ⟨W, hb, ha⟩

/-! ## Solutions are kept -/

/-- A bound term and its value become the same. -/
theorem Respects.becomes_iff (hθ : st.Respects s θ) (hs : st.Resolvable s)
    (hv : s.get? x = some v) : st.Becomes θ x W ↔ st.Becomes θ v W := by
  obtain ⟨l, hx⟩ := hs.key_leaf hv
  obtain ⟨V, hV⟩ := hs.value_denotes hv
  rw [becomes_leaf_iff hx, hθ ⟨x, v, hx, hv, hV⟩]
  constructor
  · exact fun hW => ⟨V, hV, hW⟩
  · rintro ⟨U, hU, rfl⟩
    rw [denotes_unique hV hU]

/-- To agree with a new binding of a free variable is to agree with the
old ones and to make one tree of the variable and its value. -/
theorem respects_bind_iff (hbind : st.Bindable s x v) (hwf : st.WellFormed v) :
    st.Respects (s.bind x v) θ ↔ st.Respects s θ ∧ st.Holds θ (x, v) := by
  obtain ⟨l, hx, -⟩ := hbind.isVariable
  obtain ⟨V, hV, -⟩ := hwf
  constructor
  · intro hθ
    constructor
    · intro k U hU
      exact hθ (hU.bind hx hbind.free)
    · have hVx : st.Binds (s.bind x v) l V := (binds_bind_iff hx).mpr (by rwa [if_pos rfl])
      exact ⟨θ l, (becomes_leaf_iff hx).mpr rfl, V, hV, (hθ hVx).symm⟩
  · rintro ⟨hθ, W, hxW, hvW⟩ k U hU
    rw [binds_bind_iff hx] at hU
    split at hU
    · next hkl =>
      rw [hkl, (becomes_leaf_iff hx).mp hxW]
      exact hvW.unique ⟨U, hU, rfl⟩
    · exact hθ hU

/-- What is left of an equation at a variable has the solutions of the
equation. -/
theorem VarStep.solves_iff {other : TermId} (h : st.VarStep s x other (some (s', new)))
    (hs : st.Resolvable s) (hvar : st.IsVariable x) (hty : st.ty x = st.ty other)
    (ho : st.WellFormed other) :
    st.Solves s' new θ ↔ st.Respects s θ ∧ st.Holds θ (x, other) := by
  cases h with
  | follow hv | followOther _ hv =>
    refine and_congr_right fun hθ => ?_
    simp only [List.forall_mem_singleton, Holds, hθ.becomes_iff hs hv]
  | bind hx _ check =>
    rw [Solves, respects_bind_iff ⟨hvar, hx, hty, check⟩ ho]
    exact and_iff_left fun _ he => nomatch he

/-- A step neither loses nor adds a solution. -/
theorem UnifyStep.solves_iff (h : st.UnifyStep s a b (some (s', new)))
    (hI : st.Unifying s ((a, b) :: rest)) :
    st.Solves s' (new ++ rest) θ ↔ st.Solves s ((a, b) :: rest) θ := by
  obtain ⟨hs, hwf⟩ := hI
  obtain ⟨⟨ha, hb⟩, -⟩ := List.forall_mem_cons.mp hwf
  suffices hstep : st.Solves s' new θ ↔ st.Respects s θ ∧ st.Holds θ (a, b) by
    unfold Solves at hstep ⊢
    rw [List.forall_mem_append, List.forall_mem_cons, ← and_assoc, hstep, and_assoc]
  cases h with
  | same hab =>
    obtain ⟨W, hW⟩ := ha.exists_becomes θ
    exact and_congr_right fun _ => iff_of_true (fun _ he => nomatch he) ⟨W, hW, hab ▸ hW⟩
  | right _ hty hvar step =>
    rw [step.solves_iff hs.resolvable hvar hty.symm ha]
    exact and_congr_right fun _ => ⟨Holds.symm, Holds.symm⟩
  | left _ hty hvar step => exact step.solves_iff hs.resolvable hvar hty hb
  | split hna hnb hlen => exact and_congr_right fun _ => (meets_app_iff hna hnb hlen).symm

/-! ## What is refused has no solution -/

variable {η : Instantiation}

/-- A term that properly contains a free variable does not become the
same as the variable: it is larger under every map. -/
theorem not_holds_of_reaches (hs : st.Resolvable s) (hθ : st.Respects s θ) (hne : x ≠ a)
    (hfree : s.get? a = none) (h : st.Reaches s a x) : ¬ st.Holds θ (x, a) := by
  rintro ⟨W, ⟨X, hX, hXW⟩, ⟨T, hT, hTW⟩⟩
  obtain ⟨u, hstep, hreach⟩ := (reaches_iff hne.symm).mp h
  cases hstep with
  | value _ _ hv =>
    rw [hfree] at hv
    cases hv
  | child hc =>
    obtain ⟨C, hC, hcC⟩ := hT.child hc
    obtain ⟨Y, hY, hle⟩ := hreach.weight_le hs hθ (fun _ => 0) hcC
    have hmem : C.subst θ ∈ (T.subst θ).children := Tree.subst_mem_children hC
    have hlt := Tree.weight_lt_of_mem (fun _ => 0) hmem
    rw [denotes_unique hY hX, hXW] at hle
    rw [hTW] at hlt
    exact absurd (hle.trans_lt hlt) (Nat.lt_irrefl _)

/-- An equation at a variable that is refused has no solution: what the
variable is to become would stand in itself. -/
theorem VarStep.not_holds {other : TermId} (h : st.VarStep s x other none)
    (hs : st.Resolvable s) (hne : x ≠ other) (hθ : st.Respects s θ) :
    ¬ st.Holds θ (x, other) := by
  cases h with
  | cyclic _ ho check => exact not_holds_of_reaches hs hθ hne ho check

/-- What a step refuses has no solution that keeps types. -/
theorem UnifyStep.not_solves (h : st.UnifyStep s a b none)
    (hI : st.Unifying s ((a, b) :: rest)) : ¬ st.Solves s ((a, b) :: rest) η.image := by
  rintro ⟨hθ, hall⟩
  have ⟨hab, _⟩ := List.forall_mem_cons.mp hall
  obtain ⟨hs, hwf⟩ := hI
  obtain ⟨⟨ha, hb⟩, -⟩ := List.forall_mem_cons.mp hwf
  cases h with
  | types hty =>
    obtain ⟨W, hW, hW'⟩ := hab
    exact hty ((hW.ty_eq ha).trans (hW'.ty_eq hb).symm)
  | right hne _ _ step => exact step.not_holds hs.resolvable hne.symm hθ hab.symm
  | left hne _ _ step => exact step.not_holds hs.resolvable hne hθ hab
  | mismatch hne hm hn hvar hdiff =>
    -- neither side is a variable, so the map moves neither
    refine (Meets.eq_or_split hab hm hn ?_ ?_).elim hne hdiff
    · rintro l rfl
      exact image_of_not_isVariable η hm hvar.1
    · rintro l rfl
      exact image_of_not_isVariable η hn hvar.2

end TypedTerms.TermStore
