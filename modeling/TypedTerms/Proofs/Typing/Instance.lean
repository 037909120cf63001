import TypedTerms.Proofs.Unify.Checked

/-!
# Instances of well-typed terms

Of an operand an operator sees the type, and at two places the leaf: at
the head of a call and behind the formula of a quantifier. A substitution
that keeps types can therefore do harm at these two places only. The head
of a call is a function, which is no variable. The variables of a
quantifier must be left alone; that is asked for (`WellTyped.subst`).

The resolution of a chain leaves them alone if no key is among them, in
the term or in a value. Along the chain the values stay well typed, and
so does the term (`check_replace`).
-/

namespace TypedTerms

namespace Tree

variable {T : Tree} {op : Operator} {first : Tree} {rest : List Tree} {l : Leaf}

/-- A quantifier inside the tree has the leaf among its variables. -/
inductive Quantifies : Tree → Leaf → Prop where
  | listed {op : Operator} {body : Tree} {vars : List Tree} {l : Leaf}
    (quantifier : op = .universal ∨ op = .existential) (hl : .leaf l ∈ vars) :
    Quantifies (.app op body vars) l
  | inside {op : Operator} {first : Tree} {rest : List Tree} {C : Tree} {l : Leaf}
    (hC : C ∈ first :: rest) (h : Quantifies C l) : Quantifies (.app op first rest) l

section Subst

variable {θ : Instantiation}

/-- Over instances of its operands an operator fits as it did over the
operands, if the variables of a quantifier stay. -/
theorem fits_subst (h : (Tree.app op first rest).WellTyped)
    (stays : op = .universal ∨ op = .existential → ∀ l, .leaf l ∈ rest → θ.image l = .leaf l) :
    op.Fits ((first.subst θ.image :: rest.map (subst θ.image)).map operand) := by
  obtain ⟨fits, hchildren⟩ := wellTyped_app_iff.mp h
  refine fits.congr ?_ ?_ ?_
  · change (((first :: rest).map (subst θ.image)).map operand).map Operand.ty =
      ((first :: rest).map operand).map Operand.ty
    rw [List.map_map, List.map_map, List.map_map]
    apply List.map_congr_left
    intro C hC
    exact θ.ty_subst (hchildren C hC).wellFormed
  · rintro rfl
    obtain ⟨id, name, result, params, rfl⟩ := exists_function_of_fits fits
    rw [subst_leaf, θ.image_of_not_var _ rfl]
  · intro hop
    rw [List.map_map]
    apply List.map_congr_left
    intro V hV
    obtain ⟨l, rfl, -⟩ := exists_var_of_fits hop fits V hV
    rw [Function.comp, subst_leaf, stays hop l hV]

/-- The instance of a well-typed tree is well typed, if well-typed trees
stand in the place of its leaves and the variables of its quantifiers
stay. -/
theorem WellTyped.subst (h : T.WellTyped)
    (hwt : ∀ l ∈ T.leaves, l.Fits → (θ.image l).WellTyped)
    (stays : ∀ l, T.Quantifies l → θ.image l = .leaf l) : (T.subst θ.image).WellTyped := by
  induction T with
  | leaf l => exact hwt l (mem_leaves_leaf.mpr rfl) (wellTyped_leaf_iff.mp h)
  | app op first rest ih =>
    rw [subst_app]
    refine .app (fits_subst h fun hop l hl => stays l (.listed hop hl)) ?_
    rw [← List.map_cons, List.forall_mem_map]
    intro C hC
    apply ih C hC ((wellTyped_app_iff.mp h).2 C hC)
    · intro l hl
      exact hwt l (mem_leaves_app.mpr ⟨C, hC, hl⟩)
    · intro l hl
      exact stays l (.inside hC hl)

end Subst

end Tree

namespace TermStore

variable {st : TermStore} {s : Subst} {t : TermId} {T : Tree} {A : Ty} {l : Leaf}
  {θ : Instantiation}

/-- A quantifier inside the term has the second term among its
variables. -/
def Quantifies (st : TermStore) (t x : TermId) : Prop :=
  ∃ u op body vars, st.Subterm u t ∧ st.node? u = some (.app op body vars) ∧
    (op = .universal ∨ op = .existential) ∧ x ∈ vars

/-- No key is among the variables of a quantifier inside the term. -/
def Unquantified (st : TermStore) (s : Subst) (t : TermId) : Prop :=
  ∀ ⦃x v⦄, s.get? x = some v → ¬ st.Quantifies t x

/-- A variable of a quantifier in the tree is one of a quantifier in the
term. -/
theorem exists_quantifies_of_denotes (hT : st.Denotes t T) (h : T.Quantifies l) :
    ∃ x, st.node? x = some (.leaf l) ∧ st.Quantifies t x := by
  induction h generalizing t with
  | listed hop hl =>
    obtain ⟨c, cs, hnode, hall⟩ := denotes_app_iff.mp hT
    obtain ⟨x, hx, hxl⟩ := exists_of_mem_left (List.forall₂_cons.mp hall).2.flip hl
    exact ⟨x, denotes_leaf_iff.mp hxl, t, _, c, cs, .refl, hnode, hop, hx⟩
  | inside hC _ ih =>
    obtain ⟨c, hc, hcC⟩ := hT.exists_child hC
    obtain ⟨x, hx, u, op, body, vars, hu, hnode, hop, hmem⟩ := ih hcC
    exact ⟨x, hx, u, op, body, vars, hu.of_child hc, hnode, hop, hmem⟩

/-- The resolution of a chain leaves the variables of quantifiers alone,
if no key is among them. -/
theorem Unquantified.stays {σ : Leaf → Tree} (h : st.Unquantified s t) (hT : st.Denotes t T)
    (hσ : st.Resolves s σ) (hl : T.Quantifies l) : σ l = .leaf l := by
  obtain ⟨x, hx, hquant⟩ := exists_quantifies_of_denotes hT hl
  apply hσ.free
  rintro V ⟨y, v, hy, hv, -⟩
  exact h hv (node?_inj hx hy ▸ hquant)

/-- What checked bindings resolve a leaf to is well typed, if no key is
among the variables of a quantifier in a value. -/
theorem Checked.wellTyped_image (hs : st.Checked s) (hσ : st.Resolves s θ.image)
    (hvalues : ∀ ⦃x v⦄, s.get? x = some v → st.Unquantified s v) (hl : l.Fits) :
    (θ.image l).WellTyped := by
  refine hσ.induct hs.acyclic (P := fun l T => l.Fits → T.WellTyped) ?_ ?_ l hl
  · intro l V hV ih _
    apply (hs.wellTyped_of_binds hV).subst ih
    obtain ⟨x, v, -, hv, hvV⟩ := hV
    exact fun k hk => (hvalues hv).stays hvV hσ hk
  · exact fun l _ hl => .leaf hl

/-- Replacing keeps what the checker passes. Let the checker pass the term
at a type, and every value of the chain, which has no circle, at the type
of its key. Let no key be among the variables of a quantifier, in the term
or in a value. Then replacing answers, and the checker passes what it
answers at the same type. -/
theorem check_replace (hs : st.Checked s) (h : (st.check t A).run = .ok (.ok ()))
    (ht : st.Unquantified s t) (hvalues : ∀ ⦃x v⦄, s.get? x = some v → st.Unquantified s v) :
    ∃ r st', (s.replace t).on st = (.ok r, st') ∧ (st'.check r A).run = .ok (.ok ()) := by
  obtain ⟨T, hT, hty, hwt⟩ := check_eq_ok_iff.mp h
  obtain ⟨σ, -, hσ⟩ := hs.admissible.exists_instantiation hs.keepsTypes
  obtain ⟨r, st', hr, -, hden⟩ :=
    Subst.yields_replace hs.admissible.resolvable hσ hT (extends_refl st)
  refine ⟨r, st', hr, check_eq_ok_iff.mpr ⟨_, hden, ?_, ?_⟩⟩
  · exact (σ.ty_subst hwt.wellFormed).trans hty
  · apply hwt.subst
    · intro l _ hl
      exact hs.wellTyped_image hσ hvalues hl
    · intro l hl
      exact ht.stays hT hσ hl

/-- The chain `x ↦ 5/2`. -/
def boundChain : Subst := ⟨[(⟨0⟩, ⟨2⟩)]⟩

theorem checked_boundChain : boundSample.Checked boundChain :=
  checked_singleton (l := .fraction .real (.reduce 5 2 (by decide))) ⟨_, rfl, rfl⟩ rfl rfl trivial
    (by decide)

/-- The only quantifier of the store has `y` as its variable. -/
theorem unquantified_boundChain (t : TermId) : boundSample.Unquantified boundChain t := by
  rintro x v hv ⟨⟨u⟩, op, body, vars, -, hnode, hop, hx⟩
  have hy : vars = [⟨1⟩] := by
    match u with
    | 0 | 1 | 2 => cases hnode
    | 3 =>
      cases hnode
      rcases hop with hop | hop <;> cases hop
    | 4 =>
      cases hnode
      rfl
    | n + 5 => cases hnode
  rw [hy, List.mem_singleton] at hx
  rw [hx] at hv
  cases hv

/-- Under `x ↦ 5/2` the formula `∀ y, y < x` becomes one that passes. -/
theorem check_replace_sample :
    boundSample.Checked boundChain ∧ (boundSample.check ⟨4⟩ .bool).run = .ok (.ok ()) ∧
      boundSample.Unquantified boundChain ⟨4⟩ ∧
      ∃ r st', (boundChain.replace ⟨4⟩).on boundSample = (.ok r, st') ∧
        (st'.check r .bool).run = .ok (.ok ()) :=
  ⟨checked_boundChain, rfl, unquantified_boundChain ⟨4⟩,
    check_replace checked_boundChain rfl (unquantified_boundChain ⟨4⟩) fun _ v _ =>
      unquantified_boundChain v⟩

end TermStore

end TypedTerms
