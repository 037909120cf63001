import TypedTerms.Proofs.Folding.Typed
import TypedTerms.Proofs.Growth.Conserves
import TypedTerms.Proofs.Term.Position

/-!
# Replacing keeps types

An operand of a well-typed term may be exchanged for any well-typed term of
its type: the type of the node above is derived from the same types, and its
rule asks for the same ones (`wellTyped_exchange`). Two sorts of children are
no operands in this sense. The head of a call is a function symbol, and what
a quantifier lists are variables; they are given by what they are, not by
their types. A position that goes through neither of them is the way over a
number of operands (`LeadsToOperand`). So by induction over the position the
type of the whole term is kept, and the term stays well typed
(`check_splice`).
-/

namespace TypedTerms

/-- The operand at the place may be exchanged for another one of its type:
it is not the head of a call, and not a variable that a quantifier lists. -/
def Operator.Exchanges (op : Operator) (i : Nat) : Prop :=
  (op = .call → i ≠ 0) ∧ (op = .universal ∨ op = .existential → i = 0)

namespace Tree

variable {op : Operator} {first F X Y : Tree} {rest Rs : List Tree} {i : Nat}

/-- A node over other operands of the same types has the same type and is
well typed, if a call has the same head and a quantifier the same
variables. -/
theorem wellTyped_exchange (hwt : (app op first rest).WellTyped)
    (hall : ∀ C ∈ F :: Rs, C.WellTyped)
    (hty : (F :: Rs).map Tree.ty = (first :: rest).map Tree.ty) (head : op = .call → F = first)
    (vars : op = .universal ∨ op = .existential → Rs = rest) :
    (app op F Rs).ty = (app op first rest).ty ∧ (app op F Rs).WellTyped := by
  obtain ⟨hfits, -⟩ := wellTyped_app_iff.mp hwt
  refine ⟨ty_app_congr (List.cons.inj hty).1 head, wellTyped_app_iff.mpr ⟨?_, hall⟩⟩
  refine Operator.Fits.congr hfits ?_ (fun hop => by rw [head hop]) fun hop => by rw [vars hop]
  simpa [operand, Function.comp_def] using hty

/-- The first operand exchanged. -/
theorem wellTyped_exchange_first (hwt : (app op first rest).WellTyped) (hop : op.Exchanges 0)
    (hF : F.WellTyped) (hty : F.ty = first.ty) :
    (app op F rest).ty = (app op first rest).ty ∧ (app op F rest).WellTyped := by
  have hrest := (List.forall_mem_cons.mp (wellTyped_app_iff.mp hwt).2).2
  -- the first operand is not the head of a call
  refine wellTyped_exchange hwt (List.forall_mem_cons.mpr ⟨hF, hrest⟩) ?_
    (fun hcall => absurd rfl (hop.1 hcall)) fun _ => rfl
  rw [List.map_cons, List.map_cons, hty]

/-- A further operand exchanged. -/
theorem wellTyped_exchange_rest (hwt : (app op first rest).WellTyped)
    (hop : op.Exchanges (i + 1)) (hX : rest[i]? = some X) (hY : Y.WellTyped) (hty : Y.ty = X.ty) :
    (app op first (rest.set i Y)).ty = (app op first rest).ty ∧
      (app op first (rest.set i Y)).WellTyped := by
  obtain ⟨hfirst, hrest⟩ := List.forall_mem_cons.mp (wellTyped_app_iff.mp hwt).2
  -- nothing that stands behind the first operand belongs to a quantifier
  refine wellTyped_exchange hwt (List.forall_mem_cons.mpr ⟨hfirst, fun C hC => ?_⟩) ?_
    (fun _ => rfl) fun hquant => absurd (hop.2 hquant) (Nat.succ_ne_zero i)
  · rcases List.mem_or_eq_of_mem_set hC with hC | rfl
    · exact hrest C hC
    · exact hY
  · obtain ⟨hi, rfl⟩ := List.getElem?_eq_some_iff.mp hX
    rw [List.map_cons, List.map_cons, List.map_set, hty, ← List.map_set, List.set_getElem_self]

end Tree

namespace TermStore

open Build

variable {st : TermStore} {t u x : TermId} {T : Tree} {A : Ty} {n : Node} {i : Nat} {p : List Nat}

/-- The position is a way over operands that may be exchanged: at none of the
terms on the way does it go on into the head of a call, or into a variable
that a quantifier lists. -/
def LeadsToOperand (st : TermStore) (t : TermId) (p : List Nat) : Prop :=
  ∀ q i x op, q ++ [i] <+: p → st.subtermAt t q = .ok x → st.tag x = .ok (.operator op) →
    op.Exchanges i

theorem leadsToOperand_nil (st : TermStore) (t : TermId) : st.LeadsToOperand t [] := by
  intro q i x op hq
  cases q <;> cases List.prefix_nil.mp hq

/-- A way into a child leads over exchangeable operands if the child is one
and the rest of the way does. -/
theorem leadsToOperand_cons_iff {op : Operator} {c : TermId} {cs : List TermId}
    (hn : st.node? t = some (.app op c cs)) (hx : st.child t i = .ok x) :
    st.LeadsToOperand t (i :: p) ↔ op.Exchanges i ∧ st.LeadsToOperand x p := by
  have htag := tag_of_node? hn
  constructor
  · intro h
    refine ⟨h [] i t op (List.prefix_append [i] p) rfl htag, fun q j y op' hq hy => ?_⟩
    refine h (i :: q) j y op' (List.cons_prefix_cons.mpr ⟨rfl, hq⟩) ?_
    rwa [subtermAt_cons_of_child hx]
  · rintro ⟨hop, htail⟩ q j y op' hq hy hop'
    cases q with
    | nil =>
      cases hy
      cases hop'.symm.trans htag
      rwa [(List.cons_prefix_cons.mp hq).1]
    | cons k q =>
      obtain ⟨rfl, hinner⟩ := List.cons_prefix_cons.mp hq
      rw [subtermAt_cons_of_child hx] at hy
      exact htail q j y op' hinner hy hop'

/-- At a position that leads to an operand stands a well-typed tree. Any
other one of its type may stand there: the whole has the same type and is
well typed. -/
theorem exists_tree_splice (hT : st.Denotes t T) (hwt : T.WellTyped)
    (hu : st.subtermAt t p = .ok u) (way : st.LeadsToOperand t p) :
    ∃ U, st.Denotes u U ∧ U.WellTyped ∧ ∀ R : Tree, R.WellTyped → R.ty = U.ty →
      ∃ V, T.splice p R = .ok V ∧ V.ty = T.ty ∧ V.WellTyped := by
  induction p generalizing t T with
  | nil =>
    cases hu
    refine ⟨T, hT, hwt, fun R hR hty => ⟨R, ?_, hty, hR⟩⟩
    cases T <;> rfl
  | cons i p ih =>
    obtain ⟨n, x, hn, hx, hxu⟩ := exists_of_subtermAt_cons hu
    have hchild := child_eq_ok_iff.mpr ⟨n, hn, hx⟩
    cases T with
    | leaf l =>
      cases hn.symm.trans (denotes_leaf_iff.mp hT)
      cases hx
    | app op first rest =>
      obtain ⟨c, cs, hnode, hall⟩ := denotes_app_iff.mp hT
      obtain ⟨hfirst, hrest⟩ := List.forall₂_cons.mp hall
      obtain ⟨hfirstWt, hrestWt⟩ := List.forall_mem_cons.mp (Tree.wellTyped_app_iff.mp hwt).2
      obtain ⟨hop, htail⟩ := (leadsToOperand_cons_iff hnode hchild).mp way
      cases hn.symm.trans hnode
      cases i with
      | zero =>
        cases hx
        obtain ⟨U, hU, hUwt, hany⟩ := ih hfirst hfirstWt hxu htail
        refine ⟨U, hU, hUwt, fun R hR hty => ?_⟩
        obtain ⟨Y, hY, hYty, hYwt⟩ := hany R hR hty
        refine ⟨.app op Y rest, ?_, Tree.wellTyped_exchange_first hwt hop hYwt hYty⟩
        rw [Tree.splice, hY]
        rfl
      | succ i =>
        have hxs : cs[i]? = some x := List.getElem?_cons_succ ▸ hx
        obtain ⟨X, hX, hxX⟩ := exists_getElem? hrest hxs
        have hXwt := hrestWt X (List.mem_of_getElem? hX)
        obtain ⟨U, hU, hUwt, hany⟩ := ih hxX hXwt hxu htail
        refine ⟨U, hU, hUwt, fun R hR hty => ?_⟩
        obtain ⟨Y, hY, hYty, hYwt⟩ := hany R hR hty
        refine ⟨.app op first (rest.set i Y), ?_,
          Tree.wellTyped_exchange_rest hwt hop hX hYwt hYty⟩
        rw [Tree.splice, hX]
        simp only [hY]
        rfl

/-- Replacing keeps types. In a term that passes a check, an operand at a
position has a type, and with any term in its place that passes a check
against this type the whole term passes the check that it passed. -/
theorem check_splice (ht : (st.check t A).run = .ok (.ok ())) (hu : st.subtermAt t p = .ok u)
    (way : st.LeadsToOperand t p) :
    ∃ B, st.ty u = .ok B ∧ ∀ r, (st.check r B).run = .ok (.ok ()) →
      ∃ v st', (splice t p r).on st = (.ok v, st') ∧ (st'.check v A).run = .ok (.ok ()) := by
  obtain ⟨T, hT, hty, hwt⟩ := check_eq_ok_iff.mp ht
  obtain ⟨U, hU, hUwt, hany⟩ := exists_tree_splice hT hwt hu way
  obtain ⟨B, hB⟩ := hUwt.exists_ty
  refine ⟨B, (ty_of_denotes hU).trans hB, fun r hr => ?_⟩
  obtain ⟨R, hR, hRty, hRwt⟩ := check_eq_ok_iff.mp hr
  obtain ⟨V, hV, hVty, hVwt⟩ := hany R hRwt (hRty.trans hB.symm)
  obtain ⟨a, st', ha, -, hend⟩ := follows_splice (p := p) hT hR (extends_refl st)
  rw [hV] at hend
  obtain ⟨v, rfl, hv⟩ := hend.exists_ok
  exact ⟨v, st', ha, check_eq_ok_iff.mpr ⟨V, hv, hVty.trans hty, hVwt⟩⟩

/-- In `∀ x, x < round(5/2)` the number can be replaced by the variable. -/
theorem check_splice_roundedSample :
    ((roundedSample.check ⟨4⟩ .bool).run = .ok (.ok ()) ∧
      roundedSample.subtermAt ⟨4⟩ [0, 1, 0] = .ok ⟨1⟩ ∧
      roundedSample.LeadsToOperand ⟨4⟩ [0, 1, 0]) ∧
    (roundedSample.check ⟨0⟩ .real).run = .ok (.ok ()) ∧
    ∃ v st', (splice ⟨4⟩ [0, 1, 0] ⟨0⟩).on roundedSample = (.ok v, st') ∧
      (st'.check v .bool).run = .ok (.ok ()) := by
  have hcheck : (roundedSample.check ⟨4⟩ .bool).run = .ok (.ok ()) := rfl
  have hplace : roundedSample.subtermAt ⟨4⟩ [0, 1, 0] = .ok ⟨1⟩ := rfl
  have hway : roundedSample.LeadsToOperand ⟨4⟩ [0, 1, 0] := by
    refine (leadsToOperand_cons_iff (x := ⟨3⟩) rfl rfl).mpr ⟨⟨nofun, fun _ => rfl⟩, ?_⟩
    refine (leadsToOperand_cons_iff (x := ⟨2⟩) rfl rfl).mpr ⟨⟨nofun, by simp⟩, ?_⟩
    refine (leadsToOperand_cons_iff (x := ⟨1⟩) rfl rfl).mpr ⟨⟨nofun, by simp⟩, ?_⟩
    exact leadsToOperand_nil roundedSample ⟨1⟩
  have hnew : (roundedSample.check ⟨0⟩ .real).run = .ok (.ok ()) := rfl
  obtain ⟨B, hB, hany⟩ := check_splice hcheck hplace hway
  cases hB
  exact ⟨⟨hcheck, hplace, hway⟩, hnew, hany ⟨0⟩ hnew⟩

end TermStore

end TypedTerms
