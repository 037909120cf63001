import TypedTerms.Proofs.Reading

/-!
# Well-typed trees

What an operator asks of its operands, said of the operands: how many
there are and of which types. Of an operand the operator sees its type
and, where it is a leaf, the leaf; so the rule is the same for the
operands of a tree and for those of a term in a store.

A tree is well typed when the rule holds at every node. Every call in it
then has a function at its head, so it has a type, and so has every part
of it.
-/

namespace TypedTerms

/-- What an operator sees of an operand. -/
structure Operand where
  ty : Except Violation Ty
  /-- The leaf that the operand is, if it is one. -/
  leaf? : Option Leaf

/-- This many operands, all of one type, which has the property. -/
def Uniform (n : Nat) (P : Ty → Prop) (xs : List Operand) : Prop :=
  xs.length = n ∧ ∃ A, P A ∧ ∀ x ∈ xs, x.ty = .ok A

/-- The operator may stand over these operands. -/
def Operator.Fits (op : Operator) (xs : List Operand) : Prop :=
  match op with
  | .not => Uniform 1 (· = .bool) xs
  | .equivalent => Uniform 2 (· = .bool) xs
  | .and | .or => ∀ x ∈ xs, x.ty = .ok .bool
  | .equals => Uniform 2 (fun A => A.kind ≠ .bool ∧ A.kind ≠ .func) xs
  | .universal | .existential => ∃ body vars, xs = body :: vars ∧ body.ty = .ok .bool ∧
      ∀ v ∈ vars, ∃ l, v.leaf? = some l ∧ l.isVar = true
  | .toInteger | .toRational | .toReal | .isInteger | .isRational | .rounding _ | .negate =>
    Uniform 1 (fun A => A = .integer ∨ A = .rational ∨ A = .real) xs
  | .less | .lessEquals | .add | .subtract | .multiply | .quotient _ | .remainder _ =>
    Uniform 2 (fun A => A = .integer ∨ A = .rational ∨ A = .real) xs
  | .divide => Uniform 2 (fun A => A = .rational ∨ A = .real) xs
  | .call => ∃ head args id name result params, xs = head :: args ∧
      head.leaf? = some (.function id name result params) ∧
      args.map Operand.ty = params.map .ok

section Congr

variable {n : Nat} {P : Ty → Prop} {op : Operator} {x y : Operand} {xs ys : List Operand}

/-- Operands with the types of others are all of one type if the others are.
-/
theorem ty_of_map_ty_eq {A : Except Violation Ty} (h : ys.map Operand.ty = xs.map Operand.ty)
    (hxs : ∀ x ∈ xs, x.ty = A) : ∀ y ∈ ys, y.ty = A := by
  rw [← List.forall_mem_map (P := (· = A))] at hxs ⊢
  rwa [h]

/-- Whether operands are uniform depends on their types only. -/
theorem Uniform.congr (hxs : Uniform n P xs) (h : ys.map Operand.ty = xs.map Operand.ty) :
    Uniform n P ys := by
  obtain ⟨hlen, A, hP, hall⟩ := hxs
  have hlength : ys.length = xs.length := by simpa using congrArg List.length h
  exact ⟨hlength.trans hlen, A, hP, ty_of_map_ty_eq h hall⟩

/-- An operator fits over operands of the same types, if a call has the
same head and a quantifier the same variables. -/
theorem Operator.Fits.congr (hxs : op.Fits (x :: xs))
    (hty : (y :: ys).map Operand.ty = (x :: xs).map Operand.ty) (head : op = .call → y = x)
    (vars : op = .universal ∨ op = .existential → ys = xs) : op.Fits (y :: ys) := by
  cases op with
  | and | or => exact ty_of_map_ty_eq hty hxs
  | universal | existential =>
    obtain ⟨body, vs, heq, hbody, hvs⟩ := hxs
    obtain ⟨rfl, rfl⟩ := List.cons.inj heq
    rw [vars (by simp)]
    exact ⟨y, xs, rfl, (List.cons.inj hty).1.trans hbody, hvs⟩
  | call =>
    obtain ⟨f, args, id, name, result, params, heq, hleaf, hargs⟩ := hxs
    obtain ⟨rfl, rfl⟩ := List.cons.inj heq
    rw [head rfl]
    exact ⟨x, ys, id, name, result, params, rfl, hleaf, (List.cons.inj hty).2.trans hargs⟩
  | _ => exact Uniform.congr hxs hty

/-- Where a quantifier fits, it lists variables. -/
theorem Operator.Fits.exists_var (hxs : op.Fits (x :: xs))
    (hop : op = .universal ∨ op = .existential) :
    ∀ v ∈ xs, ∃ l, v.leaf? = some l ∧ l.isVar = true := by
  rcases hop with rfl | rfl
  all_goals
    obtain ⟨body, vars, heq, -, hvars⟩ := hxs
    obtain ⟨-, rfl⟩ := List.cons.inj heq
    exact hvars

end Congr

/-- The leaf may be of its type. -/
def Leaf.Fits : Leaf → Prop
  | .var _ A => A.kind ≠ .bool ∧ A.kind ≠ .func
  | .global _ _ A => A.kind ≠ .func
  | _ => True

namespace Tree

variable {T : Tree} {op : Operator} {first : Tree} {rest : List Tree}

/-- The leaf that a tree is, if it is one. -/
def leaf? : Tree → Option Leaf
  | .leaf l => some l
  | .app .. => none

/-- What the operator above sees of a tree. -/
def operand (T : Tree) : Operand := ⟨T.ty, T.leaf?⟩

/-- Trees are uniform operands when there are so many of them, of one type
with the property. -/
theorem uniform_iff {n : Nat} {P : Ty → Prop} {Ts : List Tree} :
    Uniform n P (Ts.map operand) ↔ Ts.length = n ∧ ∃ A, P A ∧ ∀ C ∈ Ts, C.ty = .ok A := by
  simp [Uniform, operand]

/-- The rule of its tag holds at every node of the tree. -/
inductive WellTyped : Tree → Prop where
  | leaf {l : Leaf} (fits : l.Fits) : WellTyped (.leaf l)
  | app {op : Operator} {first : Tree} {rest : List Tree}
    (fits : op.Fits ((first :: rest).map operand))
    (children : ∀ c ∈ first :: rest, WellTyped c) : WellTyped (.app op first rest)

theorem wellTyped_leaf_iff {l : Leaf} : (Tree.leaf l).WellTyped ↔ l.Fits :=
  ⟨fun h => by cases h; assumption, .leaf⟩

/-- A node is well typed when its operator may stand over the children and
they are well typed. -/
theorem wellTyped_app_iff : (Tree.app op first rest).WellTyped ↔
    op.Fits ((first :: rest).map operand) ∧ ∀ c ∈ first :: rest, c.WellTyped :=
  ⟨fun h => by cases h; exact ⟨‹_›, ‹_›⟩, fun h => .app h.1 h.2⟩

theorem eq_leaf_of_leaf? {l : Leaf} (h : T.leaf? = some l) : T = .leaf l := by
  cases T with
  | leaf k => rw [Option.some.inj h]
  | app => cases h

/-- Where a call fits, its head is a function. -/
theorem exists_function_of_fits (fits : Operator.call.Fits ((first :: rest).map operand)) :
    ∃ id name result params, first = .leaf (.function id name result params) := by
  obtain ⟨head, args, id, name, result, params, hxs, hleaf, -⟩ := fits
  obtain ⟨rfl, -⟩ := List.cons.inj hxs
  exact ⟨id, name, result, params, eq_leaf_of_leaf? hleaf⟩

/-- Where a quantifier fits, variables stand behind its formula. -/
theorem exists_var_of_fits (hop : op = .universal ∨ op = .existential)
    (fits : op.Fits ((first :: rest).map operand)) :
    ∀ V ∈ rest, ∃ l, V = .leaf l ∧ l.isVar = true := by
  intro V hV
  obtain ⟨l, hl, hvar⟩ := fits.exists_var hop _ (List.mem_map_of_mem hV)
  exact ⟨l, eq_leaf_of_leaf? hl, hvar⟩

/-- In a well-typed tree every call has a function at its head, as the rule
for calls asks. -/
theorem WellTyped.wellFormed (h : T.WellTyped) : T.WellFormed := by
  induction h with
  | leaf => exact .leaf _
  | app fits _ ih =>
    refine .app ?_ ih
    rintro rfl
    exact exists_function_of_fits fits

theorem WellTyped.exists_ty (h : T.WellTyped) : ∃ A, T.ty = .ok A := h.wellFormed.exists_ty

end Tree

namespace TermStore

variable {st : TermStore} {t u : TermId} {T : Tree}

/-- What the operator above sees of a term. -/
def operand (st : TermStore) (t : TermId) : Operand := ⟨st.ty t, st.leaf? t⟩

/-- The rule of its tag holds of the term, whatever stands below. -/
def Fits (st : TermStore) (t : TermId) : Prop :=
  match st.node? t with
  | some (.leaf l) => l.Fits
  | some (.app op first rest) => op.Fits ((first :: rest).map st.operand)
  | none => False

/-- An operator sees of a term what it sees of the tree. -/
theorem operand_of_denotes (h : st.Denotes t T) : st.operand t = T.operand := by
  rw [operand, Tree.operand, ty_of_denotes h, leaf?]
  cases T with
  | leaf l => rw [denotes_leaf_iff.mp h]; rfl
  | app op first rest =>
    obtain ⟨c, cs, hnode, -⟩ := denotes_app_iff.mp h
    rw [hnode]
    rfl

/-- An operator sees of its children what it sees of their trees. -/
theorem map_operand_of_denotes {ts : List TermId} {Ts : List Tree}
    (h : List.Forall₂ st.Denotes ts Ts) : ts.map st.operand = Ts.map Tree.operand := by
  induction h with
  | nil => rfl
  | cons hT _ ih => rw [List.map_cons, List.map_cons, operand_of_denotes hT, ih]

/-- The tree of a term is well typed when the rules hold of the term and
of everything inside it. -/
theorem wellTyped_iff_of_denotes (h : st.Denotes t T) :
    T.WellTyped ↔ ∀ u, st.Subterm u t → st.Fits u := by
  induction T generalizing t with
  | leaf l =>
    have hnode := denotes_leaf_iff.mp h
    have hself : st.Fits t ↔ l.Fits := by rw [Fits, hnode]
    rw [Tree.wellTyped_leaf_iff, ← hself]
    refine ⟨fun hfits u hu => ?_, fun hall => hall t .refl⟩
    rcases hu.cases_head with rfl | ⟨c, hc, -⟩
    · exact hfits
    · obtain ⟨n, hn, hmem⟩ := hc
      cases hnode.symm.trans hn
      cases hmem
  | app op first rest ih =>
    obtain ⟨c, cs, hnode, hall⟩ := denotes_app_iff.mp h
    have hself : st.Fits t ↔ op.Fits ((first :: rest).map Tree.operand) := by
      rw [Fits, hnode, ← map_operand_of_denotes hall]
    rw [Tree.wellTyped_app_iff, ← hself]
    constructor
    · rintro ⟨hfits, hchildren⟩ u hu
      rcases hu.cases_head with rfl | ⟨d, hd, hu⟩
      · exact hfits
      · obtain ⟨D, hD, hdD⟩ := h.child hd
        exact (ih D hD hdD).mp (hchildren D hD) u hu
    · intro hsub
      refine ⟨hsub t .refl, fun D hD => ?_⟩
      obtain ⟨d, hd, hdD⟩ := h.exists_child hD
      exact (ih D hD hdD).mpr fun u hu => hsub u (hu.of_child hd)

end TermStore

end TypedTerms
