import TypedTerms.Proofs.Tree.WellTyped
import TypedTerms.Proofs.Typing.Derived

/-!
# The checker decides well-typedness

A check can end in three ways: it answers, it finds a type error, or it
stops at a broken contract. `Check.Answers x P` says that the third way
is excluded and that the answers are the values with the property `P`;
whatever has none is a type error. The steps a check is put together from
have one law each, so what a check decides is read off its text.

On a term that stands for a tree the checker keeps every contract, and
passes exactly if the tree has the expected type and the rule of its tag
holds at every node (`check_answers`).
-/

namespace TypedTerms

namespace Check

variable {α β : Type} {x y : Check α} {f : α → Check β} {P P' : α → Prop} {Q : α → β → Prop}

/-- The check keeps every contract, and it answers `a` exactly if `a` has
the property. -/
def Answers (x : Check α) (P : α → Prop) : Prop :=
  ∃ r : Except TypeError α, x.run = .ok r ∧ ∀ a, r = .ok a ↔ P a

/-- The property that a check answers by may be said in another way. -/
theorem Answers.congr (h : Answers x P) (hP : ∀ a, P a ↔ P' a) : Answers x P' := by
  obtain ⟨r, hr, hiff⟩ := h
  exact ⟨r, hr, fun a => (hiff a).trans (hP a)⟩

theorem answers_pure (a : α) : Answers (pure a) (· = a) :=
  ⟨.ok a, rfl, fun _ => ⟨fun h => (Except.ok.inj h).symm, fun h => congrArg Except.ok h.symm⟩⟩

theorem answers_throw (e : TypeError) (h : ∀ a, ¬ P a) : Answers (throw e) P :=
  ⟨.error e, rfl, fun a => ⟨fun he => (nomatch he), fun ha => absurd ha (h a)⟩⟩

theorem answers_read {m : Except Violation α} {a : α} (h : m = .ok a) :
    Answers (Check.read m) (· = a) := h ▸ answers_pure a

theorem run_bind_of_ok {a : α} (h : x.run = .ok (.ok a)) : (x >>= f).run = (f a).run := by
  rw [ExceptT.run_bind, h]
  rfl

/-- After a type error nothing more is checked. -/
theorem run_bind_of_error {e : TypeError} (h : x.run = .ok (.error e)) :
    (x >>= f).run = .ok (.error e) := by
  rw [ExceptT.run_bind, h]
  rfl

/-- After a broken contract nothing more is checked. -/
theorem run_bind_of_violation {v : Violation} (h : x.run = .error v) :
    (x >>= f).run = .error v := by
  rw [ExceptT.run_bind, h]
  rfl

/-- Checks that answer by properties answer by both, one after the other. -/
theorem Answers.bind (hx : Answers x P) (hf : ∀ a, P a → Answers (f a) (Q a)) :
    Answers (x >>= f) fun b => ∃ a, P a ∧ Q a b := by
  obtain ⟨_ | a, hr, hiff⟩ := hx
  · refine ⟨_, run_bind_of_error hr, fun b => ⟨fun h => (nomatch h), ?_⟩⟩
    rintro ⟨a, ha, -⟩
    cases (hiff a).mpr ha
  · have ha := (hiff a).mp rfl
    obtain ⟨s, hs, hsiff⟩ := hf a ha
    refine ⟨s, (run_bind_of_ok hr).trans hs, fun b => (hsiff b).trans ⟨fun hb => ⟨a, ha, hb⟩, ?_⟩⟩
    rintro ⟨a', ha', hb⟩
    cases (hiff a').mpr ha'
    exact hb

/-- A question whose answer is known is asked, and the check goes on. -/
theorem Answers.read_bind {m : Except Violation α} {a : α} {P : β → Prop} (h : m = .ok a)
    (hf : Answers (f a) P) : Answers (Check.read m >>= f) P :=
  ((answers_read h).bind fun _ ha => ha ▸ hf).congr fun _ =>
    ⟨fun ⟨_, _, hb⟩ => hb, fun hb => ⟨a, rfl, hb⟩⟩

/-- Two checks in a row. -/
theorem Answers.andThen {x y : Check Unit} {P Q : Prop} (hx : Answers x fun _ => P)
    (hy : P → Answers y fun _ => Q) : Answers (x >>= fun _ => y) fun _ => P ∧ Q :=
  (hx.bind fun _ hP => hy hP).congr fun _ => exists_const Unit

/-- A check that is made only if a condition holds, which otherwise is an
error. -/
theorem answers_guard {c : Prop} [Decidable c] {e : TypeError}
    (hx : c → Answers x P) : Answers (if c then x else throw e) fun a => c ∧ P a := by
  by_cases hc : c
  · rw [if_pos hc]
    exact (hx hc).congr fun a => (and_iff_right hc).symm
  · rw [if_neg hc]
    exact answers_throw e fun a h => hc h.1

/-- The same, said with the condition of the error. -/
theorem answers_unless {c : Prop} [Decidable c] {e : TypeError}
    (hx : ¬ c → Answers x P) : Answers (if c then throw e else x) fun a => ¬ c ∧ P a := by
  rw [← ite_not]
  exact answers_guard hx

/-- Checks of a list of things, which stand for others with the property
that each check decides. -/
theorem answers_forM {R : α → β → Prop} {check : α → Check Unit} {P : β → Prop} {as : List α}
    {bs : List β} (hR : List.Forall₂ R as bs)
    (h : ∀ a b, R a b → b ∈ bs → Answers (check a) fun _ => P b) :
    Answers (as.forM check) fun _ => ∀ b ∈ bs, P b := by
  induction hR with
  | nil => exact (answers_pure ()).congr fun _ => by simp
  | cons hab _ ih =>
    have hrest := ih fun a b hr hb => h a b hr (List.mem_cons_of_mem _ hb)
    exact ((h _ _ hab List.mem_cons_self).andThen fun _ => hrest).congr fun _ =>
      List.forall_mem_cons.symm

end Check

open Check

/-! ## Rules -/

theorem Ty.isNumeric_iff {A : Ty} :
    A.isNumeric = true ↔ A = .integer ∨ A = .rational ∨ A = .real := by
  cases A <;> simp [isNumeric]

/-- The check of a leaf answers exactly if the leaf may be of its type. -/
theorem Leaf.answers_check (l : Leaf) : Answers l.check fun _ => l.Fits := by
  cases l with
  | var id A =>
    exact (answers_unless fun _ => answers_pure ()).congr fun _ => by simp [Fits]
  | global id name A =>
    exact (answers_unless fun _ => answers_pure ()).congr fun _ => by simp [Fits]
  | _ => exact (answers_pure ()).congr fun _ => by simp [Fits]

/-- The operands meet the rule. -/
def OperandRule.Fits (rule : OperandRule) (xs : List Operand) : Prop :=
  match rule with
  | .formulas none => ∀ x ∈ xs, x.ty = .ok .bool
  | .formulas (some count) => Uniform count (· = .bool) xs
  | .binding => ∃ body vars, xs = body :: vars ∧ body.ty = .ok .bool ∧
      ∀ v ∈ vars, ∃ l, v.leaf? = some l ∧ l.isVar = true
  | .comparable => Uniform 2 (fun A => A.kind ≠ .bool ∧ A.kind ≠ .func) xs
  | .numeric count => Uniform count (fun A => A = .integer ∨ A = .rational ∨ A = .real) xs
  | .fractions => Uniform 2 (fun A => A = .rational ∨ A = .real) xs
  | .arguments => ∃ head args id name result params, xs = head :: args ∧
      head.leaf? = some (.function id name result params) ∧
      args.map Operand.ty = params.map .ok

/-- Whether an operator may stand over operands depends on its rule only. -/
theorem Operator.fits_iff {op : Operator} {xs : List Operand} :
    op.Fits xs ↔ op.operandRule.Fits xs := by
  cases op <;> rfl

/-- The operators that bind are the two quantifiers. -/
theorem Operator.operandRule_eq_binding_iff {op : Operator} :
    op.operandRule = .binding ↔ op = .universal ∨ op = .existential := by
  cases op <;> simp [operandRule]

namespace TermStore

variable {st : TermStore} {t : TermId} {T : Tree} {d : Nat}

/-! ## The derived type -/

/-- Where the type of a tree exists the checker derives it, and where it
does not the checker finds a type error. -/
theorem derive_answers (h : st.Denotes t T) :
    Answers (st.derive t) fun A => T.ty = .ok A := by
  rw [← ty_of_denotes h]
  rcases derive_cases h with ⟨A, hA, hr⟩ | ⟨g, hg, hr⟩
  · exact ⟨.ok A, hr, fun B => by simp [hA]⟩
  · exact ⟨_, hr, fun B => by simp [hg]⟩

/-! ## The operands -/

/-- The check of the number of operands passes exactly for the number
expected. -/
theorem checkArity_answers (tag : Tag) (found expected : Nat) :
    Answers (checkArity tag found expected) fun _ => found = expected :=
  (answers_guard fun _ => answers_pure ()).congr fun _ => by simp

section Operands

variable {c : TermId} {cs : List TermId} {first : Tree} {rest : List Tree} {n : Nat}
  {P : Ty → Prop} {tag : Tag} {Ts : List Tree}

/-- The checks of all operands against one type. -/
theorem checkAll_answers {ts : List TermId} {B : Ty} (hall : List.Forall₂ st.Denotes ts Ts)
    (ih : ∀ C ∈ Ts, ∀ {c}, st.Denotes c C → ∀ B,
      Answers (st.checkWithin d c B) fun _ => C.ty = .ok B ∧ C.WellTyped) :
    Answers (ts.forM (st.checkWithin d · B)) fun _ =>
      (∀ C ∈ Ts, C.ty = .ok B) ∧ ∀ C ∈ Ts, C.WellTyped :=
  (answers_forM hall fun _ C hC hmem => ih C hmem hC B).congr fun _ =>
    ⟨fun h => ⟨fun C hC => (h C hC).1, fun C hC => (h C hC).2⟩,
      fun h C hC => ⟨h.1 C hC, h.2 C hC⟩⟩

/-- A number of operands of one type, which is that of the first. -/
theorem checkUniform_answers {ts : List TermId} {body : Ty → Check Unit} {W : Prop}
    (hfirst : st.Denotes c first)
    (hlen : ts.length = (first :: rest).length)
    (hbody : ∀ B, Answers (body B) fun _ =>
      P B ∧ (∀ C ∈ first :: rest, C.ty = .ok B) ∧ W) :
    Answers (checkArity tag ts.length n >>= fun _ => st.derive c >>= body) fun _ =>
      Uniform n P ((first :: rest).map Tree.operand) ∧ W := by
  refine ((checkArity_answers tag ts.length n).andThen fun _ =>
    (derive_answers hfirst).bind fun B _ => hbody B).congr fun _ => ?_
  rw [Tree.uniform_iff, hlen]
  constructor
  · rintro ⟨hn, B, -, hP, hall, hW⟩
    exact ⟨⟨hn, B, hP, hall⟩, hW⟩
  · rintro ⟨⟨hn, B, hP, hall⟩, hW⟩
    exact ⟨hn, B, hall first List.mem_cons_self, hP, hall, hW⟩

/-- One of the variables of a quantifier. -/
theorem checkBound_answers (tag : Tag) {v : TermId} {V : Tree} (hV : st.Denotes v V)
    (ih : ∀ B, Answers (st.checkWithin d v B) fun _ => V.ty = .ok B ∧ V.WellTyped) :
    Answers (do
      if ← Check.read (st.isVar v) then st.checkWithin d v (← Check.read (st.ty v))
      else throw (.invalid tag (.bound (← Check.read (st.tag v))))) fun _ =>
        (∃ l, V.leaf? = some l ∧ l.isVar = true) ∧ V.WellTyped := by
  obtain ⟨n, hnode, -⟩ := hV.node
  have hno : (¬ ∃ l, V.leaf? = some l ∧ l.isVar = true) →
      Answers (do throw (.invalid tag (.bound (← Check.read (st.tag v)))) : Check Unit) fun _ =>
        (∃ l, V.leaf? = some l ∧ l.isVar = true) ∧ V.WellTyped := fun hno =>
    .read_bind (tag_of_node? hnode) (answers_throw _ fun _ h => hno h.1)
  cases n with
  | app op c cs =>
    refine .read_bind (a := false) (by rw [isVar, ofLeaf, node_of_node? hnode]; rfl) (hno ?_)
    rintro ⟨l, hl, -⟩
    rw [Tree.eq_leaf_of_leaf? hl, denotes_leaf_iff, hnode] at hV
    cases hV
  | leaf l =>
    obtain rfl := hV.eq_leaf hnode
    refine .read_bind (isVar_of_leaf hnode) ?_
    cases hl : l.isVar with
    | true =>
      refine .read_bind (ty_of_denotes hV) ((ih l.ty).congr fun _ => ?_)
      exact and_congr_left fun _ => ⟨fun _ => ⟨l, rfl, hl⟩, fun _ => rfl⟩
    | false =>
      refine hno ?_
      rintro ⟨k, hk, hvar⟩
      cases hk
      cases hl.symm.trans hvar

/-- A quantifier: variables behind a formula. -/
theorem checkBinding_answers (hall : List.Forall₂ st.Denotes (c :: cs) (first :: rest))
    (ih : ∀ C ∈ first :: rest, ∀ {c}, st.Denotes c C → ∀ B,
      Answers (st.checkWithin d c B) fun _ => C.ty = .ok B ∧ C.WellTyped) :
    Answers (do
      cs.forM fun v => do
        if ← Check.read (st.isVar v) then st.checkWithin d v (← Check.read (st.ty v))
        else throw (.invalid tag (.bound (← Check.read (st.tag v))))
      st.checkWithin d c .bool) fun _ =>
        OperandRule.binding.Fits ((first :: rest).map Tree.operand) ∧
          ∀ C ∈ first :: rest, C.WellTyped := by
  obtain ⟨hfirst, hrest⟩ := List.forall₂_cons.mp hall
  have hvars := answers_forM hrest fun v V hV hmem =>
    checkBound_answers (d := d) tag hV fun B => ih V (List.mem_cons_of_mem _ hmem) hV B
  refine (hvars.andThen fun _ => ih first List.mem_cons_self hfirst .bool).congr fun _ => ?_
  rw [List.forall_mem_cons]
  constructor
  · rintro ⟨hall, hty, hwt⟩
    refine ⟨⟨_, _, rfl, hty, ?_⟩, hwt, fun V hV => (hall V hV).2⟩
    exact List.forall_mem_map.mpr fun V hV => (hall V hV).1
  · rintro ⟨⟨body, vars, hxs, hty, hvars⟩, hwt, hall⟩
    obtain ⟨rfl, rfl⟩ := List.cons.inj hxs
    exact ⟨fun V hV => ⟨List.forall_mem_map.mp hvars V hV, hall V hV⟩, hty, hwt⟩

/-- The arguments of a call, against as many parameter types. -/
theorem checkParams_answers {params : List Ty} (hall : List.Forall₂ st.Denotes cs rest)
    (ih : ∀ C ∈ rest, ∀ {c}, st.Denotes c C → ∀ B,
      Answers (st.checkWithin d c B) fun _ => C.ty = .ok B ∧ C.WellTyped)
    (hlen : cs.length = params.length) :
    Answers ((cs.zip params).forM fun (arg, param) => st.checkWithin d arg param) fun _ =>
      rest.map Tree.ty = params.map .ok ∧ ∀ C ∈ rest, C.WellTyped := by
  induction hall generalizing params with
  | nil =>
    cases params with
    | nil => exact (answers_pure ()).congr fun _ => by simp
    | cons => cases hlen
  | cons hc _ ihRest =>
    cases params with
    | nil => cases hlen
    | cons A params =>
      have hrest := ihRest (fun C hC => ih C (List.mem_cons_of_mem _ hC)) (Nat.succ.inj hlen)
      refine ((ih _ List.mem_cons_self hc A).andThen fun _ => hrest).congr fun _ => ?_
      rw [List.map_cons, List.map_cons, List.cons.injEq, List.forall_mem_cons]
      exact and_and_and_comm

/-- A call: its head is a function, and its arguments are of the types of
the parameters. -/
theorem checkCall_answers (hall : List.Forall₂ st.Denotes (c :: cs) (first :: rest))
    (ih : ∀ C ∈ first :: rest, ∀ {c}, st.Denotes c C → ∀ B,
      Answers (st.checkWithin d c B) fun _ => C.ty = .ok B ∧ C.WellTyped) :
    Answers (do
      match ← Check.read (st.node c) with
      | .leaf (.function _ _ _ params) =>
        checkArity tag cs.length params.length
        (cs.zip params).forM fun (arg, param) => st.checkWithin d arg param
      | head => throw (.invalid tag (.callHead head.tag))) fun _ =>
        OperandRule.arguments.Fits ((first :: rest).map Tree.operand) ∧
          ∀ C ∈ first :: rest, C.WellTyped := by
  obtain ⟨hfirst, hrest⟩ := List.forall₂_cons.mp hall
  obtain ⟨n, hnode, -⟩ := hfirst.node
  refine .read_bind (node_of_node? hnode) ?_
  split
  · next id name result params =>
    obtain rfl := hfirst.eq_leaf hnode
    refine ((checkArity_answers tag _ _).andThen fun hlen => checkParams_answers hrest
      (fun C hC => ih C (List.mem_cons_of_mem _ hC)) hlen).congr fun _ => ?_
    constructor
    · rintro ⟨-, hty, hwt⟩
      refine ⟨⟨_, _, id, name, result, params, rfl, rfl, ?_⟩, List.forall_mem_cons.mpr ⟨?_, hwt⟩⟩
      · rw [List.map_map]
        exact hty
      · exact .leaf trivial
    · rintro ⟨⟨head, args, id', name', result', params', hxs, hleaf, hty⟩, hwt⟩
      obtain ⟨rfl, rfl⟩ := List.cons.inj hxs
      cases hleaf
      rw [List.map_map] at hty
      have hlen := hrest.length_eq.trans (by simpa using congrArg List.length hty)
      exact ⟨hlen, hty, fun C hC => hwt C (List.mem_cons_of_mem _ hC)⟩
  · next hnot =>
    refine answers_throw _ ?_
    rintro - ⟨⟨head, args, id, name, result, params, hxs, hleaf, -⟩, -⟩
    obtain ⟨rfl, -⟩ := List.cons.inj hxs
    rw [Tree.eq_leaf_of_leaf? hleaf, denotes_leaf_iff, hnode] at hfirst
    exact hnot _ _ _ _ (Option.some.inj hfirst)

end Operands

/-- A check of a term against a type begins by comparing the types. -/
theorem checkExpected_answers {A : Ty} {e : Ty → TypeError} {x : Check Unit} {W : Prop}
    (h : st.Denotes t T) (hx : Answers x fun _ => W) :
    Answers (st.derive t >>= fun found => if found ≠ A then throw (e found) else x) fun _ =>
      T.ty = .ok A ∧ W := by
  refine ((derive_answers h).bind fun B _ => answers_unless fun _ => hx).congr fun _ => ?_
  simp only [not_not]
  constructor
  · rintro ⟨B, hB, rfl, hW⟩
    exact ⟨hB, hW⟩
  · rintro ⟨hA, hW⟩
    exact ⟨A, hA, rfl, hW⟩

/-- Within as many levels as the tree has, the checker decides whether the
tree is well typed and of the expected type. -/
theorem checkWithin_answers (h : st.Denotes t T) (hd : T.depth ≤ d) (A : Ty) :
    Answers (st.checkWithin d t A) fun _ => T.ty = .ok A ∧ T.WellTyped := by
  induction T generalizing t d A with
  | leaf l =>
    cases d with
    | zero => exact absurd hd (Nat.not_succ_le_zero 0)
    | succ d =>
      rw [checkWithin]
      refine .read_bind (node_of_node? (denotes_leaf_iff.mp h)) ?_
      exact (checkExpected_answers h l.answers_check).congr fun _ =>
        and_congr_right fun _ => Tree.wellTyped_leaf_iff.symm
  | app op first rest ih =>
    obtain ⟨c, cs, hnode, hall⟩ := denotes_app_iff.mp h
    obtain ⟨hfirst, hrest⟩ := List.forall₂_cons.mp hall
    cases d with
    | zero => exact absurd hd (Nat.not_succ_le_zero _)
    | succ d =>
      have below : ∀ C ∈ first :: rest, ∀ {c}, st.Denotes c C → ∀ B,
          Answers (st.checkWithin d c B) fun _ => C.ty = .ok B ∧ C.WellTyped := by
        intro C hC c hc B
        have hlt : C.depth < (Tree.app op first rest).depth := Tree.depth_lt_of_mem hC
        exact ih C hC hc (by omega) B
      rw [checkWithin]
      refine .read_bind (node_of_node? hnode) ?_
      refine (checkExpected_answers
        (W := op.operandRule.Fits ((first :: rest).map Tree.operand) ∧
          ∀ C ∈ first :: rest, C.WellTyped) h ?_).congr fun _ =>
        and_congr_right fun _ => ?_
      · have all := fun B => checkAll_answers (B := B) hall below
        -- the checker branches on the operand rule, and so does what fits
        simp only
        generalize op.operandRule = rule
        cases rule with
        | formulas count =>
          cases count with
          | none =>
            refine (all .bool).congr fun _ => and_congr_left fun _ => ?_
            simp only [OperandRule.Fits, List.forall_mem_map]
            rfl
          | some count =>
            refine ((checkArity_answers _ _ _).andThen fun _ => all .bool).congr fun _ => ?_
            rw [OperandRule.Fits, Tree.uniform_iff, ← hall.length_eq]
            simp [and_assoc]
        | binding => exact checkBinding_answers hall below
        | comparable =>
          refine checkUniform_answers hfirst hall.length_eq fun B => ?_
          refine (answers_unless fun _ => all B).congr fun _ => ?_
          rw [not_or]
        | numeric count =>
          refine checkUniform_answers hfirst hall.length_eq fun B => ?_
          refine (answers_guard fun _ => all B).congr fun _ => ?_
          rw [Ty.isNumeric_iff]
        | fractions =>
          exact checkUniform_answers hfirst hall.length_eq fun B => answers_guard fun _ => all B
        | arguments => exact checkCall_answers hall below
      · rw [Tree.wellTyped_app_iff, Operator.fits_iff]

/-- On a term that stands for a tree the checker keeps every contract. -/
theorem check_answers (h : st.Denotes t T) (A : Ty) :
    Answers (st.check t A) fun _ => T.ty = .ok A ∧ T.WellTyped :=
  checkWithin_answers h (h.depth_le_size.trans (Nat.le_succ _)) A

/-- A check of a term ends in an answer or in a type error, and it is
passed exactly if the term has the expected type and the rule of its tag
holds of every term inside it. -/
theorem check_passes_iff (h : st.Denotes t T) (A : Ty) :
    ∃ r : Except TypeError Unit, (st.check t A).run = .ok r ∧
      (r = .ok () ↔ st.ty t = .ok A ∧ ∀ u, st.Subterm u t → st.Fits u) := by
  obtain ⟨r, hr, hiff⟩ := check_answers h A
  refine ⟨r, hr, (hiff ()).trans ?_⟩
  rw [ty_of_denotes h, wellTyped_iff_of_denotes h]

/-- The comparison of two real numbers passes as a formula exactly if it is
one and every subterm fits. -/
theorem check_passes_iff_sample :
    ∃ r : Except TypeError Unit, (roundedSample.check ⟨4⟩ .bool).run = .ok r ∧
      (r = .ok () ↔ roundedSample.ty ⟨4⟩ = .ok .bool ∧
        ∀ u, roundedSample.Subterm u ⟨4⟩ → roundedSample.Fits u) :=
  have ⟨_, hT, _⟩ : roundedSample.WellFormed ⟨4⟩ := by decide
  check_passes_iff hT .bool

/-- A quantifier over a comparison passes as a formula, and is found not to
be a real number. -/
example : (roundedSample.check ⟨4⟩ .bool).run = .ok (.ok ()) ∧
    (roundedSample.check ⟨4⟩ .real).run =
      .ok (.error (.mismatch (.operator .universal) .bool .real)) := ⟨rfl, rfl⟩

end TermStore

end TypedTerms
