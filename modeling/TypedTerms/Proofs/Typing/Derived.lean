import TypedTerms.Proofs.Listed
import TypedTerms.Proofs.Reading

/-!
# Two ways to a type

The type of a term is derived in two ways. `ty` stops at a broken contract
where it comes to a call without a function at its head, and a check finds
a type error there. Which way a check goes is said twice: by the result
rules of the operators, as `ty` goes (`derive`), and by a list of its own,
with `ty` for the rest (`guardedTy`). The two are one function
(`guardedTy_eq_derive`).

`StuckAt` says where `ty` stops: from operand to first operand it has come
to a call, and the head of the call has the tag. That is the one way in
which the type of a term that stands for a tree can be missing, so a check
that derives it keeps every contract.
-/

namespace TypedTerms

/-- The operators listed for the guard are those whose result rule is the
first operand. -/
theorem Operator.asksFirst_iff {op : Operator} :
    op.asksFirst = true ↔ op.resultRule = .firstOperand := by
  cases op <;> simp [asksFirst, resultRule]

/-- A node with the tag of functions is a function. -/
theorem Node.exists_function_of_tag {n : Node} (h : n.tag = .leaf .function) :
    ∃ id name result params, n = .leaf (.function id name result params) := by
  cases n with
  | app => cases h
  | leaf l =>
    cases l with
    | function id name result params => exact ⟨id, name, result, params, rfl⟩
    | boolean b => cases b <;> cases h
    | _ => cases h

/-- What a check makes of a derived type: of a call without a function a
type error, and of every other broken contract the same. -/
def Check.ofDerived : Except Violation Ty → Except Violation (Except TypeError Ty)
  | .ok A => .ok (.ok A)
  | .error (.callHead g) => .ok (.error (.invalid (.operator .call) (.callHead g)))
  | .error v => .error v

namespace Check

variable {m : Except Violation Ty} {A : Ty} {e : TypeError}

/-- A check has the type that is derived, and no other. -/
theorem ofDerived_eq_ok_iff : ofDerived m = .ok (.ok A) ↔ m = .ok A := by
  cases m with
  | ok B => simp [ofDerived]
  | error v => cases v <;> simp [ofDerived]

/-- A check reports a type error for a call without a function, and for
nothing else. -/
theorem ofDerived_eq_error_iff : ofDerived m = .ok (.error e) ↔
    ∃ g, m = .error (.callHead g) ∧ .invalid (.operator .call) (.callHead g) = e := by
  cases m with
  | ok B => simp [ofDerived]
  | error v => cases v <;> simp [ofDerived]

end Check

namespace Tree

/-- A call has a type or has a head that is no function. -/
theorem callResult_cases (T : Tree) :
    (∃ A, T.callResult = .ok A) ∨ ∃ g, T.callResult = .error (.callHead g) := by
  cases T with
  | app => exact .inr ⟨_, rfl⟩
  | leaf l =>
    cases l with
    | function => exact .inl ⟨_, rfl⟩
    | _ => exact .inr ⟨_, rfl⟩

/-- The type of a tree is missing only for a call without a function. -/
theorem ty_cases (T : Tree) : (∃ A, T.ty = .ok A) ∨ ∃ g, T.ty = .error (.callHead g) := by
  induction T with
  | leaf l => exact .inl ⟨l.ty, rfl⟩
  | app op first rest ih =>
    rw [ty]
    cases op.resultRule with
    | always A => exact .inl ⟨A, rfl⟩
    | firstOperand => exact ih first List.mem_cons_self
    | headResult => exact first.callResult_cases

end Tree

namespace TermStore

variable {st : TermStore} {t c : TermId} {cs : List TermId} {T : Tree} {A : Ty} {g : Tag} {d : Nat}

/-! ## The type of one node -/

theorem ty_of_leaf {l : Leaf} (h : st.node? t = some (.leaf l)) : st.ty t = .ok l.ty := by
  rw [ty, depthLimit, tyWithin, node_of_node? h]
  rfl

/-- The type of a node is that of its rule, its first operand or its head.
-/
theorem tyWithin_app {op : Operator} (h : st.node? t = some (.app op c cs)) :
    st.tyWithin (d + 1) t = match op.resultRule with
      | .always A => .ok A
      | .firstOperand => st.tyWithin d c
      | .headResult => (do
          match ← st.node c with
          | .leaf (.function _ _ result _) => return result
          | head => throw (.callHead head.tag)) := by
  rw [tyWithin, node_of_node? h]
  rfl

/-- A check derives the type of a node in the same way, and reports a call
without a function. -/
theorem deriveWithin_app {op : Operator}
    (h : st.node? t = some (.app op c cs)) :
    st.deriveWithin (d + 1) t = match op.resultRule with
      | .always A => return A
      | .firstOperand => st.deriveWithin d c
      | .headResult => (do
          match ← Check.read (st.node c) with
          | .leaf (.function _ _ result _) => return result
          | head => throw (.invalid (.operator op) (.callHead head.tag))) := by
  rw [deriveWithin, node_of_node? h]
  rfl

theorem ty_of_always {op : Operator} (h : st.node? t = some (.app op c cs))
    (hr : op.resultRule = .always A) : st.ty t = .ok A := by
  rw [ty, depthLimit, tyWithin_app h, hr]

/-! ## One function -/

theorem child_zero_of_node? {op : Operator}
    (h : st.node? t = some (.app op c cs)) : st.child t 0 = .ok c := by
  rw [child, node_of_node? h]
  rfl

/-- A guarded call is asked for the type of its head only if that is a
function. -/
theorem guardedTyWithin_call (h : st.node? t = some (.app .call c cs)) :
    st.guardedTyWithin (d + 1) t = (do
      match ← Check.read (st.tag c) with
      | .leaf .function => Check.read (do (← st.ty c).element 0)
      | tag => throw (.invalid (.operator .call) (.callHead tag))) := by
  rw [guardedTyWithin, tag_of_node? h, child_zero_of_node? h]
  rfl

/-- Any other node is asked at its first operand, or outright. -/
theorem guardedTyWithin_other {op : Operator}
    (h : st.node? t = some (.app op c cs)) (hop : op ≠ .call) :
    st.guardedTyWithin (d + 1) t =
      if op.asksFirst then st.guardedTyWithin d c else Check.read (st.ty t) := by
  rw [guardedTyWithin, tag_of_node? h, child_zero_of_node? h]
  cases op with
  | call => exact absurd rfl hop
  | _ => rfl

/-- The way of the guard at a call: a known head is a function, or its tag
is in the error. -/
theorem guarded_head_eq (st : TermStore) (c : TermId) :
    (do
      match ← Check.read (st.tag c) with
      | .leaf .function => Check.read (do (← st.ty c).element 0)
      | tag => throw (.invalid (.operator .call) (.callHead tag)) : Check Ty) = (do
      match ← Check.read (st.node c) with
      | .leaf (.function _ _ result _) => return result
      | head => throw (.invalid (.operator .call) (.callHead head.tag)) : Check Ty) := by
  cases hn : st.node? c with
  | none =>
    rw [tag, node, hn]
    rfl
  | some n =>
    rw [tag_of_node? hn, node_of_node? hn]
    cases n with
    | app => rfl
    | leaf l =>
      rw [ty_of_leaf hn]
      cases l with
      | boolean b => cases b <;> rfl
      | _ => rfl

/-- The guard goes the way of the result rules. -/
theorem guardedTyWithin_eq_deriveWithin (st : TermStore) (d : Nat) (t : TermId) :
    st.guardedTyWithin d t = st.deriveWithin d t := by
  induction d generalizing t with
  | zero => rfl
  | succ d ih =>
    cases hn : st.node? t with
    | none =>
      rw [guardedTyWithin, deriveWithin, tag, node, hn]
      rfl
    | some n =>
      cases n with
      | leaf l =>
        rw [guardedTyWithin, deriveWithin, tag_of_node? hn, node_of_node? hn, ty_of_leaf hn]
        rfl
      | app op first rest =>
        rw [deriveWithin_app hn]
        cases hr : op.resultRule with
        | headResult =>
          obtain rfl := Tree.resultRule_eq_headResult_iff.mp hr
          exact (guardedTyWithin_call hn).trans (st.guarded_head_eq first)
        | firstOperand =>
          have hasks := Operator.asksFirst_iff.mpr hr
          rw [guardedTyWithin_other hn (by rintro rfl; cases hr), if_pos hasks, ih]
        | always B =>
          have hasks : ¬ op.asksFirst = true := by
            rw [Operator.asksFirst_iff, hr]
            simp
          rw [guardedTyWithin_other hn (by rintro rfl; cases hr), if_neg hasks,
            ty_of_always hn hr]
          rfl

/-- Going the guarded way comes to what a check derives. -/
theorem guardedTy_eq_derive (st : TermStore) (t : TermId) : st.guardedTy t = st.derive t :=
  st.guardedTyWithin_eq_deriveWithin st.depthLimit t

/-! ## Where there is no type -/

/-- The way to the type of the term leads, over first operands, to a call
whose head has the tag, which is not that of a function. -/
inductive StuckAt (st : TermStore) : TermId → Tag → Prop where
  | call {t c : TermId} {cs : List TermId} {head : Node}
    (node : st.node? t = some (.app .call c cs)) (known : st.node? c = some head)
    (other : head.tag ≠ .leaf .function) : StuckAt st t head.tag
  | first {t c : TermId} {op : Operator} {cs : List TermId} {g : Tag}
    (node : st.node? t = some (.app op c cs)) (rule : op.resultRule = .firstOperand)
    (inner : StuckAt st c g) : StuckAt st t g

/-- Below a term without a type stands a call without a function. -/
theorem StuckAt.exists_call (h : st.StuckAt t g) :
    ∃ u c cs head, st.Subterm u t ∧ st.node? u = some (.app .call c cs) ∧
      st.node? c = some head ∧ head.tag = g ∧ g ≠ .leaf .function := by
  induction h with
  | call node known other => exact ⟨_, _, _, _, .refl, node, known, rfl, other⟩
  | first node _ _ ih =>
    obtain ⟨u, c, cs, head, hu, hcall⟩ := ih
    exact ⟨u, c, cs, head, hu.of_child ⟨_, node, List.mem_cons_self⟩, hcall⟩

/-- Within any number of levels a check derives what `ty` derives, and
finds a type error where `ty` comes to a call without a function. -/
theorem run_deriveWithin (st : TermStore) (d : Nat) (t : TermId) :
    (st.deriveWithin d t).run = Check.ofDerived (st.tyWithin d t) := by
  induction d generalizing t with
  | zero => rfl
  | succ d ih =>
    cases hn : st.node? t with
    | none =>
      rw [deriveWithin, tyWithin, node, hn]
      rfl
    | some n =>
      cases n with
      | leaf l =>
        rw [deriveWithin, tyWithin, node_of_node? hn]
        rfl
      | app op first rest =>
        rw [deriveWithin_app hn, tyWithin_app hn]
        cases hr : op.resultRule with
        | always B => rfl
        | firstOperand => exact ih first
        | headResult =>
          obtain rfl := Tree.resultRule_eq_headResult_iff.mp hr
          cases hc : st.node? first with
          | none =>
            rw [node, hc]
            rfl
          | some head =>
            rw [node_of_node? hc]
            cases head with
            | app => rfl
            | leaf l => cases l <;> rfl

/-- A check derives what `ty` answers, a call without a function being a
type error. -/
theorem run_derive (st : TermStore) (t : TermId) :
    (st.derive t).run = Check.ofDerived (st.ty t) := st.run_deriveWithin st.depthLimit t

/-- A type that a check derives is the type of the term. -/
theorem ty_of_derive (h : (st.derive t).run = .ok (.ok A)) : st.ty t = .ok A :=
  Check.ofDerived_eq_ok_iff.mp ((st.run_derive t).symm.trans h)

/-- Of a term that stands for a tree a check derives the type, or it finds
a call without a function where `ty` stops. -/
theorem derive_cases (hT : st.Denotes t T) :
    (∃ A, st.ty t = .ok A ∧ (st.derive t).run = .ok (.ok A)) ∨
      ∃ g, st.ty t = .error (.callHead g) ∧
        (st.derive t).run = .ok (.error (.invalid (.operator .call) (.callHead g))) := by
  rw [run_derive, ty_of_denotes hT]
  rcases T.ty_cases with ⟨A, hA⟩ | ⟨g, hg⟩
  · exact .inl ⟨A, hA, by rw [hA]; rfl⟩
  · exact .inr ⟨g, hg, by rw [hg]; rfl⟩

/-- At a call the type asks for a function. -/
theorem headResult_cases {head : Node} (hn : st.node? t = some (.app .call c cs))
    (hc : st.node? c = some head) :
    (head.tag = .leaf .function ∧ ∃ A, st.tyWithin (d + 1) t = .ok A) ∨
      head.tag ≠ .leaf .function ∧ st.tyWithin (d + 1) t = .error (.callHead head.tag) := by
  rw [tyWithin_app hn, Operator.resultRule, node_of_node? hc]
  by_cases hfun : head.tag = .leaf .function
  · obtain ⟨id, name, result, params, rfl⟩ := Node.exists_function_of_tag hfun
    exact .inl ⟨hfun, result, rfl⟩
  · refine .inr ⟨hfun, ?_⟩
    cases head with
    | app => rfl
    | leaf l =>
      cases l with
      | function => exact absurd rfl hfun
      | _ => rfl

/-- Where `ty` comes to a call without a function, the term is stuck
there. -/
theorem stuckAt_of_tyWithin (h : st.tyWithin d t = .error (.callHead g)) : st.StuckAt t g := by
  induction d generalizing t with
  | zero => cases h
  | succ d ih =>
    cases hn : st.node? t with
    | none =>
      rw [tyWithin, node, hn] at h
      cases h
    | some n =>
      cases n with
      | leaf l =>
        rw [tyWithin, node_of_node? hn] at h
        cases h
      | app op first rest =>
        cases hr : op.resultRule with
        | always B =>
          rw [tyWithin_app hn, hr] at h
          cases h
        | firstOperand =>
          rw [tyWithin_app hn, hr] at h
          exact .first hn hr (ih h)
        | headResult =>
          obtain rfl := Tree.resultRule_eq_headResult_iff.mp hr
          cases hc : st.node? first with
          | none =>
            rw [tyWithin_app hn, hr, node, hc] at h
            cases h
          | some head =>
            rcases headResult_cases (d := d) hn hc with ⟨-, A, hA⟩ | ⟨hother, herror⟩
            · cases hA.symm.trans h
            · cases herror.symm.trans h
              exact .call hn hc hother

/-- A term that is stuck has no type, and the call is to blame. -/
theorem StuckAt.ty_eq (h : st.StuckAt t g) (hT : st.Denotes t T) :
    st.ty t = .error (.callHead g) := by
  induction h generalizing T with
  | call node known other =>
    rcases headResult_cases (d := st.size) node known with ⟨hfun, -⟩ | ⟨-, herror⟩
    · exact absurd hfun other
    · exact herror
  | first node rule _ ih =>
    cases T with
    | leaf l => cases node.symm.trans (denotes_leaf_iff.mp hT)
    | app op' first rest =>
      obtain ⟨c', cs', hnode, hall⟩ := denotes_app_iff.mp hT
      cases node.symm.trans hnode
      have hfirst := (List.forall₂_cons.mp hall).1
      rw [ty_of_denotes hT, Tree.ty, rule]
      exact (ty_of_denotes hfirst).symm.trans (ih hfirst)

/-- The two ways to the type of a term agree. Asked with a guard, a term
gives its type where `ty` gives it; it gives the type error of a call, with
the tag of the head, where `ty` stops at a call for its head, which it does
exactly if the term is stuck there; and nothing else ever comes of it. It is
what the check derives. -/
theorem guardedTy_agrees (hT : st.Denotes t T) : st.guardedTy t = st.derive t ∧
    ∃ r : Except TypeError Ty, (st.guardedTy t).run = .ok r ∧
      (∀ A, r = .ok A ↔ st.ty t = .ok A) ∧
      (∀ g, (r = .error (.invalid (.operator .call) (.callHead g)) ↔
          st.ty t = .error (.callHead g)) ∧
        (st.ty t = .error (.callHead g) ↔ st.StuckAt t g)) ∧
      ((∃ A, r = .ok A) ∨ ∃ g, r = .error (.invalid (.operator .call) (.callHead g))) := by
  refine ⟨st.guardedTy_eq_derive t, ?_⟩
  have hstuck : ∀ g, st.ty t = .error (.callHead g) ↔ st.StuckAt t g := fun g =>
    ⟨stuckAt_of_tyWithin, fun h => h.ty_eq hT⟩
  rw [guardedTy_eq_derive]
  rcases derive_cases hT with ⟨A, hA, hr⟩ | ⟨g, hg, hr⟩
  · refine ⟨_, hr, fun B => ?_, fun g => ⟨?_, hstuck g⟩, .inl ⟨A, rfl⟩⟩
    · rw [hA, Except.ok.injEq, Except.ok.injEq]
    · rw [hA]
      exact ⟨nofun, nofun⟩
  · refine ⟨_, hr, fun B => ?_, fun g' => ⟨?_, hstuck g'⟩, .inr ⟨g, rfl⟩⟩
    · rw [hg]
      exact ⟨nofun, nofun⟩
    · rw [hg]
      simp

/-- A store with the real variable `x`, its call as a function `x(x)`, and
the terms `-x(x)`, `x < -x(x)` and `¬ x < -x(x)`, in this order. -/
def stuckSample : TermStore :=
  .ofNodes
    [.leaf (.var 0 .real), .app .call ⟨0⟩ [⟨0⟩], .app .negate ⟨1⟩ [], .app .less ⟨0⟩ [⟨2⟩],
      .app .not ⟨3⟩ []]
    (by decide) 1

theorem denotes_stuckSample : stuckSample.Denotes ⟨2⟩
    (.app .negate (.app .call (.leaf (.var 0 .real)) [.leaf (.var 0 .real)]) []) :=
  ⟨_, _, rfl, ⟨_, _, rfl, rfl, _, _, rfl, rfl, rfl⟩, rfl⟩

/-- The type of `-x(x)` is that of `x(x)`, which has none. -/
theorem guardedTy_agrees_stuckSample :
    ((∃ T, stuckSample.Denotes ⟨2⟩ T) ∧ stuckSample.StuckAt ⟨2⟩ (.leaf .var)) ∧
    stuckSample.guardedTy ⟨2⟩ = stuckSample.derive ⟨2⟩ ∧
    stuckSample.ty ⟨2⟩ = .error (.callHead (.leaf .var)) ∧
    (stuckSample.guardedTy ⟨2⟩).run =
      .ok (.error (.invalid (.operator .call) (.callHead (.leaf .var)))) := by
  have hhead : stuckSample.node? ⟨0⟩ = some (.leaf (.var 0 .real)) := rfl
  have hstuck : stuckSample.StuckAt ⟨2⟩ (.leaf .var) :=
    .first (c := ⟨1⟩) rfl rfl (.call rfl hhead nofun)
  obtain ⟨heq, r, hr, -, herror, -⟩ := guardedTy_agrees denotes_stuckSample
  have hty := (herror _).2.mpr hstuck
  exact ⟨⟨⟨_, denotes_stuckSample⟩, hstuck⟩, heq, hty, hr.trans (congrArg _ ((herror _).1.mpr hty))⟩

/-- The term `¬ x < -x(x)` is a formula, whatever stands in it. -/
example : (stuckSample.guardedTy ⟨4⟩).run = .ok (.ok .bool) := rfl

end TermStore

end TypedTerms
