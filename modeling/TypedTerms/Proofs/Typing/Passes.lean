import TypedTerms.Proofs.Typing.Check

/-!
# What a passed check has seen

A check that passes has asked the store for every node of the term, and
has come to an end, so the term stands for a tree. Nothing has to be
known of the term beforehand: a passed check is well-typedness
(`check_eq_ok_iff`).
-/

namespace TypedTerms

namespace Check

variable {α β : Type} {x : Check α} {f : α → Check β}

/-- Checks that pass one after the other pass each. -/
theorem gives_of_bind {b : β} (h : (x >>= f).run = .ok (.ok b)) :
    ∃ a, x.run = .ok (.ok a) ∧ (f a).run = .ok (.ok b) := by
  match hx : x.run with
  | .ok (.ok a) => exact ⟨a, rfl, (run_bind_of_ok hx).symm.trans h⟩
  | .ok (.error e) => cases (run_bind_of_error hx).symm.trans h
  | .error v => cases (run_bind_of_violation hx).symm.trans h

theorem eq_ok_of_read {m : Except Violation α} {a : α}
    (h : (Check.read m).run = .ok (.ok a)) : m = .ok a := by
  cases m with
  | error v => cases h
  | ok b => cases h; rfl

/-- A check behind a condition that passes was run, and passed. -/
theorem gives_of_guard {c : Prop} [Decidable c] {e : TypeError} {a : α}
    (h : (if c then x else throw e).run = .ok (.ok a)) : x.run = .ok (.ok a) := by
  split at h
  · exact h
  · cases h

/-- A check behind an exception that passes was run, and passed. -/
theorem gives_of_unless {c : Prop} [Decidable c] {e : TypeError} {a : α}
    (h : (if c then throw e else x).run = .ok (.ok a)) : x.run = .ok (.ok a) := by
  split at h
  · cases h
  · exact h

/-- Many checks that pass pass each. -/
theorem passes_of_forM {check : α → Check Unit} {as : List α}
    (h : (as.forM check).run = .ok (.ok ())) : ∀ a ∈ as, (check a).run = .ok (.ok ()) := by
  induction as with
  | nil => exact fun _ ha => nomatch ha
  | cons a as ih =>
    obtain ⟨u, ha, has⟩ := gives_of_bind h
    exact List.forall_mem_cons.mpr ⟨ha, ih has⟩

end Check

open Check

namespace TermStore

variable {st : TermStore} {t c : TermId} {A : Ty} {d : Nat} {tag : Tag}

/-- Terms that each pass a check within a number of levels that is enough
to stand for a tree. -/
theorem exists_denotes_of_forM {ts : List TermId}
    (ih : ∀ {c A}, (st.checkWithin d c A).run = .ok (.ok ()) → ∃ C, st.Denotes c C)
    (h : (ts.forM (st.checkWithin d · A)).run = .ok (.ok ())) :
    ∀ c ∈ ts, ∃ C, st.Denotes c C := fun c hc => ih (passes_of_forM h c hc)

/-- Where the number of operands passes, it is the number expected. -/
theorem found_eq_of_checkArity {found expected : Nat}
    (h : (checkArity tag found expected).run = .ok (.ok ())) : found = expected := by
  unfold checkArity at h
  split at h
  · assumption
  · cases h

/-- The same of the arguments of a call. -/
theorem exists_denotes_of_zip {args : List TermId} {params : List Ty}
    (ih : ∀ {c A}, (st.checkWithin d c A).run = .ok (.ok ()) → ∃ C, st.Denotes c C)
    (hlen : args.length = params.length)
    (h : ((args.zip params).forM fun (arg, param) => st.checkWithin d arg param).run =
      .ok (.ok ())) : ∀ c ∈ args, ∃ C, st.Denotes c C := by
  intro c hc
  rw [← List.map_fst_zip hlen.le] at hc
  obtain ⟨p, hp, rfl⟩ := List.mem_map.mp hc
  exact ih (passes_of_forM h p hp)

/-- A passed check has seen every node of the term. -/
theorem exists_denotes_of_checkWithin {A : Ty} (h : (st.checkWithin d t A).run = .ok (.ok ())) :
    ∃ T, st.Denotes t T := by
  induction d generalizing t A with
  | zero => cases h
  | succ d ih =>
    obtain ⟨n, hn, h⟩ := gives_of_bind h
    have hnode := node_eq_ok_iff.mp (eq_ok_of_read hn)
    obtain ⟨B, -, h⟩ := gives_of_bind h
    cases n with
    | leaf l => exact ⟨.leaf l, denotes_leaf_iff.mpr hnode⟩
    | app op first rest =>
      -- whatever the rule, a check that passes has come to every child
      suffices hall : ∀ c ∈ first :: rest, ∃ C, st.Denotes c C by
        obtain ⟨Cs, hCs⟩ := exists_forall₂ hall
        cases hCs with
        | cons hC hCs => exact ⟨_, denotes_app_iff.mpr ⟨first, rest, hnode, .cons hC hCs⟩⟩
      replace h := gives_of_unless h
      simp only at h
      generalize op.operandRule = rule at h
      cases rule with
      | formulas count =>
        cases count with
        | none => exact exists_denotes_of_forM ih h
        | some count =>
          obtain ⟨-, -, h⟩ := gives_of_bind h
          exact exists_denotes_of_forM ih h
      | binding =>
        obtain ⟨_, hvars, hbody⟩ := gives_of_bind h
        refine List.forall_mem_cons.mpr ⟨ih hbody, fun v hv => ?_⟩
        obtain ⟨b, -, hvar⟩ := gives_of_bind (passes_of_forM hvars v hv)
        cases b with
        | false =>
          obtain ⟨_, -, herror⟩ := gives_of_bind hvar
          cases herror
        | true =>
          obtain ⟨C, -, hvar⟩ := gives_of_bind hvar
          exact ih hvar
      | comparable =>
        obtain ⟨-, -, h⟩ := gives_of_bind h
        obtain ⟨C, -, h⟩ := gives_of_bind h
        exact exists_denotes_of_forM ih (gives_of_unless h)
      | numeric count =>
        obtain ⟨-, -, h⟩ := gives_of_bind h
        obtain ⟨C, -, h⟩ := gives_of_bind h
        exact exists_denotes_of_forM ih (gives_of_guard h)
      | fractions =>
        obtain ⟨-, -, h⟩ := gives_of_bind h
        obtain ⟨C, -, h⟩ := gives_of_bind h
        exact exists_denotes_of_forM ih (gives_of_guard h)
      | arguments =>
        obtain ⟨head, hhead, h⟩ := gives_of_bind h
        have hfirst := node_eq_ok_iff.mp (eq_ok_of_read hhead)
        split at h
        · next id name result params =>
          obtain ⟨_, hlen, h⟩ := gives_of_bind h
          have hargs := exists_denotes_of_zip ih (found_eq_of_checkArity hlen) h
          exact List.forall_mem_cons.mpr ⟨⟨_, denotes_leaf_iff.mpr hfirst⟩, hargs⟩
        · cases h

/-- A check passes exactly on the terms that stand for a well-typed tree
of the expected type. -/
theorem check_eq_ok_iff : (st.check t A).run = .ok (.ok ()) ↔
    ∃ T, st.Denotes t T ∧ T.ty = .ok A ∧ T.WellTyped := by
  constructor
  · intro h
    obtain ⟨T, hT⟩ := exists_denotes_of_checkWithin h
    obtain ⟨r, hr, hiff⟩ := check_answers hT A
    cases h.symm.trans hr
    exact ⟨T, hT, (hiff ()).mp rfl⟩
  · rintro ⟨T, hT, hwt⟩
    obtain ⟨r, hr, hiff⟩ := check_answers hT A
    rw [hr, (hiff ()).mpr hwt]

end TermStore

end TypedTerms
