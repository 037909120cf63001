import Mathlib.Order.WellFounded
import TypedTerms.Solve.Match
import TypedTerms.Proofs.Bindings

/-!
# Runs over a list of equations

A rule looks at one equation, and `Rule.solve` runs it over a list until
none is left. What every application of the rule keeps holds when the run
answers bindings (`invariant_of_solve`), and right before the rule finds
that an equation cannot hold (`invariant_of_solve_none`). A run comes to
its end when every application leaves something smaller (`solve_ends`).
-/

namespace TypedTerms.Rule

variable {rule : Rule} {s m : Subst} {pending : List Equation} {n : Nat}

/-- A run applies the rule to the first equation and goes on with the
equations that it answers, in front of the rest. -/
theorem solve_cons {a b : TermId} {rest : List Equation} :
    rule.solve (n + 1) s ((a, b) :: rest) =
      match rule s a b with
      | .error v => .error v
      | .ok none => .ok none
      | .ok (some (s', new)) => rule.solve n s' (new ++ rest) := by
  rw [solve]
  rcases rule s a b with _ | _ | ⟨s', new⟩ <;> rfl

section Invariant

variable {I : Subst → List Equation → Prop}
  (step : ∀ {s a b rest s' new}, I s ((a, b) :: rest) → rule s a b = .ok (some (s', new)) →
    I s' (new ++ rest))

include step

/-- What the rule keeps holds of the answer. -/
theorem invariant_of_solve (h : I s pending) (hm : rule.solve n s pending = .ok (some m)) :
    I m [] := by
  induction n generalizing s pending with
  | zero =>
    cases pending with
    | nil =>
      cases hm
      exact h
    | cons => cases hm
  | succ n ih =>
    cases pending with
    | nil =>
      cases hm
      exact h
    | cons e rest =>
      obtain ⟨a, b⟩ := e
      rw [solve_cons] at hm
      cases hr : rule s a b with
      | error v => rw [hr] at hm; cases hm
      | ok r =>
        rw [hr] at hm
        cases r with
        | none => cases hm
        | some new => exact ih (step h hr) hm

/-- A run answers nothing because of an equation that the rule refuses,
in a state that the rule has led to. -/
theorem invariant_of_solve_none (h : I s pending) (hm : rule.solve n s pending = .ok none) :
    ∃ s' a b rest, I s' ((a, b) :: rest) ∧ rule s' a b = .ok none := by
  induction n generalizing s pending with
  | zero => cases pending <;> cases hm
  | succ n ih =>
    cases pending with
    | nil => cases hm
    | cons e rest =>
      obtain ⟨a, b⟩ := e
      rw [solve_cons] at hm
      cases hr : rule s a b with
      | error v => rw [hr] at hm; cases hm
      | ok r =>
        rw [hr] at hm
        cases r with
        | none => exact ⟨s, a, b, rest, h, hr⟩
        | some new => exact ih (step h hr) hm

end Invariant

/-- A run ends when every application of the rule answers and leaves
something smaller. There is a number of steps from which on the answer
is the same, and with fewer steps there is no answer. -/
theorem solve_ends {κ : Type} [LT κ] [WellFoundedLT κ] {I : κ → Subst → List Equation → Prop}
    (step : ∀ {k s a b rest}, I k s ((a, b) :: rest) →
      ∃ r, rule s a b = .ok r ∧ ∀ s' new, r = some (s', new) → ∃ j < k, I j s' (new ++ rest))
    {k : κ} (h : I k s pending) :
    ∃ N r, (∀ n ≥ N, rule.solve n s pending = .ok r) ∧
      ∀ n < N, rule.solve n s pending = .error .endless := by
  -- the number of steps is what is looked for, so the induction is on the measure
  induction k using WellFoundedLT.induction generalizing s pending with
  | _ k ih =>
    cases pending with
    | nil =>
      refine ⟨0, some s, ?_, ?_⟩
      · intro n _
        cases n <;> rfl
      · intro n hn
        exact absurd hn (Nat.not_lt_zero n)
    | cons e rest =>
      obtain ⟨a, b⟩ := e
      obtain ⟨r, hr, hnext⟩ := step h
      cases r with
      | none =>
        refine ⟨1, none, ?_, ?_⟩
        · intro n hn
          obtain ⟨n, rfl⟩ := Nat.exists_eq_add_of_le' hn
          rw [solve_cons, hr]
        · intro n hn
          rw [Nat.lt_one_iff.mp hn]
          rfl
      | some p =>
        obtain ⟨s', new⟩ := p
        obtain ⟨j, hj, hI⟩ := hnext s' new rfl
        obtain ⟨N, r, hok, hshort⟩ := ih j hj hI
        refine ⟨N + 1, r, ?_, ?_⟩
        · intro n hn
          obtain ⟨n, rfl⟩ := Nat.exists_eq_add_of_le' (Nat.le_of_add_left_le hn)
          rw [solve_cons, hr]
          exact hok n (Nat.le_of_succ_le_succ hn)
        · intro n hn
          cases n with
          | zero => rfl
          | succ n =>
            rw [solve_cons, hr]
            exact hshort n (Nat.lt_of_succ_lt_succ hn)

end TypedTerms.Rule

/-!
## What the rules ask about known terms

Whether two terms have one type, whether a term is a variable, and what
taking an equation apart leaves of it, for terms that the store knows.
The questions are answered then, and `Decomposes` says all that the last
answer rests on.
-/

namespace TypedTerms.TermStore

variable {st : TermStore} {a b : TermId}

/-- Both rules begin with the cases of one term on both sides and of terms
of different types. What the rule answers from there on may be taken to
be between different terms of one type. -/
theorem guarded_spec {s : Subst} {inner : Except Violation (Option (Subst × List Equation))}
    {P : Option (Subst × List Equation) → Prop} (ha : st.WellFormed a) (hb : st.WellFormed b)
    (same : a = b → P (some (s, []))) (types : st.ty a ≠ st.ty b → P none)
    (spec : a ≠ b → st.ty a = st.ty b → ∃ r, inner = .ok r ∧ P r) :
    ∃ r, (do
      if a = b then return some (s, [])
      let ty ← st.ty a
      if ty ≠ (← st.ty b) then return none
      inner) = .ok r ∧ P r := by
  by_cases h : a = b
  · exact ⟨_, if_pos h, same h⟩
  rw [if_neg h]
  obtain ⟨A, hA⟩ := ha.exists_ty
  obtain ⟨B, hB⟩ := hb.exists_ty
  by_cases hty : st.ty a = st.ty b
  · obtain ⟨r, hr, hP⟩ := spec h hty
    refine ⟨r, ?_, hP⟩
    rw [hty, hB]
    simpa [bind, Except.bind] using hr
  · refine ⟨none, ?_, types hty⟩
    rw [hA, hB] at hty ⊢
    exact if_pos fun hAB => hty (congrArg _ hAB)

/-- The question whether a known term is a variable is answered truly. -/
theorem isVar_spec {n : Node} (h : st.node? a = some n) :
    ∃ v, st.isVar a = .ok v ∧ (v = true ↔ st.IsVariable a) := by
  have hvar : ∀ l, n = .leaf l → (l.isVar = true ↔ st.IsVariable a) := by
    rintro l rfl
    refine ⟨fun hl => ⟨l, h, hl⟩, ?_⟩
    rintro ⟨k, hk, hkv⟩
    rw [h] at hk
    cases hk
    exact hkv
  rw [isVar, ofLeaf, node_of_node? h]
  cases n with
  | leaf l => exact ⟨l.isVar, rfl, hvar l rfl⟩
  | app op c cs =>
    refine ⟨false, rfl, iff_of_false Bool.false_ne_true ?_⟩
    rintro ⟨k, hk, -⟩
    rw [h] at hk
    cases hk

/-- What becomes of an equation that is taken apart. -/
inductive Decomposes (st : TermStore) (a b : TermId) : Option (List Equation) → Prop where
  | split {op : Operator} {c d : TermId} {cs ds : List TermId}
    (ha : st.node? a = some (.app op c cs)) (hb : st.node? b = some (.app op d ds))
    (hlen : cs.length = ds.length) : Decomposes st a b (some ((c, d) :: cs.zip ds))
  | mismatch {m n : Node} (ha : st.node? a = some m) (hb : st.node? b = some n)
    (hne : ¬ (m.tag = n.tag ∧ m.children ≠ [] ∧ m.children.length = n.children.length)) :
    Decomposes st a b none

/-- Taking an equation between known terms apart answers, with one of the
cases of `Decomposes`. -/
theorem decompose_spec {m n : Node} (ha : st.node? a = some m) (hb : st.node? b = some n) :
    ∃ r, st.decompose a b = .ok r ∧ st.Decomposes a b r := by
  rw [decompose, node_of_node? ha, node_of_node? hb]
  by_cases heq : m.tag = n.tag ∧ m.children ≠ [] ∧ m.children.length = n.children.length
  · refine ⟨some (m.children.zip n.children), if_pos heq, ?_⟩
    obtain ⟨htag, hne, hlen⟩ := heq
    cases m with
    | leaf l => exact absurd rfl hne
    | app op c cs =>
      cases n with
      | leaf l => cases htag
      | app op' d ds =>
        cases htag
        exact .split ha hb (Nat.succ.inj hlen)
  · exact ⟨none, if_neg heq, .mismatch ha hb heq⟩

/-- The equations between the children are between children. -/
theorem isChild_of_mem_zip {op op' : Operator} {c d : TermId} {cs ds : List TermId} {e : Equation}
    (ha : st.node? a = some (.app op c cs)) (hb : st.node? b = some (.app op' d ds))
    (he : e ∈ (c, d) :: cs.zip ds) : st.IsChild e.1 a ∧ st.IsChild e.2 b := by
  have hmem : e ∈ (c :: cs).zip (d :: ds) := he
  have ⟨hc, hd⟩ := List.of_mem_zip hmem
  exact ⟨⟨_, ha, hc⟩, ⟨_, hb, hd⟩⟩

/-- Every child on the left is in one of the equations between the
children. -/
theorem exists_mem_zip {c d x : TermId} {cs ds : List TermId} (hlen : cs.length = ds.length)
    (hx : x ∈ c :: cs) : ∃ e ∈ (c, d) :: cs.zip ds, e.1 = x := by
  have hlen' : (c :: cs).length ≤ (d :: ds).length := (congrArg Nat.succ hlen).le
  have hmem : x ∈ ((c :: cs).zip (d :: ds)).map Prod.fst := by
    rwa [List.map_fst_zip hlen']
  exact List.mem_map.mp hmem

end TypedTerms.TermStore

/-!
## The weight of equations

A weight of leaves gives every term the weight of the tree that it stands
for, and a list of equations the weight of all its sides. An equation
between compound terms weighs more than the equations between their
children do together (`load_children_lt`), so taking terms apart comes to
an end.
-/

namespace TypedTerms.TermStore

variable {st : TermStore} {a b t : TermId} {T : Tree} {new rest : List Equation} {ω : Leaf → Nat}

open Classical in
/-- The weight of the tree that a term stands for. -/
noncomputable def weight (st : TermStore) (ω : Leaf → Nat) (t : TermId) : Nat :=
  if h : ∃ T, st.Denotes t T then h.choose.weight ω else 0

/-- The weight of a term is that of the tree that it stands for. -/
theorem weight_of_denotes (h : st.Denotes t T) : st.weight ω t = T.weight ω := by
  have hT : ∃ T, st.Denotes t T := ⟨T, h⟩
  rw [weight, dif_pos hT, denotes_unique hT.choose_spec h]

theorem weight_pos (hω : ∀ l, 0 < ω l) (h : st.Denotes t T) : 0 < st.weight ω t := by
  rw [weight_of_denotes h]
  cases T with
  | leaf l => exact hω l
  | app op first rest => exact Tree.weight_app ω op first rest ▸ Nat.succ_pos _

theorem map_weight_of_denotes {ts : List TermId} {Ts : List Tree}
    (h : List.Forall₂ st.Denotes ts Ts) : ts.map (st.weight ω) = Ts.map (Tree.weight ω) := by
  induction h with
  | nil => rfl
  | cons hT _ ih => rw [List.map_cons, List.map_cons, weight_of_denotes hT, ih]

/-- The children of a term weigh less than the term, taken together. -/
theorem sum_weight_lt {op : Operator} {c : TermId} {cs : List TermId} (h : st.WellFormed t)
    (hnode : st.node? t = some (.app op c cs)) :
    ((c :: cs).map (st.weight ω)).sum < st.weight ω t := by
  obtain ⟨T, hT, -⟩ := h
  cases T with
  | leaf l =>
    rw [denotes_leaf_iff, hnode] at hT
    cases hT
  | app op' first rest =>
    obtain ⟨d, ds, hd, hall⟩ := denotes_app_iff.mp hT
    rw [hnode] at hd
    cases hd
    rw [weight_of_denotes hT, Tree.weight_app, map_weight_of_denotes hall, List.map_cons,
      List.sum_cons]
    exact Nat.lt_succ_self _

/-- The weight of a list of equations. -/
noncomputable def load (st : TermStore) (ω : Leaf → Nat) (pending : List Equation) : Nat :=
  (pending.map fun e => st.weight ω e.1 + st.weight ω e.2).sum

theorem load_append : st.load ω (new ++ rest) = st.load ω new + st.load ω rest := by
  rw [load, List.map_append, List.sum_append, load, load]

/-- Equations between children place by place weigh no more than all
children together. -/
theorem load_zip_le (cs ds : List TermId) :
    st.load ω (cs.zip ds) ≤ (cs.map (st.weight ω)).sum + (ds.map (st.weight ω)).sum := by
  induction cs generalizing ds with
  | nil => exact Nat.zero_le _
  | cons c cs ih =>
    cases ds with
    | nil => exact Nat.zero_le _
    | cons d ds =>
      have hrest := ih ds
      simp only [load] at hrest
      simp only [load, List.zip_cons_cons, List.map_cons, List.sum_cons]
      omega

/-- The equations between the children of two terms weigh less than the
equation between the terms. -/
theorem load_children_lt {op op' : Operator} {c d : TermId} {cs ds : List TermId}
    (ha : st.WellFormed a) (hb : st.WellFormed b) (hna : st.node? a = some (.app op c cs))
    (hnb : st.node? b = some (.app op' d ds)) :
    st.load ω ((c, d) :: cs.zip ds) < st.weight ω a + st.weight ω b :=
  calc st.load ω ((c, d) :: cs.zip ds)
      ≤ ((c :: cs).map (st.weight ω)).sum + ((d :: ds).map (st.weight ω)).sum :=
        load_zip_le (c :: cs) (d :: ds)
    _ < st.weight ω a + st.weight ω b :=
        Nat.add_lt_add (sum_weight_lt ha hna) (sum_weight_lt hb hnb)

end TypedTerms.TermStore
