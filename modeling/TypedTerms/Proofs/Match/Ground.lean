import TypedTerms.Proofs.Match.Sound
import TypedTerms.Proofs.Unify.Correct

/-!
# Matching and unifying ground targets

Matching and unification take an equation apart in the same way. They
part where a variable has a value: matching compares the value with the
target, and unification goes on to unify the two. They part as well in
what they look at before a variable is bound, as unification treats both
sides alike and checks that the variable does not occur.

Where the target is ground none of this shows. The other side is no
variable, nothing occurs in it, and so every value that matching binds is
ground. And two ground terms are one term or are not unified, so that
going on with them comes to comparing them. Hence both runs answer the
same (`matchTerms_eq_unify`), although unification takes more steps.
-/

namespace TypedTerms

/-- With steps enough a run answers so, however many more it is given. -/
def Rule.ComesTo (rule : Rule) (s : Subst) (pending : List Equation) (r : Option Subst) : Prop :=
  ∃ N, ∀ n ≥ N, rule.solve n s pending = .ok r

namespace Rule

variable {rule : Rule} {s s' : Subst} {a b : TermId} {new rest : List Equation} {r : Option Subst}

theorem comesTo_nil : rule.ComesTo s [] (some s) :=
  ⟨0, fun n _ => by cases n <;> rfl⟩

theorem comesTo_none (hr : rule s a b = .ok none) : rule.ComesTo s ((a, b) :: rest) none := by
  refine ⟨1, fun n hn => ?_⟩
  obtain ⟨n, rfl⟩ := Nat.exists_eq_add_of_le' hn
  rw [solve_cons, hr]

/-- A run comes to what the run over the equations that its first step
leaves comes to. -/
theorem ComesTo.cons (h : rule.ComesTo s' (new ++ rest) r)
    (hr : rule s a b = .ok (some (s', new))) : rule.ComesTo s ((a, b) :: rest) r := by
  obtain ⟨N, hN⟩ := h
  refine ⟨N + 1, fun n hn => ?_⟩
  obtain ⟨n, rfl⟩ := Nat.exists_eq_add_of_le' (Nat.le_of_add_left_le hn)
  rw [solve_cons, hr]
  exact hN n (Nat.le_of_succ_le_succ hn)

end Rule

namespace TermStore

variable {st : TermStore} {s s' : Subst} {a b p t u v x : TermId}
  {pending new rest : List Equation} {T : Tree}

/-- No variable stands in the term. -/
def Ground (st : TermStore) (t : TermId) : Prop := ∀ x, st.IsVariable x → ¬ st.Subterm x t

theorem Ground.not_isVariable (h : st.Ground t) : ¬ st.IsVariable t := fun hvar => h t hvar .refl

theorem Ground.child (h : st.Ground t) (hc : st.IsChild u t) : st.Ground u :=
  fun x hvar hx => h x hvar (hx.of_child hc)

/-- A term is ground when no leaf of its tree is a variable. -/
theorem ground_iff (hT : st.Denotes t T) : st.Ground t ↔ ∀ l ∈ T.leaves, l.isVar = false := by
  constructor
  · intro h l hl
    obtain ⟨x, hx, hsub⟩ := hT.exists_leaf hl
    exact Bool.eq_false_iff.mpr fun hvar => h x ⟨l, hx, hvar⟩ hsub
  · rintro h x ⟨l, hx, hvar⟩ hsub
    exact absurd hvar (Bool.eq_false_iff.mp (h l (hT.mem_leaves hx hsub)))

/-- What is met in a ground term stands in it, as there is no binding to
follow. -/
theorem Ground.subterm_of_reaches (h : st.Ground t) (hx : st.Reaches s t x) : st.Subterm x t := by
  induction hx with
  | refl => exact .refl
  | tail _ hstep ih =>
    cases hstep with
    | child hc => exact ih.tail hc
    | value hx hl _ => exact absurd ih (h _ ⟨_, hx, hl⟩)

/-- From a ground term no variable is reached, whatever the bindings, since
only variables are bound to anything. -/
theorem Ground.not_reaches (h : st.Ground t) (hvar : st.IsVariable x) : ¬ st.Reaches s t x :=
  fun hx => h x hvar (h.subterm_of_reaches hx)

/-- A map that moves variables only makes of a ground term the term
itself. -/
theorem Ground.eq_of_holds (ha : st.Ground a) (hb : st.Ground b) {θ : Leaf → Tree}
    (fixed : ∀ l, l.isVar = false → θ l = .leaf l) (h : st.Holds θ (a, b)) : a = b := by
  obtain ⟨W, ⟨A, hA, hAW⟩, ⟨B, hB, hBW⟩⟩ := h
  have hself : ∀ {t T}, st.Denotes t T → st.Ground t → T.subst θ = T :=
    fun hT ht => Tree.subst_eq_self fun l hl => fixed l ((ground_iff hT).mp ht l hl)
  rw [hself hA ha] at hAW
  rw [hself hB hb, ← hAW] at hBW
  exact denotes_inj (hBW ▸ hA) hB

/-- Unification refuses an equation between two ground terms. -/
theorem Unifying.comesTo_none (h : st.Unifying s ((a, b) :: rest)) (ha : st.Ground a)
    (hb : st.Ground b) (hne : a ≠ b) : st.unifyRule.ComesTo s ((a, b) :: rest) none := by
  obtain ⟨N, r, hN, -⟩ := h.ends
  cases r with
  | none => exact ⟨N, hN⟩
  | some m =>
    obtain ⟨hadm, hiff⟩ := h.respects_iff (hN N le_rfl)
    obtain ⟨σ, hσ⟩ := hadm.acyclic.exists_resolves
    obtain ⟨-, hall⟩ := (hiff σ).mp hσ.respects
    exact absurd (ha.eq_of_holds hb (fun _ => hσ.fixed hadm) (hall _ List.mem_cons_self)) hne

/-- A state of matching ground targets that unification may be in. -/
structure Grounded (st : TermStore) (s : Subst) (pending : List Equation) : Prop where
  unifying : st.Unifying s pending
  values : ∀ ⦃x v⦄, s.get? x = some v → st.Ground v
  targets : ∀ e ∈ pending, st.Ground e.2

/-- A step of matching keeps targets ground, binds to ground terms only, and
leaves a state that unification may be in. -/
theorem Grounded.step (h : st.Grounded s ((a, b) :: rest))
    (hr : st.matchRule s a b = .ok (some (s', new))) : st.Grounded s' (new ++ rest) := by
  obtain ⟨⟨hs, hwf⟩, hvalues, htargets⟩ := h
  have hall : st.AllWellFormed ((a, b) :: rest) := hwf
  have hstep := hall.matchStep hr
  obtain ⟨⟨-, hb⟩, -⟩ := List.forall_mem_cons.mp hwf
  obtain ⟨ground, hrest⟩ := List.forall_mem_cons.mp htargets
  have hnew : ∀ e ∈ new, True ∧ st.Ground e.2 :=
    hstep.parts (P := fun _ => True) (fun _ _ => trivial) Ground.child trivial ground
  have hsides := List.forall_mem_append.mpr ⟨fun e he => (hnew e he).2, hrest⟩
  rcases hstep.chain with rfl | ⟨rfl, hvar, -, -⟩
  · exact ⟨⟨hs, hstep.allWellFormed hall⟩, hvalues, hsides⟩
  · refine ⟨⟨?_, hstep.allWellFormed hall⟩, Subst.forall_get?_bind ground hvalues, hsides⟩
    exact hs.bind hvar hb (ground.not_reaches hvar)

/-- A ground target has no binding. -/
theorem Grounded.get?_target (h : st.Grounded s ((a, b) :: rest)) : s.get? b = none := by
  cases hv : s.get? b with
  | none => rfl
  | some v =>
    have hvar := h.unifying.admissible.key_var hv
    exact absurd hvar (h.targets _ List.mem_cons_self).not_isVariable

/-- The occurs check finds nothing in a ground target, so it never stops
unification where matching goes on. -/
theorem Grounded.occurs_target (h : st.Grounded s ((a, b) :: rest)) (hvar : st.IsVariable x) :
    st.occurs s x b = .ok false := by
  obtain ⟨⟨-, B, hB, -⟩, -⟩ := List.forall_mem_cons.mp h.unifying.wf
  obtain ⟨found, hfound, hiff⟩ := occurs_of_denotes h.unifying.admissible.resolvable hB x
  cases found with
  | false => exact hfound
  | true => exact absurd (hiff.mp rfl) ((h.targets _ List.mem_cons_self).not_reaches hvar)

/-- Both rules answer the same, or the pattern has a value, which matching
compares with the target and unification goes on with. -/
theorem Grounded.rules_agree (h : st.Grounded s ((a, b) :: rest)) :
    st.unifyRule s a b = st.matchRule s a b ∨
      ∃ v, s.get? a = some v ∧ st.unifyRule s a b = .ok (some (s, [(v, b)])) ∧
        st.matchRule s a b = .ok (if v = b then some (s, []) else none) := by
  obtain ⟨⟨ha, hb⟩, -⟩ := List.forall_mem_cons.mp h.unifying.wf
  have ground := h.targets _ List.mem_cons_self
  obtain ⟨A, hA⟩ := ha.exists_ty
  obtain ⟨B, hB⟩ := hb.exists_ty
  rw [unifyRule, matchRule]
  by_cases hab : a = b
  · left
    rw [if_pos hab, if_pos hab]
  rw [if_neg hab, if_neg hab, hA, hB]
  simp only [bind, Except.bind]
  by_cases hAB : A ≠ B
  · left
    rw [if_pos hAB, if_pos hAB]
  rw [if_neg hAB, if_neg hAB]
  obtain ⟨m, hm⟩ := ha.known
  obtain ⟨n, hn⟩ := hb.known
  obtain ⟨va, hva, hva_iff⟩ := isVar_spec hm
  obtain ⟨vb, hvb, hvb_iff⟩ := isVar_spec hn
  -- the rules part only where a side is a variable, and the target is none
  have hright : ¬ vb = true := fun hvar => ground.not_isVariable (hvb_iff.mp hvar)
  rw [hva, hvb]
  simp only [if_neg hright]
  by_cases hleft : va = true
  · rw [if_pos hleft, solveVar]
    have hvar := hva_iff.mp hleft
    cases hv : s.get? a with
    | some v => exact .inr ⟨v, rfl, rfl, by simp only [pure, Except.pure, if_pos hleft]⟩
    | none =>
      left
      rw [h.get?_target, h.occurs_target hvar, if_pos hleft]
      rfl
  · left
    rw [if_neg hleft, if_neg hleft]

/-- The value of a pattern may take its place. -/
theorem Grounded.follow (h : st.Grounded s ((a, b) :: rest)) (hv : s.get? a = some v) :
    st.Unifying s ((v, b) :: rest) := by
  obtain ⟨hs, hwf⟩ := h.unifying
  obtain ⟨⟨-, hb⟩, hrest⟩ := List.forall_mem_cons.mp hwf
  exact ⟨hs, List.forall_mem_cons.mpr ⟨⟨hs.value_wf hv, hb⟩, hrest⟩⟩

/-- What matching answers, unification answers, which may take more
steps. -/
theorem Grounded.comesTo {n : Nat} {r : Option Subst} (h : st.Grounded s pending)
    (hr : st.matchRule.solve n s pending = .ok r) : st.unifyRule.ComesTo s pending r := by
  -- by the steps of matching; how many unification takes is what is looked for
  induction n generalizing s pending with
  | zero =>
    cases pending with
    | nil =>
      cases hr
      exact Rule.comesTo_nil
    | cons => cases hr
  | succ n ih =>
    cases pending with
    | nil =>
      cases hr
      exact Rule.comesTo_nil
    | cons e rest =>
      obtain ⟨a, b⟩ := e
      rw [Rule.solve_cons] at hr
      rcases h.rules_agree with hsame | ⟨v, hv, hunify, hmatch⟩
      · cases hstep : st.matchRule s a b with
        | error w => rw [hstep] at hr; cases hr
        | ok next =>
          rw [hstep] at hr hsame
          cases next with
          | none =>
            cases hr
            exact Rule.comesTo_none hsame
          | some p => exact (ih (h.step hstep) hr).cons hsame
      · -- unification has the value against the target for its next equation
        refine Rule.ComesTo.cons ?_ hunify
        by_cases hvb : v = b
        · rw [if_pos hvb] at hmatch
          rw [hmatch] at hr
          exact (ih (h.step hmatch) hr).cons (if_pos hvb)
        · rw [hmatch, if_neg hvb] at hr
          cases hr
          exact (h.follow hv).comesTo_none (h.values hv) (h.targets _ List.mem_cons_self) hvb

/-- Matching and unification agree on ground targets. A well-formed
pattern is matched against a well-formed term without variables exactly
when the two are unified, and both answer the same chain of bindings. -/
theorem matchTerms_eq_unify (hp : st.WellFormed p) (ht : st.WellFormed t) (ground : st.Ground t) :
    ∃ N r, ∀ n ≥ N, st.matchTerms n p t = .ok r ∧ st.unify n p t = .ok r := by
  have hstart : st.Grounded .empty [(p, t)] :=
    ⟨unifying_singleton (admissible_empty st) hp ht, (fun _ _ hv => nomatch hv),
      List.forall_mem_singleton.mpr ground⟩
  obtain ⟨N, r, hN, -⟩ := matchRule_ends hstart.unifying.wf .empty
  obtain ⟨M, hM⟩ := hstart.comesTo (hN N le_rfl)
  refine ⟨max N M, r, fun n hn => ⟨?_, ?_⟩⟩
  · exact hN n (le_of_max_le_left hn)
  · exact hM n (le_of_max_le_right hn)

/-- The term `g(a)` is ground. -/
theorem ground_sample : sample.Ground ⟨7⟩ := by
  have hT : sample.Denotes ⟨7⟩ (sampleMap 0 .individual) :=
    ⟨_, _, rfl, rfl, _, _, rfl, rfl, rfl⟩
  exact (ground_iff hT).mpr (by decide)

/-- Matching `g(y)` against `g(a)` and unifying the two bind `y` to
`a`. -/
theorem matchTerms_eq_unify_sample :
    sample.Ground ⟨7⟩ ∧ sample.matchTerms 3 ⟨6⟩ ⟨7⟩ = .ok (some (Subst.empty.bind ⟨1⟩ ⟨3⟩)) ∧
      ∃ N r, ∀ n ≥ N, sample.matchTerms n ⟨6⟩ ⟨7⟩ = .ok r ∧ sample.unify n ⟨6⟩ ⟨7⟩ = .ok r :=
  ⟨ground_sample, rfl, matchTerms_eq_unify (by decide) (by decide) ground_sample⟩

end TermStore

end TypedTerms
