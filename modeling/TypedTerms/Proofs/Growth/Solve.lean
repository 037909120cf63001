import TypedTerms.Proofs.Growth.Walks
import TypedTerms.Proofs.Solve.Renamed
import TypedTerms.Proofs.Store.Run

/-!
# Solving equations in a store that has grown

The occurs check follows bindings as well as children, and bindings may
go in circles. What ends the walk then is its number of steps, of which a
larger store allows more. More steps make no difference, though: with
every step that is allowed more terms are answered for, or none ever will
be again (`eq_of_rounds`), so after as many steps as there are terms to
ask about, the walk has answered or never does.

All that the rules of matching and unification ask is therefore answered
the same in a store that has grown, and so is every run
(`unifyWith_eq_of_extends`, `matchWith_eq_of_extends`).
-/

namespace TypedTerms

section Rounds

variable {α β : Type} {K : Finset α} {f : Nat → α → β} {cut : β} {d e : Nat} {a : α}

/-- What has been answered within some number of levels is answered so
within every greater one. -/
theorem eq_of_answered (grows : ∀ d, ∀ a ∈ K, f d a = cut ∨ f (d + 1) a = f d a) (ha : a ∈ K)
    (h : f d a ≠ cut) (hde : d ≤ e) : f e a = f d a := by
  induction e, hde using Nat.le_induction with
  | base => rfl
  | succ e _ ih =>
    rcases grows e a ha with hcut | hsame
    · exact absurd (ih.symm.trans hcut) h
    · exact hsame.trans ih

open Classical in
/-- In rounds that keep what was answered before, and in which the answers
depend on those of the round before, no more members of a finite set are
answered for after as many rounds as it has members. -/
theorem eq_of_rounds (grows : ∀ d, ∀ a ∈ K, f d a = cut ∨ f (d + 1) a = f d a)
    (next : ∀ d, (∀ a ∈ K, f (d + 1) a = f d a) → ∀ a ∈ K, f (d + 2) a = f (d + 1) a)
    (hd : K.card ≤ d) (ha : a ∈ K) : f d a = f K.card a := by
  let answered (d : Nat) : Finset α := K.filter fun a => f d a ≠ cut
  have hsub : ∀ {d e}, d ≤ e → answered d ⊆ answered e := by
    intro d e hde a ha
    obtain ⟨hK, hne⟩ := Finset.mem_filter.mp ha
    exact Finset.mem_filter.mpr ⟨hK, eq_of_answered grows hK hne hde ▸ hne⟩
  -- a level that answers nothing new is followed by none that does
  have hstable : ∀ d, (answered d).card = (answered (d + 1)).card →
      (answered (d + 1)).card = (answered (d + 2)).card := by
    intro d hcard
    have heq : answered d = answered (d + 1) :=
      Finset.eq_of_subset_of_card_le (hsub (Nat.le_succ d)) hcard.ge
    have hsame : ∀ a ∈ K, f (d + 1) a = f d a := by
      intro a ha
      rcases grows d a ha with hcut | hsame
      · have hnot : a ∉ answered (d + 1) := by
          rw [← heq]
          exact fun h => (Finset.mem_filter.mp h).2 hcut
        by_contra hne
        exact hnot (Finset.mem_filter.mpr ⟨ha, fun h => hne (h.trans hcut.symm)⟩)
      · exact hsame
    have hfilter : answered (d + 2) = answered (d + 1) :=
      Finset.filter_congr fun a ha => by rw [next d hsame a ha]
    rw [hfilter]
  have hlast : (answered d).card = (answered K.card).card :=
    Nat.stabilises_of_monotone (fun _ _ h => Finset.card_le_card (hsub h))
      (fun _ => Finset.card_filter_le ..) hstable hd
  have heq : answered K.card = answered d :=
    Finset.eq_of_subset_of_card_le (hsub hd) hlast.le
  by_cases hcut : f K.card a = cut
  · by_contra hne
    have hmem : a ∈ answered K.card := by
      rw [heq]
      exact Finset.mem_filter.mpr ⟨ha, fun h => hne (h.trans hcut.symm)⟩
    exact (Finset.mem_filter.mp hmem).2 hcut
  · exact eq_of_answered grows ha hcut hd

end Rounds

/-! ## Steps -/

/-- The second answer is the first one, unless that was cut short. -/
def IsKept (r r' : Except Violation Bool) : Prop := r = .error .endless ∨ r' = r

/-- A search through answers that are kept comes to an answer that is kept.
-/
theorem isKept_anyM {f g : TermId → Except Violation Bool} {ts : List TermId}
    (h : ∀ t, IsKept (f t) (g t)) : IsKept (ts.anyM f) (ts.anyM g) := by
  induction ts with
  | nil => exact .inr rfl
  | cons t ts ih =>
    rw [List.anyM_cons, List.anyM_cons]
    rcases h t with ht | ht
    · rw [ht]
      exact .inl rfl
    · rw [ht]
      cases f t with
      | error e => exact .inr rfl
      | ok b =>
        cases b with
        | true => exact .inr rfl
        | false => exact ih

namespace TermStore

variable {st st' : TermStore} {s : Subst} {a b v t : TermId} {d d' n : Nat}

/-- With one step more the walk keeps its answer. -/
theorem isKept_occursWithin (st : TermStore) (s : Subst) (v : TermId) (d : Nat) (t : TermId) :
    IsKept (st.occursWithin s v d t) (st.occursWithin s v (d + 1) t) := by
  induction d generalizing t with
  | zero => exact .inl rfl
  | succ d ih =>
    rw [occursWithin, occursWithin]
    split
    · exact .inr rfl
    · cases st.node t with
      | error e => exact .inr rfl
      | ok n =>
        cases n with
        | app op first rest => exact isKept_anyM ih
        | leaf l =>
          simp only [bind, Except.bind]
          cases if l.isVar then s.get? t else none with
          | none => exact .inr rfl
          | some value => exact ih value

/-- Every binding is to a term that stands for a tree. -/
def KnowsValues (st : TermStore) (s : Subst) : Prop := ∀ ⦃x v⦄, s.get? x = some v → st.Unfolds v

/-- What the walk answers rests on what it answers one step later, of
children and of values. -/
theorem occursWithin_congr (hst : st.Extends st') (hs : st.KnowsValues s)
    (h : ∀ u, st.Unfolds u → st'.occursWithin s v d' u = st.occursWithin s v d u)
    (ht : st.Unfolds t) : st'.occursWithin s v (d' + 1) t = st.occursWithin s v (d + 1) t := by
  obtain ⟨n, hn⟩ := ht.exists_node
  rw [occursWithin, occursWithin, node_of_node? hn, node_of_node? (hst hn)]
  split
  · rfl
  · cases n with
    | app op first rest =>
      exact anyM_congr fun c hc => h c (ht.of_mem_children hn (List.mem_reverse.mp hc))
    | leaf l =>
      simp only [bind, Except.bind]
      cases hv : if l.isVar then s.get? t else none with
      | none => rfl
      | some value =>
        split at hv
        · exact h value (hs hv)
        · cases hv

/-- Within equally many levels the occurs check answers the same in a store
that has grown. -/
theorem occursWithin_eq_of_extends (hst : st.Extends st') (hs : st.KnowsValues s)
    (ht : st.Unfolds t) : st'.occursWithin s v d t = st.occursWithin s v d t := by
  induction d generalizing t with
  | zero => rfl
  | succ d ih => exact occursWithin_congr hst hs (fun _ => ih) ht

open Classical in
/-- Past the number of terms more steps make no difference to the occurs
check. -/
theorem occursWithin_eq_of_le (hs : st.KnowsValues s) (ht : st.Unfolds t) (hd : st.size ≤ d)
    (hd' : st.size ≤ d') : st.occursWithin s v d t = st.occursWithin s v d' t := by
  let terms : Finset TermId := st.known.filter st.Unfolds
  have hmem : ∀ {u}, u ∈ terms ↔ st.Unfolds u := by
    intro u
    refine ⟨fun h => (Finset.mem_filter.mp h).2, fun h => Finset.mem_filter.mpr ⟨?_, h⟩⟩
    obtain ⟨n, hn⟩ := h.exists_node
    exact mem_known hn
  have hcard : terms.card ≤ st.size := (Finset.card_filter_le ..).trans st.card_known_le
  have hsame : ∀ {d}, st.size ≤ d →
      st.occursWithin s v d t = st.occursWithin s v terms.card t := fun hd =>
    eq_of_rounds (f := st.occursWithin s v) (fun d u _ => st.isKept_occursWithin s v d u)
      (fun d h u hu => occursWithin_congr (extends_refl st) hs (fun u hu => h u (hmem.mpr hu))
        (hmem.mp hu)) (hcard.trans hd) (hmem.mpr ht)
  rw [hsame hd, hsame hd']

theorem size_le_of_extends (hst : st.Extends st') : st.size ≤ st'.size := by
  by_contra hlt
  obtain ⟨n, hn⟩ := (raw_lt_size_iff (t := ⟨st'.size⟩)).mp (Nat.lt_of_not_le hlt)
  exact absurd (raw_lt_size_iff.mpr ⟨n, hst hn⟩) (Nat.lt_irrefl _)

/-- The occurs check answers the same in a store that has grown, where it
may go deeper but need not. -/
theorem occurs_eq_of_extends (hst : st.Extends st') (hs : st.KnowsValues s) (ht : st.Unfolds t) :
    st'.occurs s v t = st.occurs s v t := by
  rw [occurs, occurs, occursWithin_eq_of_extends hst hs ht]
  exact occursWithin_eq_of_le hs ht ((size_le_of_extends hst).trans (Nat.le_succ _))
    (Nat.le_succ _)

/-! ## Rules and runs -/

/-- A term that stands for a tree, related to itself. -/
def SameUnfolding (st : TermStore) (a b : TermId) : Prop := a = b ∧ st.Unfolds a

/-- The rules stay among terms that stand for trees. -/
theorem mirrors_sameUnfolding (st : TermStore) : st.Mirrors st.SameUnfolding where
  eq_iff := by
    rintro a _ b _ ⟨rfl, -⟩ ⟨rfl, -⟩
    exact Iff.rfl
  ty_eq := by
    rintro a _ ⟨rfl, -⟩
    rfl
  nodes := by
    rintro a _ ⟨rfl, ha⟩
    obtain ⟨n, hn⟩ := ha.exists_node
    refine ⟨n, n, hn, hn, ?_⟩
    cases n with
    | leaf l => exact .leaf rfl
    | app op first rest =>
      exact .app (List.forall₂_same.mpr fun c hc => ⟨rfl, ha.of_mem_children hn hc⟩)

/-- A chain is related to itself when all its terms stand for trees. -/
theorem related_iff : ChainsRelated st.SameUnfolding s s ↔ st.KnowsChain s := by
  refine List.forall₂_same.trans ⟨fun h b hb => ?_, fun h b hb => ?_⟩
  · exact ⟨(h b hb).1.2, (h b hb).2.2⟩
  · exact ⟨⟨rfl, (h b hb).1⟩, rfl, (h b hb).2⟩

theorem KnowsChain.knowsValues (hs : st.KnowsChain s) : st.KnowsValues s := fun _ _ hv =>
  (hs _ (Subst.mem_of_get? hv)).2

end TermStore

/-- Runs of two rules that do the same, as long as one of them stays among
related terms, are the same. -/
theorem Rule.MirroredBy.solve_congr {rule rule' : Rule} {R : TermId → TermId → Prop}
    (h : rule.MirroredBy R)
    (same : ∀ {s a b}, ChainsRelated R s s → R a a → R b b → rule' s a b = rule s a b)
    {s : Subst} {pending : List Equation} (hs : ChainsRelated R s s)
    (hpending : List.Forall₂ (PairsRelated R) pending pending) (n : Nat) :
    rule'.solve n s pending = rule.solve n s pending := by
  induction n generalizing s pending with
  | zero => cases hpending <;> rfl
  | succ n ih =>
    cases hpending with
    | nil => rfl
    | @cons e _ rest _ he hrest =>
      have hstep := h hs he.1 he.2
      rw [Rule.solve, Rule.solve, same hs he.1 he.2]
      cases hr : rule s e.1 e.2 with
      | error v => rfl
      | ok r =>
        rw [hr] at hstep
        cases r with
        | none => rfl
        | some p =>
          cases hstep with
          | some hp => exact ih hp.1 (List.rel_append hp.2 hrest)

namespace TermStore

variable {st st' : TermStore} {s : Subst} {a b v t : TermId} {d d' n : Nat}

theorem decompose_eq_of_extends (hst : st.Extends st') (ha : st.Unfolds a) (hb : st.Unfolds b) :
    st'.decompose a b = st.decompose a b := by
  rw [decompose, decompose, node_eq_of_extends hst ha, node_eq_of_extends hst hb]

/-- An equation at a variable is solved the same in a store that has grown.
-/
theorem solveVar_eq_of_extends (hst : st.Extends st') (hs : st.KnowsValues s)
    (hb : st.Unfolds b) : st'.solveVar s a b = st.solveVar s a b := by
  rw [solveVar, solveVar, occurs_eq_of_extends hst hs hb]

/-- The rule of unification answers the same in a store that has grown. -/
theorem unifyRule_eq_of_extends (hst : st.Extends st') (hs : st.KnowsValues s)
    (ha : st.Unfolds a) (hb : st.Unfolds b) : st'.unifyRule s a b = st.unifyRule s a b := by
  rw [unifyRule, unifyRule, ty_eq_of_extends hst ha, ty_eq_of_extends hst hb,
    isVar_eq_of_extends hst ha, isVar_eq_of_extends hst hb, solveVar_eq_of_extends hst hs ha,
    solveVar_eq_of_extends hst hs hb, decompose_eq_of_extends hst ha hb]

theorem matchRule_eq_of_extends (hst : st.Extends st') (ha : st.Unfolds a) (hb : st.Unfolds b) :
    st'.matchRule s a b = st.matchRule s a b := by
  rw [matchRule, matchRule, ty_eq_of_extends hst ha, ty_eq_of_extends hst hb,
    isVar_eq_of_extends hst ha, decompose_eq_of_extends hst ha hb]

/-- Unification answers the same in a store that has grown, in as many
steps, whether the bindings go in circles or not. -/
theorem unifyWith_eq_of_extends (hst : st.Extends st') (hs : st.KnowsChain s) (ha : st.Unfolds a)
    (hb : st.Unfolds b) (n : Nat) : st'.unifyWith n s a b = st.unifyWith n s a b := by
  refine st.mirrors_sameUnfolding.unifyRule.solve_congr ?_ (related_iff.mpr hs)
    (.cons ⟨⟨rfl, ha⟩, rfl, hb⟩ .nil) n
  intro s a b hs ha hb
  exact unifyRule_eq_of_extends hst (related_iff.mp hs).knowsValues ha.2 hb.2

/-- Matching answers the same in a store that has grown. -/
theorem matchWith_eq_of_extends (hst : st.Extends st') (hs : st.KnowsChain s) (ha : st.Unfolds a)
    (hb : st.Unfolds b) (n : Nat) : st'.matchWith n s a b = st.matchWith n s a b := by
  refine st.mirrors_sameUnfolding.matchRule.solve_congr ?_ (related_iff.mpr hs)
    (.cons ⟨⟨rfl, ha⟩, rfl, hb⟩ .nil) n
  intro s a b hs ha hb
  exact matchRule_eq_of_extends hst ha.2 hb.2

end TermStore

end TypedTerms
