import TypedTerms.Proofs.Growth.Walks

/-!
# Where variables are free

A variable is free at a position of a term when it stands there and no
quantifier on the way lists it (`FreeAt`). The free variables of a term
are those that are free at some position, and so are what the recursion
over terms says (`freeVariables_recursion`, `FreeVariableRecursion.eq`).

The free occurrences in a term are listed from left to right
(`freeWithin`): each position comes before the later ones, where of two
positions the one is before the other that turns left first.
-/

namespace TypedTerms

/-- Does the operator bind the variables that it lists? -/
def Operator.isQuantifier : Operator → Bool
  | .universal | .existential => true
  | _ => false

namespace TermStore

variable {st : TermStore} {t u v c first body : TermId} {rest vars bound : List TermId} {n : Node}
  {l : Leaf} {op : Operator} {T : Tree} {p : List Nat} {d : Nat}

/-! ## Free occurrences -/

/-- The variable `v` is free in the term at the position: it stands there,
outside every quantifier that lists it. What a quantifier lists is no
occurrence. -/
inductive FreeAt (st : TermStore) (v : TermId) : TermId → List Nat → Prop where
  | here (isVar : st.IsVariable v) : FreeAt st v v []
  | body {t first : TermId} {rest : List TermId} {op : Operator} {p : List Nat}
    (node : st.node? t = some (.app op first rest)) (quantifies : op.isQuantifier = true)
    (unlisted : v ∉ rest) (inside : FreeAt st v first p) : FreeAt st v t (0 :: p)
  | child {t first c : TermId} {rest : List TermId} {op : Operator} {i : Nat} {p : List Nat}
    (node : st.node? t = some (.app op first rest)) (plain : op.isQuantifier = false)
    (place : (first :: rest)[i]? = some c) (inside : FreeAt st v c p) : FreeAt st v t (i :: p)

/-- In a leaf nothing is free but the leaf itself, if it is a variable. -/
theorem freeAt_leaf_iff (hn : st.node? t = some (.leaf l)) :
    st.FreeAt v t p ↔ p = [] ∧ v = t ∧ l.isVar = true := by
  constructor
  · intro h
    cases h with
    | here isVar =>
      obtain ⟨k, hk, hvar⟩ := isVar
      cases hn.symm.trans hk
      exact ⟨rfl, rfl, hvar⟩
    | body node => cases hn.symm.trans node
    | child node => cases hn.symm.trans node
  · rintro ⟨rfl, rfl, hvar⟩
    exact .here ⟨l, hn, hvar⟩

/-- Free in a quantifier is what is free in its body and not listed. -/
theorem freeAt_quantifier_iff (hn : st.node? t = some (.app op first rest))
    (hop : op.isQuantifier = true) :
    st.FreeAt v t p ↔ ∃ q, p = 0 :: q ∧ v ∉ rest ∧ st.FreeAt v first q := by
  constructor
  · intro h
    cases h with
    | here isVar =>
      obtain ⟨k, hk, -⟩ := isVar
      cases hn.symm.trans hk
    | body node _ unlisted inside =>
      cases hn.symm.trans node
      exact ⟨_, rfl, unlisted, inside⟩
    | child node plain =>
      cases hn.symm.trans node
      cases hop.symm.trans plain
  · rintro ⟨q, rfl, hv, hfree⟩
    exact .body hn hop hv hfree

/-- Free in any other node is what is free in one of its children. -/
theorem freeAt_other_iff (hn : st.node? t = some (.app op first rest))
    (hop : op.isQuantifier = false) :
    st.FreeAt v t p ↔ ∃ i c q, p = i :: q ∧ (first :: rest)[i]? = some c ∧ st.FreeAt v c q := by
  constructor
  · intro h
    cases h with
    | here isVar =>
      obtain ⟨k, hk, -⟩ := isVar
      cases hn.symm.trans hk
    | body node quantifies =>
      cases hn.symm.trans node
      cases hop.symm.trans quantifies
    | child node _ place inside =>
      cases hn.symm.trans node
      exact ⟨_, _, _, rfl, place, inside⟩
  · rintro ⟨i, c, q, rfl, hc, hfree⟩
    exact .child hn hop hc hfree

/-- What is free in a term is a variable. -/
theorem FreeAt.isVariable (h : st.FreeAt v t p) : st.IsVariable v := by
  induction h with
  | here isVar => exact isVar
  | body _ _ _ _ ih => exact ih
  | child _ _ _ _ ih => exact ih

/-- What is free in a term stands there. -/
theorem FreeAt.subterm (h : st.FreeAt v t p) : st.Subterm v t := by
  induction h with
  | here => exact .refl
  | body node _ _ _ ih => exact ih.of_child ⟨_, node, List.mem_cons_self⟩
  | child node _ place _ ih => exact ih.of_child ⟨_, node, List.mem_of_getElem? place⟩

/-- The variables that are free at some position of a term. -/
def freeVariables (st : TermStore) (t : TermId) : Set TermId := {v | ∃ p, st.FreeAt v t p}

/-- The recursion for the free variables of a term: a variable has itself
and another leaf has none; a quantifier has those of its body but for the
terms it lists; and any other node has those of its children, the head of
a call among them. -/
structure FreeVariableRecursion (st : TermStore) (free : TermId → Set TermId) : Prop where
  leaf : ∀ ⦃t l⦄, st.node? t = some (.leaf l) → free t = if l.isVar then {t} else ∅
  quantifier : ∀ ⦃t op body vars⦄, st.node? t = some (.app op body vars) →
    op.isQuantifier = true → free t = free body \ {v | v ∈ vars}
  other : ∀ ⦃t op first rest⦄, st.node? t = some (.app op first rest) →
    op.isQuantifier = false → free t = {v | ∃ c ∈ first :: rest, v ∈ free c}

/-- The variables that are free at some position satisfy the recursion. -/
theorem freeVariables_recursion (st : TermStore) : st.FreeVariableRecursion st.freeVariables where
  leaf t l hn := by
    ext v
    simp only [freeVariables, Set.mem_ofPred_eq, freeAt_leaf_iff hn, exists_eq_left]
    split <;> simp_all
  quantifier t op body vars hn hop := by
    ext v
    simp only [freeVariables, Set.mem_ofPred_eq, Set.mem_sdiff, freeAt_quantifier_iff hn hop]
    constructor
    · rintro ⟨p, q, -, hv, hfree⟩
      exact ⟨⟨q, hfree⟩, hv⟩
    · rintro ⟨⟨q, hfree⟩, hv⟩
      exact ⟨0 :: q, q, rfl, hv, hfree⟩
  other t op first rest hn hop := by
    ext v
    simp only [freeVariables, Set.mem_ofPred_eq, freeAt_other_iff hn hop]
    constructor
    · rintro ⟨p, i, c, q, -, hc, hfree⟩
      exact ⟨c, List.mem_of_getElem? hc, q, hfree⟩
    · rintro ⟨c, hc, q, hfree⟩
      obtain ⟨i, hi⟩ := List.mem_iff_getElem?.mp hc
      exact ⟨i :: q, i, c, q, rfl, hi, hfree⟩

/-- The recursion says what the free variables of every term of the store
are. -/
theorem FreeVariableRecursion.eq {free : TermId → Set TermId} (h : st.FreeVariableRecursion free)
    (ht : st.Unfolds t) : free t = st.freeVariables t := by
  have hown := st.freeVariables_recursion
  refine ht.walk_induct (P := fun _ t => free t = st.freeVariables t) ?_
  intro _ t n hn _ ih
  cases n with
  | leaf l => rw [h.leaf hn, hown.leaf hn]
  | app op first rest =>
    cases hop : op.isQuantifier with
    | true => rw [h.quantifier hn hop, hown.quantifier hn hop, ih first List.mem_cons_self]
    | false =>
      rw [h.other hn hop, hown.other hn hop]
      ext v
      exact exists_congr fun c => and_congr_right fun hc => by rw [ih c hc]

/-! ## The occurrences in order -/

/-- What stands at positions of a child stands, in the term, one level
further down. -/
def below (i : Nat) (os : List (List Nat × TermId)) : List (List Nat × TermId) :=
  os.map fun o => (i :: o.1, o.2)

/-- What stands below a child stands at a position that leads through the
child. -/
theorem mem_below {i : Nat} {os : List (List Nat × TermId)} :
    (p, v) ∈ below i os ↔ ∃ q, p = i :: q ∧ (q, v) ∈ os := by
  rw [below, List.mem_map]
  constructor
  · rintro ⟨⟨q, w⟩, hq, heq⟩
    cases heq
    exact ⟨q, rfl, hq⟩
  · rintro ⟨q, rfl, hq⟩
    exact ⟨(q, v), hq, rfl⟩

theorem map_snd_below (i : Nat) (os : List (List Nat × TermId)) :
    (below i os).map Prod.snd = os.map Prod.snd := by
  rw [below, List.map_map]
  rfl

/-- Positions in order are in order one level further down. -/
theorem pairwise_below (i : Nat) {os : List (List Nat × TermId)}
    (h : os.Pairwise fun o o' => o.1 < o'.1) : (below i os).Pairwise fun o o' => o.1 < o'.1 :=
  List.pairwise_map.mpr (h.imp fun hlt => List.cons_lt_cons_iff.mpr (.inr ⟨rfl, hlt⟩))

/-- The free occurrences in a term, within a number of levels: positions
and what stands there, from left to right. -/
def freeWithin (st : TermStore) : Nat → TermId → List (List Nat × TermId)
  | 0, _ => []
  | d + 1, t =>
    match st.node? t with
    | some (.leaf l) => if l.isVar then [([], t)] else []
    | some (.app op first rest) =>
      if op.isQuantifier then
        below 0 ((st.freeWithin d first).filter (·.2 ∉ rest))
      else (first :: rest).zipIdx.flatMap fun c => below c.2 (st.freeWithin d c.1)
    | none => []

/-- A variable occurs in itself, at the empty position. -/
theorem freeWithin_leaf (hn : st.node? t = some (.leaf l)) :
    st.freeWithin (d + 1) t = if l.isVar then [([], t)] else [] := by
  rw [freeWithin, hn]

/-- In a quantifier the free occurrences are those in its body, but for the
terms it lists. -/
theorem freeWithin_quantifier (hn : st.node? t = some (.app op first rest))
    (hop : op.isQuantifier = true) :
    st.freeWithin (d + 1) t = below 0 ((st.freeWithin d first).filter (·.2 ∉ rest)) := by
  simp only [freeWithin, hn, if_pos hop]

/-- In any other node the free occurrences are those in its children, child
by child. -/
theorem freeWithin_other (hn : st.node? t = some (.app op first rest))
    (hop : op.isQuantifier = false) :
    st.freeWithin (d + 1) t =
      (first :: rest).zipIdx.flatMap fun c => below c.2 (st.freeWithin d c.1) := by
  simp only [freeWithin, hn, hop, Bool.false_eq_true, if_false]

/-- They are the free occurrences. -/
theorem mem_freeWithin (hT : st.Denotes t T) (hd : T.depth ≤ d) :
    ∀ p v, (p, v) ∈ st.freeWithin d t ↔ st.FreeAt v t p := by
  refine hT.walk_induct (P := fun d t => ∀ p v, (p, v) ∈ st.freeWithin d t ↔ st.FreeAt v t p) hd ?_
  intro d t n hn _ ih p v
  cases n with
  | leaf l =>
    rw [freeWithin_leaf hn, freeAt_leaf_iff hn]
    split <;> simp_all
  | app op first rest =>
    cases hop : op.isQuantifier with
    | true =>
      have hfirst := ih first List.mem_cons_self
      simp only [freeWithin_quantifier hn hop, freeAt_quantifier_iff hn hop, mem_below,
        List.mem_filter, decide_eq_true_eq, hfirst, and_comm]
    | false =>
      rw [freeWithin_other hn hop, freeAt_other_iff hn hop, List.mem_flatMap]
      constructor
      · rintro ⟨⟨c, i⟩, hc, hmem⟩
        obtain ⟨q, rfl, hq⟩ := mem_below.mp hmem
        have hplace := List.mk_mem_zipIdx_iff_getElem?.mp hc
        exact ⟨i, c, q, rfl, hplace, (ih c (List.mem_of_getElem? hplace) q v).mp hq⟩
      · rintro ⟨i, c, q, rfl, hplace, hfree⟩
        have hq := (ih c (List.mem_of_getElem? hplace) q v).mpr hfree
        exact ⟨(c, i), List.mk_mem_zipIdx_iff_getElem?.mpr hplace, mem_below.mpr ⟨q, rfl, hq⟩⟩

/-- They come one after the other. -/
theorem pairwise_freeWithin (st : TermStore) (d : Nat) (t : TermId) :
    (st.freeWithin d t).Pairwise fun o o' => o.1 < o'.1 := by
  induction d generalizing t with
  | zero => exact .nil
  | succ d ih =>
    cases hn : st.node? t with
    | none =>
      rw [freeWithin, hn]
      exact .nil
    | some n =>
      cases n with
      | leaf l =>
        rw [freeWithin_leaf hn]
        split
        · exact List.pairwise_singleton _ _
        · exact .nil
      | app op first rest =>
        cases hop : op.isQuantifier with
        | true =>
          rw [freeWithin_quantifier hn hop]
          exact pairwise_below 0 ((ih first).filter _)
        | false =>
          rw [freeWithin_other hn hop, List.pairwise_flatMap]
          refine ⟨fun c _ => pairwise_below c.2 (ih c.1), ?_⟩
          have hplaces : ((first :: rest).zipIdx).Pairwise fun c c' => c.2 < c'.2 := by
            rw [← List.pairwise_map (f := Prod.snd), List.zipIdx_map_snd]
            exact List.pairwise_lt_range'
          refine hplaces.imp fun hlt o ho o' ho' => ?_
          obtain ⟨p, hp, -⟩ := mem_below.mp ho
          obtain ⟨q, hq, -⟩ := mem_below.mp ho'
          rw [hp, hq]
          exact List.cons_lt_cons_iff.mpr (.inl hlt)

end TermStore

end TypedTerms
