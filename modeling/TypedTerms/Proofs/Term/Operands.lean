import TypedTerms.Proofs.Term.Turns

/-!
# The operands of nested nodes

To flatten a term with respect to a tag is to open nodes with the tag, from
left to right, until none is left. `Flattens` says of a stack of terms in
which list this ends; its rules are the turns of gathering with a stack, one
each. A stack ends in one list at most, stacks on top of one another in the
lists one behind the other, and no term in a list has the tag. All that is
known of the walk that `operands` makes follows from this, since it comes to
the same list (`operands_eq_ok_iff`).

It does not matter for the operands how they were put together. `Nests` says
of terms that operands are nested in them, in order, by nodes of one
operator; flattening undoes that, whatever the nesting, and goes on into the
operands (`operands_exact`).
-/

namespace TypedTerms

/-- Has the node the tag? -/
def Node.hasTag (g : Tag) (n : Node) : Bool := n.tag = g

namespace TermStore

variable {st : TermStore} {g : Tag} {op : Operator} {t : TermId} {ts us xs ys zs : List TermId}
  {owns : List (List TermId)} {n : Node}

/-! ## Turn by turn -/

/-- The operands that a stack of terms ends in, the first term being on
top. -/
inductive Flattens (st : TermStore) (g : Tag) : List TermId → List TermId → Prop where
  | done : Flattens st g [] []
  | operand {t : TermId} {n : Node} {ts xs : List TermId} (node : st.node? t = some n)
    (other : n.tag ≠ g) (rest : Flattens st g ts xs) : Flattens st g (t :: ts) (t :: xs)
  | opened {t : TermId} {n : Node} {ts xs : List TermId} (node : st.node? t = some n)
    (same : n.tag = g) (rest : Flattens st g (n.children ++ ts) xs) : Flattens st g (t :: ts) xs

/-- A stack ends in one list at most, since the node on top says which turn
comes next. -/
theorem Flattens.unique (hx : st.Flattens g ts xs) (hy : st.Flattens g ts ys) : xs = ys := by
  induction hx generalizing ys with
  | done => cases hy; rfl
  | operand node other _ ih =>
    cases hy with
    | operand _ _ rest => rw [ih rest]
    | opened node' same _ =>
      cases node.symm.trans node'
      exact absurd same other
  | opened node same _ ih =>
    cases hy with
    | operand node' other _ =>
      cases node.symm.trans node'
      exact absurd same other
    | opened node' _ rest =>
      cases node.symm.trans node'
      exact ih rest

/-- What lies below on the stack is flattened after what lies above. -/
theorem Flattens.append (hx : st.Flattens g ts xs) (hy : st.Flattens g us ys) :
    st.Flattens g (ts ++ us) (xs ++ ys) := by
  induction hx with
  | done => exact hy
  | operand node other _ ih => exact .operand node other ih
  | opened node same _ ih =>
    rw [List.append_assoc] at ih
    exact .opened node same ih

/-- So a list of operands is cut where the stack is cut. -/
theorem Flattens.split (h : st.Flattens g (ts ++ us) xs) :
    ∃ ys zs, xs = ys ++ zs ∧ st.Flattens g ts ys ∧ st.Flattens g us zs := by
  generalize hstack : ts ++ us = stack at h
  induction h generalizing ts with
  | done =>
    obtain ⟨rfl, rfl⟩ := List.append_eq_nil_iff.mp hstack
    exact ⟨[], [], rfl, .done, .done⟩
  | operand node other rest ih =>
    cases ts with
    | nil =>
      cases hstack
      exact ⟨[], _, rfl, .done, .operand node other rest⟩
    | cons =>
      cases hstack
      obtain ⟨ys, zs, rfl, hys, hzs⟩ := ih rfl
      exact ⟨_ :: ys, zs, rfl, .operand node other hys, hzs⟩
  | opened node same rest ih =>
    cases ts with
    | nil =>
      cases hstack
      exact ⟨[], _, rfl, .done, .opened node same rest⟩
    | cons =>
      cases hstack
      obtain ⟨ys, zs, rfl, hys, hzs⟩ := ih (List.append_assoc ..)
      exact ⟨ys, zs, rfl, .opened node same hys, hzs⟩

/-- Terms are flattened one by one. -/
theorem flattens_flatten (h : List.Forall₂ (fun t own => st.Flattens g [t] own) ts owns) :
    st.Flattens g ts owns.flatten := by
  induction h with
  | nil => exact .done
  | cons ht _ ih => exact ht.append ih

/-- No operand has the tag. -/
theorem Flattens.tag_ne (h : st.Flattens g ts xs) : ∀ x ∈ xs, ∃ k, st.tag x = .ok k ∧ k ≠ g := by
  induction h with
  | done => exact fun _ hx => nomatch hx
  | operand node other _ ih => exact List.forall_mem_cons.mpr ⟨⟨_, tag_of_node? node, other⟩, ih⟩
  | opened _ _ _ ih => exact ih

/-- The turns of the stack are those of gathering where nodes with the tag
are opened. -/
theorem Flattens.gathers (h : st.Flattens g ts xs) : st.Gathers (Node.hasTag g) ts xs := by
  induction h with
  | done => exact ⟨0, fun k stack found => by rw [Nat.zero_add, List.nil_append, List.append_nil]⟩
  | operand node other _ ih =>
    obtain ⟨k, hk⟩ := ih
    refine ⟨k + 1, fun m stack found => ?_⟩
    rw [Nat.add_right_comm, List.cons_append, gatherTurns_found node (decide_eq_false other), hk,
      List.append_assoc]
    rfl
  | opened node same _ ih =>
    obtain ⟨k, hk⟩ := ih
    refine ⟨k + 1, fun m stack found => ?_⟩
    rw [Nat.add_right_comm, List.cons_append, gatherTurns_opened node (decide_eq_true same),
      ← List.append_assoc, hk]

/-! ## The walk -/

/-- The walk comes to an end, in the list that the term is flattened to. -/
theorem exists_operands (ht : st.Unfolds t) (g : Tag) :
    ∃ xs, st.operands t g = .ok xs ∧ st.Flattens g [t] xs := by
  -- the walk only adds, so what it is given may be anything
  have hwalk : ∃ xs : List TermId,
      (∀ found, st.operandsWithin g st.depthLimit found t = .ok (found ++ xs.toArray)) ∧
        st.Flattens g [t] xs := by
    refine ht.walk_induct (P := fun d t => ∃ xs : List TermId,
      (∀ found, st.operandsWithin g d found t = .ok (found ++ xs.toArray)) ∧
        st.Flattens g [t] xs) ?_
    intro d u n hn _ ih
    by_cases same : n.tag = g
    · obtain ⟨owns, hwalk, howns⟩ := exists_foldlM_gather (List.forall₂_same.mpr ih)
      have hchildren := flattens_flatten howns
      rw [← List.append_nil n.children] at hchildren
      refine ⟨owns.flatten, fun found => ?_, .opened hn same hchildren⟩
      rw [operandsWithin, node_of_node? hn, ← hwalk found]
      exact if_pos same
    · refine ⟨[u], fun found => ?_, .operand hn same .done⟩
      rw [operandsWithin, node_of_node? hn]
      exact if_neg same
  obtain ⟨xs, hxs, hflattens⟩ := hwalk
  refine ⟨xs, ?_, hflattens⟩
  rw [operands, hxs]
  simp [bind, Except.bind, pure, Except.pure]

/-- The walk answers a list exactly if the term is flattened to it. -/
theorem operands_eq_ok_iff (ht : st.Unfolds t) :
    st.operands t g = .ok xs ↔ st.Flattens g [t] xs := by
  obtain ⟨ys, hys, hflattens⟩ := exists_operands ht g
  constructor
  · intro hxs
    cases hys.symm.trans hxs
    exact hflattens
  · intro hxs
    rw [hys, hflattens.unique hxs]

/-- The operands of terms, each flattened, make up those of the terms on a
stack. -/
theorem exists_operands_forall₂ (h : ∀ t ∈ ts, st.Unfolds t) (g : Tag) :
    ∃ owns, List.Forall₂ (fun t own => st.operands t g = .ok own) ts owns ∧
      st.Flattens g ts owns.flatten := by
  obtain ⟨owns, howns⟩ := exists_forall₂ fun t ht => exists_operands (h t ht) g
  exact ⟨owns, howns.imp fun _ _ h => h.1, flattens_flatten (howns.imp fun _ _ h => h.2)⟩

/-! ## Nested operands -/

/-- The operands are nested in the terms, in order: a term is one of them,
or it is a node of the operator, in whose children some are nested. -/
inductive Nests (st : TermStore) (op : Operator) : List TermId → List TermId → Prop where
  | nil : Nests st op [] []
  | operand (y : TermId) {ts ys : List TermId} (rest : Nests st op ts ys) :
    Nests st op (y :: ts) (y :: ys)
  | node {t c : TermId} {cs ts ys zs : List TermId} (node : st.node? t = some (.app op c cs))
    (inner : Nests st op (c :: cs) ys) (rest : Nests st op ts zs) : Nests st op (t :: ts) (ys ++ zs)

/-- Operands that are nested in terms stand for trees if the terms do. -/
theorem Nests.unfolds (h : st.Nests op ts ys) (hts : ∀ t ∈ ts, st.Unfolds t) :
    ∀ y ∈ ys, st.Unfolds y := by
  induction h with
  | nil => exact hts
  | operand y _ ih =>
    obtain ⟨hy, hrest⟩ := List.forall_mem_cons.mp hts
    exact List.forall_mem_cons.mpr ⟨hy, ih hrest⟩
  | node node _ _ ihInner ih =>
    obtain ⟨ht, hrest⟩ := List.forall_mem_cons.mp hts
    intro y hy
    rcases List.mem_append.mp hy with hy | hy
    · exact ihInner (fun c hc => ht.of_mem_children node hc) y hy
    · exact ih hrest y hy

/-- To flatten terms in which operands are nested is to flatten the
operands. -/
theorem Nests.flattens (h : st.Nests op ts ys) (hys : st.Flattens (.operator op) ys xs) :
    st.Flattens (.operator op) ts xs := by
  induction h generalizing xs with
  | nil => exact hys
  | operand y _ ih =>
    rw [← List.singleton_append] at hys
    obtain ⟨own, rest, rfl, hown, hrest⟩ := hys.split
    exact hown.append (ih hrest)
  | node node _ _ ihInner ih =>
    obtain ⟨own, rest, rfl, hown, hrest⟩ := hys.split
    exact .opened node rfl ((ihInner hown).append (ih hrest))

/-! ## What flattening gives -/

/-- What the list of the operands of a term is. -/
structure IsOperands (st : TermStore) (g : Tag) (t : TermId) (xs : List TermId) : Prop where
  /-- It is what the walk answers. -/
  answer : st.operands t g = .ok xs
  /-- It is what turns with a stack end with. -/
  turns : ∃ k, ∀ n ≥ k, st.gatherTurns (Node.hasTag g) n [t] [] = .ok ([], xs)
  /-- A node with the tag has the operands of its children, one after the
  other. -/
  opened : ∀ ⦃n⦄, st.node? t = some n → n.tag = g →
    ∃ owns, List.Forall₂ (fun c own => st.operands c g = .ok own) n.children owns ∧
      xs = owns.flatten
  /-- A term with another tag is its own operand. -/
  single : ∀ ⦃n⦄, st.node? t = some n → n.tag ≠ g → xs = [t]
  /-- No operand has the tag. -/
  tag_ne : ∀ x ∈ xs, ∃ k, st.tag x = .ok k ∧ k ≠ g
  /-- In whatever way terms are nested in it, in order, its operands are
  theirs, one after the other. -/
  regrouped : ∀ ⦃op ys⦄, g = .operator op → st.Nests op [t] ys →
    ∃ owns, List.Forall₂ (fun y own => st.operands y g = .ok own) ys owns ∧ xs = owns.flatten

/-- The list that a term is flattened to is that of its operands. -/
theorem isOperands_of_flattens (ht : st.Unfolds t) (h : st.Flattens g [t] xs) :
    st.IsOperands g t xs where
  answer := (operands_eq_ok_iff ht).mpr h
  turns := h.gathers.ends
  opened n hn same := by
    obtain ⟨owns, howns, hflattens⟩ :=
      exists_operands_forall₂ (fun c hc => ht.of_mem_children hn hc) g
    refine ⟨owns, howns, h.unique (.opened hn same ?_)⟩
    rwa [List.append_nil]
  single n hn other := h.unique (.operand hn other .done)
  tag_ne := h.tag_ne
  regrouped op ys hg hnests := by
    subst hg
    have hys := hnests.unfolds (List.forall_mem_singleton.mpr ht)
    obtain ⟨owns, howns, hflattens⟩ := exists_operands_forall₂ hys (.operator op)
    exact ⟨owns, howns, h.unique (hnests.flattens hflattens)⟩

/-- Flattening gives exactly the operands. It comes to an end on every term
and for every tag, both as a recursion and with a stack; it gives what the
recursion says, no operand has the tag, and the list is the same however the
operands were grouped. -/
theorem operands_exact (ht : st.Unfolds t) (g : Tag) : ∃ xs, st.IsOperands g t xs := by
  obtain ⟨xs, -, hxs⟩ := exists_operands ht g
  exact ⟨xs, isOperands_of_flattens ht hxs⟩

/-- A store with the terms `⊤`, `⊥` and `¬⊤`, and their conjunction, grouped
as `(⊤ ∧ ⊥) ∧ ¬⊤`. -/
def groupedSample : TermStore :=
  .ofNodes
    [.leaf (.boolean true), .leaf (.boolean false), .app .not ⟨0⟩ [], .app .and ⟨0⟩ [⟨1⟩],
      .app .and ⟨3⟩ [⟨2⟩]]
    (by decide) 0

theorem denotes_groupedSample : groupedSample.Denotes ⟨4⟩
    (.app .and (.app .and (.leaf (.boolean true)) [.leaf (.boolean false)])
      [.app .not (.leaf (.boolean true)) []]) :=
  ⟨_, _, rfl, ⟨_, _, rfl, rfl, _, _, rfl, rfl, rfl⟩, _, _, rfl, ⟨_, _, rfl, rfl, rfl⟩, rfl⟩

/-- The operands of the grouped conjunction are its three conjuncts. -/
theorem operands_exact_groupedSample :
    groupedSample.Unfolds ⟨4⟩ ∧ groupedSample.Nests .and [⟨4⟩] [⟨0⟩, ⟨1⟩, ⟨2⟩] ∧
      groupedSample.IsOperands (.operator .and) ⟨4⟩ [⟨0⟩, ⟨1⟩, ⟨2⟩] := by
  have hunfolds : groupedSample.Unfolds ⟨4⟩ := ⟨_, denotes_groupedSample⟩
  have hinner : groupedSample.node? ⟨3⟩ = some (.app .and ⟨0⟩ [⟨1⟩]) := rfl
  have houter : groupedSample.node? ⟨4⟩ = some (.app .and ⟨3⟩ [⟨2⟩]) := rfl
  have hnests : groupedSample.Nests .and [⟨4⟩] [⟨0⟩, ⟨1⟩, ⟨2⟩] :=
    .node houter (.node hinner (.operand ⟨0⟩ (.operand ⟨1⟩ .nil)) (.operand ⟨2⟩ .nil)) .nil
  have hanswer : groupedSample.operands ⟨4⟩ (.operator .and) = .ok [⟨0⟩, ⟨1⟩, ⟨2⟩] := rfl
  obtain ⟨xs, hxs⟩ := operands_exact hunfolds (.operator .and)
  cases hxs.answer.symm.trans hanswer
  exact ⟨hunfolds, hnests, hxs⟩

/-- For another operator the term is its own operand. -/
example : groupedSample.operands ⟨4⟩ (.operator .or) = .ok [⟨4⟩] := rfl

end TermStore

end TypedTerms
