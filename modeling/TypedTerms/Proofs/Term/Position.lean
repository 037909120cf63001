import TypedTerms.Proofs.Replace

/-!
# Replacing at a position

A position is a list of places, to be taken from the root down. That a
term is another one with the term at a position replaced is said of a
store that knows all of them, by the nodes on the way (`Spliced`). The
laws of replacing are laws of this relation: what is put in is found
again, what was there before makes no difference, and nothing changes at
a position that leads elsewhere.

Splicing answers the term that stands so to the given one. The way down
is gone before the first node is made; so where it leads out of the term,
splicing stops at the same broken contract as looking there, and nothing
is made (`on_splice_of_error`). No tree is needed for any of this: terms
off the way may be known or not.
-/

namespace TypedTerms

namespace Node

variable {n : Node} {i j : Nat} {x y : TermId}

/-- The node with another child at a place. -/
def setChild : Node → Nat → TermId → Node
  | .leaf l, _, _ => .leaf l
  | .app op _ rest, 0, x => .app op x rest
  | .app op first rest, i + 1, x => .app op first (rest.set i x)

@[simp] theorem tag_setChild (n : Node) (i : Nat) (x : TermId) : (n.setChild i x).tag = n.tag := by
  cases n with
  | leaf => rfl
  | app => cases i <;> rfl

/-- Changing a child changes the list of the children at that place. -/
@[simp] theorem children_setChild (n : Node) (i : Nat) (x : TermId) :
    (n.setChild i x).children = n.children.set i x := by
  cases n with
  | leaf => rfl
  | app => cases i <;> rfl

theorem setChild_self (h : n.children[i]? = some x) : n.setChild i x = n := by
  cases n with
  | leaf => rfl
  | app op first rest =>
    cases i with
    | zero =>
      cases h
      rfl
    | succ i =>
      obtain ⟨hi, hx⟩ := List.getElem?_eq_some_iff.mp (List.getElem?_cons_succ ▸ h)
      rw [setChild, ← hx, List.set_getElem_self]

/-- Of two changes at one place only the last counts. -/
@[simp] theorem setChild_setChild (n : Node) (i : Nat) (x y : TermId) :
    (n.setChild i x).setChild i y = n.setChild i y := by
  cases n with
  | leaf => rfl
  | app op first rest =>
    cases i with
    | zero => rfl
    | succ i => rw [setChild, setChild, List.set_set, setChild]

/-- Changes at two places may be made in either order. -/
theorem setChild_comm (n : Node) (x y : TermId) (h : i ≠ j) :
    (n.setChild i x).setChild j y = (n.setChild j y).setChild i x := by
  cases n with
  | leaf => rfl
  | app op first rest =>
    cases i with
    | zero =>
      cases j with
      | zero => exact absurd rfl h
      | succ j => rfl
    | succ i =>
      cases j with
      | zero => rfl
      | succ j =>
        rw [setChild, setChild, setChild, setChild, List.set_comm]
        exact fun hij => h (congrArg Nat.succ hij)

end Node

namespace TermStore

variable {st st' : TermStore} {t u v w r r' x y : TermId} {n : Node} {i : Nat} {p q : List Nat}
  {e : Violation}

/-! ## The term at a position -/

/-- The term at a position: a child, a child of that, and so on. -/
def subtermAt (st : TermStore) : TermId → List Nat → Except Violation TermId
  | t, [] => .ok t
  | t, i :: p => do st.subtermAt (← st.child t i) p

/-- Asking for a child answers it, or says which place is missing in a node
with which tag. -/
theorem child_of_node? (h : st.node? t = some n) :
    st.child t i = match n.children[i]? with
      | some c => .ok c
      | none => .error (.noChild n.tag i) := by
  rw [child, node_of_node? h]
  rfl

/-- A child is answered exactly where the node has one. -/
theorem child_eq_ok_iff : st.child t i = .ok x ↔
    ∃ n, st.node? t = some n ∧ n.children[i]? = some x := by
  cases hn : st.node? t with
  | none => simp [child, node, hn, bind, Except.bind]
  | some n =>
    rw [child_of_node? hn]
    cases hc : n.children[i]? <;> simp [hc]

theorem subtermAt_cons_of_child (h : st.child t i = .ok x) :
    st.subtermAt t (i :: p) = st.subtermAt x p := by
  rw [subtermAt, h]
  rfl

/-- A position that leads on leads through a child. -/
theorem exists_of_subtermAt_cons (h : st.subtermAt t (i :: p) = .ok u) :
    ∃ n x, st.node? t = some n ∧ n.children[i]? = some x ∧ st.subtermAt x p = .ok u := by
  cases hx : st.child t i with
  | error e =>
    rw [subtermAt, hx] at h
    cases h
  | ok x =>
    rw [subtermAt_cons_of_child hx] at h
    obtain ⟨n, hn, hc⟩ := child_eq_ok_iff.mp hx
    exact ⟨n, x, hn, hc, h⟩

/-! ## A term with another term at a position -/

/-- The last term is the first with `r` at the position: on the way there
every node has the next one in the place of a child. -/
inductive Spliced (st : TermStore) (r : TermId) : TermId → List Nat → TermId → Prop where
  | here (t : TermId) : Spliced st r t [] r
  | inside {t u x y : TermId} {n : Node} {i : Nat} {p : List Nat} (node : st.node? t = some n)
    (child : n.children[i]? = some x) (inner : Spliced st r x p y)
    (answer : st.node? u = some (n.setChild i y)) : Spliced st r t (i :: p) u

theorem Spliced.of_extends (h : st.Spliced r t p u) (hst : st.Extends st') :
    st'.Spliced r t p u := by
  induction h with
  | here t => exact .here t
  | inside node child _ answer ih => exact .inside (hst node) child ih (hst answer)

/-- At the place that is changed stands the new child. -/
theorem getElem?_setChild (h : n.children[i]? = some x) (y : TermId) :
    (n.setChild i y).children[i]? = some y := by
  obtain ⟨hi, -⟩ := List.getElem?_eq_some_iff.mp h
  rw [Node.children_setChild, List.getElem?_set_self hi]

/-- At every other place stands the old child. -/
theorem getElem?_setChild_of_ne {j : Nat} (h : i ≠ j) (y : TermId) :
    (n.setChild i y).children[j]? = n.children[j]? := by
  rw [Node.children_setChild, List.getElem?_set_ne h]

/-- At the position stands what was put there. -/
theorem Spliced.subtermAt_eq (h : st.Spliced r t p u) : st.subtermAt u p = .ok r := by
  induction h with
  | here => rfl
  | inside _ child _ answer ih =>
    rw [subtermAt_cons_of_child (child_eq_ok_iff.mpr ⟨_, answer, getElem?_setChild child _⟩)]
    exact ih

/-- The position leads to a term in what it is replaced in. -/
theorem Spliced.exists_subterm (h : st.Spliced r t p u) : ∃ x, st.subtermAt t p = .ok x := by
  induction h with
  | here t => exact ⟨t, rfl⟩
  | inside node child _ _ ih =>
    rw [subtermAt_cons_of_child (child_eq_ok_iff.mpr ⟨_, node, child⟩)]
    exact ih

/-- Positions that lead elsewhere lead to what they led to. -/
theorem Spliced.subtermAt_apart (h : st.Spliced r t p u) (hp : ¬ p <+: q) (hq : ¬ q <+: p) :
    st.subtermAt u q = st.subtermAt t q := by
  induction h generalizing q with
  | here => exact absurd List.nil_prefix hp
  | @inside t u x y n i p node child _ answer ih =>
    cases q with
    | nil => exact absurd List.nil_prefix hq
    | cons j q =>
      by_cases hij : i = j
      · subst hij
        have hy := child_eq_ok_iff.mpr ⟨_, answer, getElem?_setChild child y⟩
        have hx := child_eq_ok_iff.mpr ⟨_, node, child⟩
        rw [subtermAt_cons_of_child hy, subtermAt_cons_of_child hx]
        exact ih (fun h => hp (List.cons_prefix_cons.mpr ⟨rfl, h⟩))
          (fun h => hq (List.cons_prefix_cons.mpr ⟨rfl, h⟩))
      · have hsame : st.child u j = st.child t j := by
          rw [child_of_node? answer, child_of_node? node, getElem?_setChild_of_ne hij,
            Node.tag_setChild]
        rw [subtermAt, subtermAt, hsame]

/-- A term is itself with what stands at a position there. -/
theorem spliced_self (h : st.subtermAt t p = .ok x) : st.Spliced x t p t := by
  induction p generalizing t with
  | nil =>
    cases h
    exact .here _
  | cons i p ih =>
    obtain ⟨n, c, hn, hc, hx⟩ := exists_of_subtermAt_cons h
    refine .inside hn hc (ih hx) ?_
    rw [Node.setChild_self hc]
    exact hn

end TermStore

namespace Build

open TermStore

variable {st st' : TermStore} {t u v w r r' x y : TermId} {n : Node} {i : Nat} {p q : List Nat}

/-! ## What splicing answers -/

/-- Rebuilding a node with one child changed interns the changed node. -/
theorem on_remake_setChild (hn : st.node? t = some n) (hc : n.children[i]? = some x)
    (y : TermId) :
    (remake t (n.children.set i y)).on st =
      (.ok (st.intern (n.setChild i y)).1, (st.intern (n.setChild i y)).2) := by
  cases n with
  | leaf => cases hc
  | app op first rest => cases i <;> exact on_remake hn

/-- Splicing below a child is splicing in the child and rebuilding the node.
-/
theorem on_splice_cons (hn : st.node? t = some n) (hc : n.children[i]? = some x) :
    (splice t (i :: p) r).on st =
      ((splice x p r) >>= fun y => remake t (n.children.set i y)).on st := by
  have hread : (read (·.node t)).on st = (.ok n, st) := by rw [on_read, node_of_node? hn]
  rw [splice, on_bind_ok hread, hc]

/-- Where the term that splicing builds is known, it is answered, and
nothing is made. -/
theorem on_splice_of_spliced (h : st.Spliced r t p u) : (splice t p r).on st = (.ok u, st) := by
  induction h with
  | here => rfl
  | inside node child _ answer ih =>
    rw [on_splice_cons node child, on_bind_ok ih, on_remake_setChild node child,
      intern_of_node? answer]

/-- At a position that leads to a term, splicing answers the term with
another one there. -/
theorem exists_spliced (h : st.subtermAt t p = .ok x) (r : TermId) :
    ∃ u st', (splice t p r).on st = (.ok u, st') ∧ st.Extends st' ∧ st'.Spliced r t p u := by
  induction p generalizing t with
  | nil => exact ⟨r, st, rfl, extends_refl st, .here t⟩
  | cons i p ih =>
    obtain ⟨n, c, hn, hc, hx⟩ := exists_of_subtermAt_cons h
    obtain ⟨y, st₁, hy, hst₁, hinner⟩ := ih hx
    have hst₂ := extends_intern st₁ (n.setChild i y)
    refine ⟨(st₁.intern (n.setChild i y)).1, _, ?_, extends_trans hst₁ hst₂, ?_⟩
    · rw [on_splice_cons hn hc, on_bind_ok hy, on_remake_setChild (hst₁ hn) hc]
    · exact .inside (hst₂ (hst₁ hn)) hc (hinner.of_extends hst₂) (node?_intern st₁ _)

/-- A position that leads out of a term is noticed before anything is
made. -/
theorem on_splice_of_error {e : Violation} (h : st.subtermAt t p = .error e) (r : TermId) :
    (splice t p r).on st = (.error e, st) := by
  induction p generalizing t with
  | nil => cases h
  | cons i p ih =>
    rw [subtermAt] at h
    cases hn : st.node? t with
    | none =>
      have hnode : st.node t = .error (.unknownTerm t) := by rw [node, hn]
      rw [child, hnode] at h
      cases h
      rw [splice, on_bind, on_read, hnode]
    | some n =>
      rw [child_of_node? hn] at h
      cases hc : n.children[i]? with
      | none =>
        rw [hc] at h
        cases h
        rw [splice, on_bind, on_read, node_of_node? hn]
        simp only [hc, on_throw]
      | some c =>
        rw [hc] at h
        rw [on_splice_cons hn hc, on_bind, ih h]

/-! ## Two replacements -/

/-- A second replacement at the position does what it would have done to
the term as it was. -/
theorem on_splice_of_replaced (h : st.Spliced r t p u) (hx : st.subtermAt t p = .ok x) :
    (splice u p r').on st = (splice t p r').on st := by
  induction h with
  | here => rfl
  | @inside t u x y n i p node child inner answer ih =>
    rw [subtermAt_cons_of_child (child_eq_ok_iff.mpr ⟨n, node, child⟩)] at hx
    obtain ⟨z, st₁, hz, hst₁, -⟩ := exists_spliced hx r'
    have hy := getElem?_setChild child y
    rw [on_splice_cons answer hy, on_splice_cons node child, on_bind_ok ((ih hx).trans hz),
      on_bind_ok hz, on_remake_setChild (hst₁ answer) hy, on_remake_setChild (hst₁ node) child,
      Node.setChild_setChild]

/-- Of two replacements at positions of which neither leads on from the
other, the second does the same whichever comes first. -/
theorem on_splice_comm (hu : st.Spliced r t p u) (hw : st.Spliced r' t q w) (hp : ¬ p <+: q)
    (hq : ¬ q <+: p) : (splice u q r').on st = (splice w p r).on st := by
  induction hu generalizing q w with
  | here => exact absurd List.nil_prefix hp
  | @inside t u x y n i p node child inner answer ih =>
    cases hw with
    | here => exact absurd List.nil_prefix hq
    | @inside _ _ x' z m j q node' child' inner' answer' =>
      cases node.symm.trans node'
      by_cases hij : i = j
      · -- the ways part further down
        subst hij
        cases child.symm.trans child'
        have hp' : ¬ p <+: q := fun h => hp (List.cons_prefix_cons.mpr ⟨rfl, h⟩)
        have hq' : ¬ q <+: p := fun h => hq (List.cons_prefix_cons.mpr ⟨rfl, h⟩)
        obtain ⟨c, hc⟩ := inner'.exists_subterm
        obtain ⟨a, st₁, ha, hst₁, -⟩ := exists_spliced (inner.subtermAt_apart hp' hq' ▸ hc) r'
        have hy := getElem?_setChild child y
        have hz := getElem?_setChild child z
        rw [on_splice_cons answer hy, on_splice_cons answer' hz, on_bind_ok ha,
          on_bind_ok ((ih inner' hp' hq').symm.trans ha), on_remake_setChild (hst₁ answer) hy,
          on_remake_setChild (hst₁ answer') hz, Node.setChild_setChild, Node.setChild_setChild]
      · -- each finds the child it replaces as it was
        have hz : (n.setChild i y).children[j]? = some x' := by
          rw [getElem?_setChild_of_ne hij, child']
        have hy : (n.setChild j z).children[i]? = some x := by
          rw [getElem?_setChild_of_ne (Ne.symm hij), child]
        rw [on_splice_cons answer hz, on_splice_cons answer' hy,
          on_bind_ok (on_splice_of_spliced inner'), on_bind_ok (on_splice_of_spliced inner),
          on_remake_setChild answer hz, on_remake_setChild answer' hy, Node.setChild_comm n y z hij]

end Build

namespace TermStore

open Build

variable {st st' : TermStore} {t u r x : TermId} {p : List Nat}

/-- What has come of replacing what stood at the position `p` of `t` by
`r`, the answer being `u` and the store left being `st'`. -/
structure Replaced (st st' : TermStore) (t r : TermId) (p : List Nat) (u : TermId) : Prop where
  /-- The store has only grown. -/
  grows : st.Extends st'
  /-- From then on the same replacement answers the same term, and makes
  nothing. -/
  again : ∀ ⦃st₁⦄, st'.Extends st₁ → (splice t p r).on st₁ = (.ok u, st₁)
  /-- At the position stands what was put there. -/
  subtermAt_eq : st'.subtermAt u p = .ok r
  /-- Another replacement there does what it does to the first term. -/
  overwrites : ∀ ⦃st₁⦄, st'.Extends st₁ → ∀ r', ∃ v st₂,
    (splice u p r').on st₁ = (.ok v, st₂) ∧ (splice t p r').on st₁ = (.ok v, st₂)
  /-- Where neither of two positions leads on from the other, the subterm
  at the second is what it was, and replacing it comes to the same before
  and after. -/
  apart : ∀ ⦃q y⦄, st.subtermAt t q = .ok y → ¬ p <+: q → ¬ q <+: p →
    st'.subtermAt u q = .ok y ∧
      ∀ ⦃st₁⦄, st'.Extends st₁ → ∀ r', ∃ w v st₂ st₃, (splice t q r').on st₁ = (.ok w, st₂) ∧
        (splice u q r').on st₂ = (.ok v, st₃) ∧ (splice w p r).on st₂ = (.ok v, st₃)

/-- What stands at a position stands there in every later store. -/
theorem subtermAt_of_extends (h : st.subtermAt t p = .ok x) (hst : st.Extends st') :
    st'.subtermAt t p = .ok x :=
  ((spliced_self h).of_extends hst).subtermAt_eq

/-- Splicing has come to all that `Replaced` says. -/
theorem Spliced.replaced (h : st'.Spliced r t p u) (hx : st.subtermAt t p = .ok x)
    (hst : st.Extends st') : Replaced st st' t r p u where
  grows := hst
  again _ hst₁ := on_splice_of_spliced (h.of_extends hst₁)
  subtermAt_eq := h.subtermAt_eq
  overwrites st₁ hst₁ r' := by
    have hx₁ := subtermAt_of_extends hx (extends_trans hst hst₁)
    obtain ⟨v, st₂, hv, -⟩ := exists_spliced hx₁ r'
    exact ⟨v, st₂, (on_splice_of_replaced (h.of_extends hst₁) hx₁).trans hv, hv⟩
  apart q y hy hp hq := by
    refine ⟨(h.subtermAt_apart hp hq).trans (subtermAt_of_extends hy hst), fun st₁ hst₁ r' => ?_⟩
    obtain ⟨w, st₂, hw, hst₂, hwq⟩ := exists_spliced
      (subtermAt_of_extends hy (extends_trans hst hst₁)) r'
    have hu := h.of_extends (extends_trans hst₁ hst₂)
    have hyu := (hu.subtermAt_apart hp hq).trans
      (subtermAt_of_extends hy (extends_trans hst (extends_trans hst₁ hst₂)))
    obtain ⟨v, st₃, hv, -⟩ := exists_spliced hyu r'
    exact ⟨w, v, st₂, st₃, hw, hv, (on_splice_comm hu hwq hp hq).symm.trans hv⟩

/-- Replacing at a position obeys the laws of replacement. Where the
position leads out of the term, splicing breaks the contract that looking
there breaks, and the store stays as it was. Where it leads to a term,
that term put back gives the term itself, and any other one gives what
`Replaced` says. -/
theorem splice_replaces (st : TermStore) (t : TermId) (p : List Nat) :
    (∀ e, st.subtermAt t p = .error e → ∀ r, (splice t p r).on st = (.error e, st)) ∧
      ∀ x, st.subtermAt t p = .ok x → (splice t p x).on st = (.ok t, st) ∧
        ∀ r, ∃ u st', (splice t p r).on st = (.ok u, st') ∧ Replaced st st' t r p u := by
  refine ⟨fun e he r => on_splice_of_error he r, fun x hx => ?_⟩
  refine ⟨on_splice_of_spliced (spliced_self hx), fun r => ?_⟩
  obtain ⟨u, st', hu, hst, hspliced⟩ := exists_spliced hx r
  exact ⟨u, st', hu, hspliced.replaced hx hst⟩

/-- In `f(g(y), a)` the variable `y` can be replaced by `z`, and apart
from it the constant; below `y` there is nothing to replace. -/
theorem splice_replaces_patternSample :
    (patternSample.subtermAt ⟨8⟩ [1, 1, 0] = .error (.noChild (.leaf .var) 0) ∧
      (splice ⟨8⟩ [1, 1, 0] ⟨2⟩).on patternSample =
        (.error (.noChild (.leaf .var) 0), patternSample)) ∧
    (patternSample.subtermAt ⟨8⟩ [1, 1] = .ok ⟨1⟩ ∧
      (splice ⟨8⟩ [1, 1] ⟨1⟩).on patternSample = (.ok ⟨8⟩, patternSample)) ∧
    ∃ u st', (splice ⟨8⟩ [1, 1] ⟨2⟩).on patternSample = (.ok u, st') ∧
      Replaced patternSample st' ⟨8⟩ ⟨2⟩ [1, 1] u ∧ st'.subtermAt u [2] = .ok ⟨3⟩ := by
  have hout : patternSample.subtermAt ⟨8⟩ [1, 1, 0] = .error (.noChild (.leaf .var) 0) := rfl
  have hin : patternSample.subtermAt ⟨8⟩ [1, 1] = .ok ⟨1⟩ := rfl
  obtain ⟨hself, hany⟩ := (splice_replaces patternSample ⟨8⟩ [1, 1]).2 _ hin
  obtain ⟨u, st', hu, hreplaced⟩ := hany ⟨2⟩
  have hapart := hreplaced.apart (q := [2]) (y := ⟨3⟩) rfl (by decide) (by decide)
  exact ⟨⟨hout, (splice_replaces patternSample ⟨8⟩ [1, 1, 0]).1 _ hout ⟨2⟩⟩, ⟨hin, hself⟩,
    u, st', hu, hreplaced, hapart.1⟩

end TermStore

end TypedTerms
