import TypedTerms.Proofs.Growth.Ensures

/-!
# The operations on a store

A store comes later than another if it is left behind by operations on
it, one after the other, whether they answer or stop at a broken contract
(`Later`). Mapping runs a function that may itself operate on the store,
at every call in another way, and keep a state of its own.

What every operation keeps (`Ensures`) is kept by all of them in a row.
Whatever terms the operations are given, the store only grows
(`Later.extends`); and if they are given terms that stand for trees, every
term that the store knows does (`Reached.unfolded`).
-/

namespace TypedTerms

namespace TermStore

open Build

/-- An operation that may make terms, other than mapping. -/
inductive Operation where
  | make (m : Maker)
  | implies (a b : TermId)
  | remake (t : TermId) (children : List TermId)
  | quantify (t : TermId)
  | splice (t : TermId) (position : List Nat) (r : TermId)
  | simplify (t : TermId)
  | replace (s : Subst) (t : TermId)

namespace Operation

/-- What the operation does. -/
def build : Operation → Build TermId
  | .make m => m.build
  | .implies a b => Build.implies a b
  | .remake t children => Build.remake t children
  | .quantify t => Build.quantify t
  | .splice t position r => Build.splice t position r
  | .simplify t => Build.simplify t
  | .replace s t => s.replace t

/-- The terms that the operation is given. -/
def operands : Operation → List TermId
  | .make m => m.operands
  | .implies a b => [a, b]
  | .remake t children => t :: children
  | .quantify t => [t]
  | .splice t _ r => [t, r]
  | .simplify t => [t]
  | .replace s t => t :: (s.bindings.map Prod.fst ++ s.bindings.map Prod.snd)

variable {D : Discipline} {st : TermStore}

/-- Every operation that is given known terms only adds to the store, and
answers a known term if it answers. -/
theorem ensures (o : Operation) (h : ∀ c ∈ o.operands, D.known st c) :
    Ensures D o.build st D.known := by
  cases o with
  | make m => exact ensures_maker m h
  | implies a b => exact ensures_implies (h a (by simp [operands])) (h b (by simp [operands]))
  | remake t children =>
    obtain ⟨ht, hchildren⟩ := List.forall_mem_cons.mp h
    exact ensures_remake ht hchildren
  | quantify t => exact ensures_quantify (List.forall_mem_singleton.mp h)
  | splice t p r => exact ensures_splice (h t (by simp [operands])) (h r (by simp [operands]))
  | simplify t => exact ensures_simplify (List.forall_mem_singleton.mp h)
  | replace s t =>
    obtain ⟨ht, hs⟩ := List.forall_mem_cons.mp h
    refine ensures_replace (fun x v hv => hs v ?_) ht
    exact List.mem_append_right _ (List.mem_map_of_mem (f := Prod.snd) (Subst.mem_of_get? hv))

end Operation

/-- The places in a term that are mapped. -/
inductive Part where
  | leaves
  | children

/-- The term with a part of it mapped. -/
def Part.map {m : Type → Type} [Monad m] [MonadLiftT Build m] :
    Part → (TermId → m TermId) → TermId → m TermId
  | .leaves => mapLeaves
  | .children => mapChildren

/-- The second store is left behind by operations on the first. They are
given terms that are allowed in the store that they run on. -/
inductive Later (allowed : TermStore → TermId → Prop) : TermStore → TermStore → Prop where
  | refl (st : TermStore) : Later allowed st st
  | trans {st₁ st₂ st₃ : TermStore} (h₁ : Later allowed st₁ st₂) (h₂ : Later allowed st₂ st₃) :
    Later allowed st₁ st₃
  | operation {st : TermStore} (o : Operation) (given : ∀ c ∈ o.operands, allowed st c) :
    Later allowed st (o.build.on st).2
  /-- Mapping by a function with a state of its own, about which `J` holds
  at every call. What the function does to the store are operations too,
  and what it answers is allowed. -/
  | map {st : TermStore} {σ : Type} {J : TermStore → σ → Prop} {w : σ} (part : Part)
    (f : TermId → StateT σ Build TermId) {t : TermId} (given : allowed st t) (start : J st w)
    (mono : ∀ st₁ st₂ w, J st₁ w → st₁.Extends st₂ → J st₂ w)
    (calls : ∀ x st' w, st.Extends st' → allowed st' x → J st' w →
      Later allowed st' (((f x).run w).on st').2)
    (answers : ∀ x st' w, st.Extends st' → allowed st' x → J st' w →
      ∀ p st'', ((f x).run w).on st' = (.ok p, st'') → allowed st'' p.1 ∧ J st'' p.2) :
    Later allowed st (((part.map f t).run w).on st).2

/-- What operations on known terms keep, operations in a row keep. -/
theorem Later.keeps {D : Discipline} {st st' : TermStore} (h : Later D.known st st') :
    st.Extends st' ∧ (D.sound st → D.sound st') := by
  have of_ensures : ∀ {α : Type} {x : Build α} {st P}, Ensures D x st P →
      st.Extends (x.on st).2 ∧ (D.sound st → D.sound (x.on st).2) := by
    rintro α x st P ⟨r, st', hr, hst, hsound, -⟩
    rw [hr]
    exact ⟨hst, hsound⟩
  induction h with
  | refl st => exact ⟨extends_refl st, id⟩
  | trans _ _ ih₁ ih₂ => exact ⟨extends_trans ih₁.1 ih₂.1, ih₂.2 ∘ ih₁.2⟩
  | operation o given => exact of_ensures (o.ensures given)
  | @map st σ J w part f t given start mono calls answers ih =>
    have hf : (Setting.stateful D J @mono).Keeps f st := by
      intro x st' hst hx w hw
      refine ⟨_, _, rfl, (ih x st' w hst hx hw).1, (ih x st' w hst hx hw).2, fun p hp => ?_⟩
      exact answers x st' w hst hx hw p _ (Prod.ext hp rfl)
    cases part with
    | leaves => exact of_ensures (hf.mapLeaves t st (extends_refl st) given w start)
    | children => exact of_ensures (hf.mapChildren given w start)

/-- Whatever terms the operations are given, the store only grows. -/
theorem Later.extends {st st' : TermStore} (h : Later (fun _ _ => True) st st') :
    st.Extends st' := (Later.keeps (D := .anything) h).1

variable {st : TermStore} {n : Node} {t : TermId}

/-! ## Terms that stand for trees -/

/-- A node over terms that stand for trees stands for one. -/
theorem unfolds_intern (h : ∀ c ∈ n.children, st.Unfolds c) :
    (st.intern n).2.Unfolds (st.intern n).1 := by
  have hnode := node?_intern st n
  cases n with
  | leaf l => exact ⟨.leaf l, denotes_leaf_iff.mpr hnode⟩
  | app op first rest =>
    obtain ⟨Ts, hTs⟩ := exists_forall₂ h
    cases hTs with
    | cons hfirst hrest =>
      have hst := extends_intern st (.app op first rest)
      exact ⟨_, denotes_app_iff.mpr ⟨first, rest, hnode,
        .cons (denotes_of_extends hst hfirst) (hrest.imp fun _ _ => denotes_of_extends hst)⟩⟩

/-- Every term that the store knows stands for a tree. -/
def Unfolded (st : TermStore) : Prop := ∀ ⦃t n⦄, st.node? t = some n → st.Unfolds t

/-- A store whose terms all stand for trees remains one if its new terms do
so, too. -/
theorem Unfolded.of_nodes {st' : TermStore} (hs : st.Unfolded) (hst : st.Extends st')
    (h : ∀ t n, st'.node? t = some n → (∃ m, st.node? t = some m) ∨ st'.Unfolds t) :
    st'.Unfolded := by
  intro t n ht
  rcases h t n ht with ⟨m, hm⟩ | ht
  · exact (hs hm).imp fun _ => denotes_of_extends hst
  · exact ht

/-- Interning a node over terms that stand for trees adds one that does. -/
theorem Unfolded.intern (hs : st.Unfolded) (h : ∀ c ∈ n.children, st.Unfolds c) :
    (st.intern n).2.Unfolded := by
  by_cases hold : ∃ u, st.node? u = some n
  · obtain ⟨u, hu⟩ := hold
    rw [intern_of_node? hu]
    exact hs
  · obtain ⟨hfst, -, hnode⟩ := intern_of_new (not_exists.mp hold)
    refine hs.of_nodes (extends_intern st n) fun t m ht => ?_
    rw [hnode] at ht
    split at ht
    · next hraw =>
      have heq : t = (st.intern n).1 := by
        rw [hfst, ← hraw]
      exact .inr (heq ▸ unfolds_intern h)
    · exact .inl ⟨m, ht⟩

end TermStore

open TermStore

/-- Terms that stand for trees, in a store that knows no others. -/
def Discipline.trees : Discipline where
  known := Unfolds
  sound := Unfolded
  known_of_extends h hst := h.imp fun _ => denotes_of_extends hst
  known_child h hn hc := h.of_mem_children hn hc
  known_intern := unfolds_intern
  sound_intern h hs := hs.intern h
  sound_count hs := hs.of_nodes (fun _ _ ht => ht) fun _ m ht => .inl ⟨m, ht⟩

namespace TermStore

/-- A store that is reached from the one without terms, over an assignment
of nodes to shards, by operations on terms that stand for trees: on terms,
that is, that it knows by then (`Reached.unfolded`). -/
def Reached (shard : Node → Shard) (st : TermStore) : Prop := Later Unfolds (sharded shard) st

/-- In a store that is reached so, the terms that stand for trees are
those that it knows. -/
theorem Reached.unfolded {shard : Node → Shard} {st : TermStore} (h : Reached shard st) :
    st.Unfolded := by
  refine (Later.keeps (D := .trees) h).2 fun t n ht => ?_
  cases (Interner.get?_sharded shard t.raw).symm.trans ht

end TermStore

end TypedTerms
