import TypedTerms.Proofs.Folding.Follows
import TypedTerms.Proofs.Growth.Solve
import TypedTerms.Proofs.Growth.Later
import TypedTerms.Proofs.Store.Canonical

/-!
# Nothing said of a term changes

What was said of terms, and what was made of them, stays so, whatever is
done to the store afterwards (`Reached.conserves`). The store may be
reached by any operations, and any operations may follow, those that stop
at a broken contract included, and those on terms that the store does not
know.

Two things carry this. Walks through terms read the nodes of the terms
only, and nodes stay (`Extends`). And operations that make terms answer a
term for a tree that does not depend on the store, which is one term,
made now or before.
-/

/-!
## Building terms in a store that has grown

An operation that makes terms answers the same, whether the terms that it
makes are new or were made before: what it answers stands for a tree that
does not depend on the store, and no two terms stand for one tree
(`fst_on_eq_of_follows`). So it is enough to say what replacing, and
splicing, do to trees. They may stop at a broken contract half way, and
then they do so over the tree, too.

Bindings that go in circles are followed until the number of bindings is
used up, in every store alike (`exists_follows_replace`).
-/

namespace TypedTerms

open TermStore

namespace Tree

/-- The tree with a tree in place of every leaf, as far as there is one,
from left to right. -/
def bindLeaves (f : Leaf → Except Violation Tree) : Tree → Except Violation Tree :=
  fold f fun op first rest => do return .app op (← first) (← rest.mapM id)

/-- Putting trees in the place of the leaves of a node goes through its
children from left to right. -/
theorem bindLeaves_app (f : Leaf → Except Violation Tree) (op : Operator) (first : Tree)
    (rest : List Tree) : (app op first rest).bindLeaves f =
      (do return .app op (← first.bindLeaves f) (← rest.mapM (bindLeaves f))) := by
  rw [bindLeaves, fold_app, List.mapM_map]
  rfl

/-- The tree with the subtree at a position replaced, which must exist. -/
def splice : Tree → List Nat → Tree → Except Violation Tree
  | _, [], R => .ok R
  | .leaf l, i :: _, _ => .error (.noChild (.leaf l.tag) i)
  | .app op first rest, 0 :: p, R => do return .app op (← first.splice p R) rest
  | .app op first rest, (i + 1) :: p, R =>
    match rest[i]? with
    | none => .error (.noChild (.operator op) (i + 1))
    | some C => do return .app op first (rest.set i (← C.splice p R))

end Tree

namespace Build

variable {st st' : TermStore} {s : Subst} {t r : TermId} {T R : Tree} {n : Nat}

/-- A step that follows one computation in every store from the first on
answers the same in all of them. -/
theorem fst_on_eq_of_follows {x : Build TermId} {e : Except Violation Tree}
    (h : ∀ st', st.Extends st' → Follows Denotes x st' e) (hst : (x.on st).2.Extends st') :
    (x.on st').1 = (x.on st).1 := by
  obtain ⟨r, st₁, hr, hst₁, hrE⟩ := h st (extends_refl st)
  rw [hr] at hst ⊢
  obtain ⟨q, st₂, hq, hst₂, hqE⟩ := h st' (extends_trans hst₁ hst)
  rw [hq]
  cases e with
  | error v => exact hqE.eq_error.trans hrE.eq_error.symm
  | ok A =>
    obtain ⟨a, rfl, haA⟩ := hrE.exists_ok
    obtain ⟨b, rfl, hbA⟩ := hqE.exists_ok
    have hA := denotes_of_extends (extends_trans hst hst₂) haA
    exact congrArg Except.ok (denotes_inj hbA hA)

/-- Rebuilding a node over terms for some trees follows the node over these
trees. -/
theorem follows_remake {op : Operator} {c d : TermId} {cs ds : List TermId} {first : Tree}
    {rest : List Tree} (h : st.node? t = some (.app op c cs))
    (hall : List.Forall₂ st.Denotes (d :: ds) (first :: rest)) :
    Follows Denotes (remake t (d :: ds)) st (.ok (.app op first rest)) := by
  obtain ⟨a, st', ha, hst, hden⟩ := yields_remake h hall
  exact ⟨.ok a, st', ha, hst, hden⟩

/-! ### Mapping leaves -/

/-- Within as many levels as the tree has, mapping the leaves of a term
follows putting trees in the place of its leaves, and stops where that
stops. -/
theorem follows_mapLeavesWithin {f : TermId → Build TermId} {g : Leaf → Except Violation Tree}
    {d : Nat} (hT : st.Denotes t T) (hd : T.depth ≤ d)
    (hf : ∀ x l, st.node? x = some (.leaf l) → ∀ st', st.Extends st' →
      Follows Denotes (f x) st' (g l)) (hst : st.Extends st') :
    Follows Denotes (mapLeavesWithin f d t) st' (T.bindLeaves g) := by
  refine hT.within_induct (P := fun d t T => ∀ st', st.Extends st' →
    Follows Denotes (mapLeavesWithin f d t) st' (T.bindLeaves g)) hd ?_ ?_ st' hst
  · intro d u l hu st' hst
    obtain ⟨a, st'', ha, hgrown⟩ := hf u l hu st' hst
    refine ⟨a, st'', ?_, hgrown⟩
    rw [mapLeavesWithin, on_bind_ok (on_children (hst hu))]
    exact ha
  · intro d u op c cs first rest hu _ hsteps st' hst
    obtain ⟨hfirst, hrest⟩ := List.forall₂_cons.mp hsteps
    have hrun : (mapLeavesWithin f (d + 1) u).on st' = (do
        let a ← mapLeavesWithin f d c
        let as ← cs.mapM (mapLeavesWithin f d)
        remake u (a :: as) : Build TermId).on st' := by
      rw [mapLeavesWithin, on_bind_ok (on_children (hst hu))]
      show ((c :: cs).mapM (mapLeavesWithin f d) >>= remake u).on st' = _
      simp only [List.mapM_cons, bind_assoc, pure_bind]
    have hbind := (hfirst st' hst).bind fun a A st₁ hst₁ hA =>
      (follows_mapM hrest (extends_trans hst hst₁)).bind fun as As st₂ hst₂ hAs =>
        follows_remake (extends_trans (extends_trans hst hst₁) hst₂ hu)
          (.cons (denotes_of_extends hst₂ hA) hAs)
    obtain ⟨a, st'', ha, hend⟩ := hbind
    exact ⟨a, st'', hrun.trans ha, by rwa [Tree.bindLeaves_app]⟩

/-- So does the map of leaves within the bound of the store. -/
theorem follows_mapLeaves {f : TermId → Build TermId} {g : Leaf → Except Violation Tree}
    (hT : st.Denotes t T) (hf : ∀ x l, st.node? x = some (.leaf l) → ∀ st', st.Extends st' →
      Follows Denotes (f x) st' (g l)) (hst : st.Extends st') :
    Follows Denotes (mapLeaves f t) st' (T.bindLeaves g) :=
  .read_ok (f := fun st => .ok st.growingDepthLimit) rfl (follows_mapLeavesWithin hT
    (denotes_of_extends hst hT).depth_le_growingDepthLimit hf hst)

/-- If the function follows some computation at every leaf that the store
knows, then mapping follows one. -/
theorem exists_follows_mapLeaves {f : TermId → Build TermId} (ht : st.Unfolds t)
    (hf : ∀ x l, st.node? x = some (.leaf l) → ∃ e, ∀ st', st.Extends st' →
      Follows Denotes (f x) st' e) :
    ∃ e, ∀ st', st.Extends st' → Follows Denotes (mapLeaves f t) st' e := by
  obtain ⟨T, hT⟩ := ht
  -- no two terms are one leaf, so the computations are chosen leaf by leaf
  have hleaf : ∀ l, ∃ e, ∀ x, st.node? x = some (.leaf l) →
      ∀ st', st.Extends st' → Follows Denotes (f x) st' e := by
    intro l
    by_cases hknown : ∃ x, st.node? x = some (.leaf l)
    · obtain ⟨x, hx⟩ := hknown
      obtain ⟨e, he⟩ := hf x l hx
      exact ⟨e, fun y hy => node?_inj hx hy ▸ he⟩
    · exact ⟨.ok (.leaf l), fun x hx => absurd ⟨x, hx⟩ hknown⟩
  choose g hg using hleaf
  exact ⟨T.bindLeaves g, fun st' hst => follows_mapLeaves hT (fun x l hx => hg l x hx) hst⟩

/-! ### Replacing -/

/-- Through any number of bindings in a row, in circles or not, replacing
a term follows one computation in every store from the first on. -/
theorem exists_follows_replaceWithin (hs : st.KnowsValues s) (n : Nat) (ht : st.Unfolds t) :
    ∃ e, ∀ st', st.Extends st' → Follows Denotes (s.replaceWithin n t) st' e := by
  induction n generalizing t with
  | zero => exact ⟨.error .endless, fun st' _ => ⟨_, st', rfl, extends_refl st', rfl⟩⟩
  | succ n ih =>
    rw [Subst.replaceWithin]
    split
    · obtain ⟨T, hT⟩ := ht
      exact ⟨.ok T, fun st' hst => follows_pure (denotes_of_extends hst hT)⟩
    · refine exists_follows_mapLeaves ht fun x l hx => ?_
      split
      · exact ⟨.ok (.leaf l), fun st' hst => follows_pure (denotes_leaf_iff.mpr (hst hx))⟩
      · next v hv =>
        split
        · exact ⟨.error (.selfBound x), fun st' _ => ⟨_, st', rfl, extends_refl st', rfl⟩⟩
        · exact ih (hs hv)

/-- Replacing follows one and the same computation over the tree in every
store that has grown from this one. -/
theorem exists_follows_replace (hs : st.KnowsValues s) (ht : st.Unfolds t) :
    ∃ e, ∀ st', st.Extends st' → Follows Denotes (s.replace t) st' e :=
  exists_follows_replaceWithin hs _ ht

/-! ### Splicing -/

section Places

variable {α β : Type} {R : α → β → Prop} {as : List α} {bs : List β}

/-- Related lists are related at every place, or have none there. -/
theorem getElem?_rel (h : List.Forall₂ R as bs) (i : Nat) : Option.Rel R as[i]? bs[i]? := by
  induction h generalizing i with
  | nil => exact .none
  | cons hab _ ih =>
    cases i with
    | zero => exact .some hab
    | succ i => exact ih i

/-- Where the one list has an entry, the other one has a related one. -/
theorem exists_getElem? {a : α} {i : Nat} (h : List.Forall₂ R as bs) (ha : as[i]? = some a) :
    ∃ b, bs[i]? = some b ∧ R a b := by
  have hplace := getElem?_rel h i
  rw [ha] at hplace
  generalize bs[i]? = b at hplace
  cases hplace with
  | some hab => exact ⟨_, rfl, hab⟩

/-- Related lists stay related when related entries are put at one place. -/
theorem forall₂_set {a : α} {b : β} (h : List.Forall₂ R as bs) (hab : R a b) (i : Nat) :
    List.Forall₂ R (as.set i a) (bs.set i b) := by
  induction h generalizing i with
  | nil => exact .nil
  | cons hcd hrest ih =>
    cases i with
    | zero => exact .cons hab hrest
    | succ i => exact .cons hcd (ih i)

end Places

/-- Splicing a term follows splicing its tree. -/
theorem follows_splice {p : List Nat} (hT : st.Denotes t T) (hR : st.Denotes r R)
    (hst : st.Extends st') : Follows Denotes (splice t p r) st' (T.splice p R) := by
  induction p generalizing t T with
  | nil =>
    cases T <;> exact follows_pure (denotes_of_extends hst hR)
  | cons i p ih =>
    cases T with
    | leaf l =>
      have hnode := hst (denotes_leaf_iff.mp hT)
      exact .read_ok (node_of_node? hnode) ⟨_, st', rfl, extends_refl st', rfl⟩
    | app op first rest =>
      obtain ⟨c, cs, hnode, hall⟩ := denotes_app_iff.mp hT
      refine .read_ok (node_of_node? (hst hnode)) ?_
      obtain ⟨hfirst, hrest⟩ := List.forall₂_cons.mp hall
      cases i with
      | zero =>
        refine (ih hfirst).bind fun a A st'' hst' hA => ?_
        exact follows_remake (extends_trans hst hst' hnode)
          (.cons hA (hrest.imp fun _ _ => denotes_of_extends (extends_trans hst hst')))
      | succ i =>
        have hplace := getElem?_rel hrest i
        rw [Tree.splice]
        change Follows Denotes _ st' _
        revert hplace
        rw [show (Node.app op c cs).children[i + 1]? = cs[i]? from List.getElem?_cons_succ]
        generalize cs[i]? = x, rest[i]? = X
        intro hplace
        cases hplace with
        | none => exact ⟨_, st', rfl, extends_refl st', rfl⟩
        | some hX =>
          refine (ih hX).bind fun a A st'' hst' hA => ?_
          have hst'' := extends_trans hst hst'
          exact follows_remake (hst'' hnode) (.cons (denotes_of_extends hst'' hfirst)
            (forall₂_set (hrest.imp fun _ _ => denotes_of_extends hst'') hA i))

end Build

end TypedTerms

/-! ## Whatever is done to the store -/

namespace TypedTerms.TermStore

open Build

variable {α : Type} {st st' : TermStore} {s : Subst} {t r a b v : TermId} {p : List Nat} {n : Nat}
  {A : Ty} {shard : Node → Shard}

/-- The store knows the term. -/
def Knows (st : TermStore) (t : TermId) : Prop := ∃ n, st.node? t = some n

/-- The store knows all terms in the bindings. -/
def KnowsBindings (st : TermStore) (s : Subst) : Prop :=
  ∀ b ∈ s.bindings, st.Knows b.1 ∧ st.Knows b.2

/-- The step answers the same once more, whatever operations come in
between, on whatever terms. -/
def Repeats (st : TermStore) (x : Build α) : Prop :=
  ∀ st', Later (fun _ _ => True) (x.on st).2 st' → (x.on st').1 = (x.on st).1

/-- Whatever operations follow, the terms that the store knows keep their
nodes, and what is asked about them, or made of them, is answered the
same once more. -/
structure Conserves (st : TermStore) : Prop where
  node : ∀ t n, st.node? t = some n →
    ∀ st', Later (fun _ _ => True) st st' → st'.node? t = some n
  ty : ∀ t, st.Knows t → st.Repeats (read (·.ty t))
  check : ∀ t A, st.Knows t → st.Repeats (read fun st => (st.check t A).run)
  freeVars : ∀ t, st.Knows t → st.Repeats (read (·.freeVars t))
  contains : ∀ t v, st.Knows t → st.Repeats (read (·.contains t v))
  symbolCount : ∀ t, st.Knows t → st.Repeats (read (·.symbolCount t))
  matchWith : ∀ n s a b, st.KnowsBindings s → st.Knows a → st.Knows b →
    st.Repeats (read (·.matchWith n s a b))
  unifyWith : ∀ n s a b, st.KnowsBindings s → st.Knows a → st.Knows b →
    st.Repeats (read (·.unifyWith n s a b))
  replace : ∀ s t, st.KnowsBindings s → st.Knows t → st.Repeats (s.replace t)
  simplify : ∀ t, st.Knows t → st.Repeats (simplify t)
  splice : ∀ t p r, st.Knows t → st.Knows r → st.Repeats (splice t p r)

/-- A question that is answered the same in every later store is answered
the same once more. -/
theorem repeats_read {f : TermStore → Except Violation α}
    (h : ∀ st', st.Extends st' → f st' = f st) : st.Repeats (read f) :=
  fun st' later => h st' later.extends

/-- A step that follows one and the same computation in every later store
answers the same once more. -/
theorem repeats_of_follows {x : Build TermId} {e : Except Violation Tree}
    (h : ∀ st', st.Extends st' → Follows Denotes x st' e) : st.Repeats x :=
  fun _ later => fst_on_eq_of_follows h later.extends

/-- In a store whose terms all stand for trees a known term does. -/
theorem Knows.unfolds (ht : st.Knows t) (hs : st.Unfolded) : st.Unfolds t :=
  have ⟨_, hn⟩ := ht
  hs hn

/-- In such a store all terms in a known chain stand for trees. -/
theorem KnowsBindings.knowsChain (h : st.KnowsBindings s) (hs : st.Unfolded) : st.KnowsChain s :=
  fun b hb => (h b hb).imp (·.unfolds hs) (·.unfolds hs)

/-- A store that knows only terms that stand for trees conserves what is
said of them. -/
theorem conserves_of_unfolded (hs : st.Unfolded) : st.Conserves where
  node _ _ hn _ later := later.extends hn
  ty _ ht := repeats_read fun _ hst => ty_eq_of_extends hst (ht.unfolds hs)
  check _ A ht := repeats_read fun _ hst =>
    congrArg ExceptT.run (check_eq_of_extends hst (ht.unfolds hs) A)
  freeVars _ ht := repeats_read fun _ hst => freeVars_eq_of_extends hst (ht.unfolds hs)
  contains _ v ht := repeats_read fun _ hst => contains_eq_of_extends hst (ht.unfolds hs) v
  symbolCount _ ht := repeats_read fun _ hst => symbolCount_eq_of_extends hst (ht.unfolds hs)
  matchWith n _ _ _ hb hx hy := repeats_read fun _ hst =>
    matchWith_eq_of_extends hst (hb.knowsChain hs) (hx.unfolds hs) (hy.unfolds hs) n
  unifyWith n _ _ _ hb hx hy := repeats_read fun _ hst =>
    unifyWith_eq_of_extends hst (hb.knowsChain hs) (hx.unfolds hs) (hy.unfolds hs) n
  replace _ _ hb ht :=
    have ⟨_, he⟩ := exists_follows_replace (hb.knowsChain hs).knowsValues (ht.unfolds hs)
    repeats_of_follows he
  simplify _ ht :=
    have ⟨_, hT⟩ := ht.unfolds hs
    repeats_of_follows fun _ hst => follows_simplify (denotes_of_extends hst hT)
  splice _ _ _ ht hr :=
    have ⟨_, hT⟩ := ht.unfolds hs
    have ⟨_, hR⟩ := hr.unfolds hs
    repeats_of_follows fun _ hst => follows_splice hT hR hst

/-- Store growth is conservative. In a store that is reached by operations
on terms that it knows, every term keeps its node whatever operations
follow, those that stop at a broken contract included; and what was
answered about terms of the store, or made of them, is answered the same
once more, the same terms where terms are answered. -/
theorem Reached.conserves (h : Reached shard st) : st.Conserves := conserves_of_unfolded h.unfolded

/-- From a reached store every operation on terms that the store knows
leads to a reached store, also where it stops at a broken contract. -/
theorem Reached.operation (h : Reached shard st) (o : Operation)
    (given : ∀ c ∈ o.operands, st.Knows c) : Reached shard (o.build.on st).2 :=
  h.trans (.operation o fun c hc => (given c hc).unfolds h.unfolded)

/-- What calls of the makers have made is reached by operations. -/
theorem Run.reached {calls : List (Maker × TermId)} (h : Run shard calls st) :
    Reached shard st := by
  induction h with
  | start => exact .refl _
  | @made calls st st' m t h known hm ih =>
    have hst' : st' = (m.build.on st).2 := by rw [hm]
    rw [hst']
    exact ih.operation (.make m) fun c hc =>
      raw_lt_size_iff.mp ((h.ordered.answered_iff c).mp (known c hc))
  | refused _ hm ih => rwa [Maker.eq_of_refused hm]

/-- Two variables, a function and its calls are made, and then the call of
the function with the first variable is put under a quantifier. -/
theorem Reached.conserves_sample :
    ∃ st, Reached (fun _ => ⟨3, by decide⟩) st ∧ st.Knows ⟨3⟩ ∧ st.Conserves := by
  obtain ⟨st, hrun⟩ := exists_run_sampleCalls
  have hknows : st.Knows ⟨3⟩ :=
    raw_lt_size_iff.mp ((hrun.ordered.answered_iff ⟨3⟩).mp (by decide))
  have hreached :=
    hrun.reached.operation (.quantify ⟨3⟩) (List.forall_mem_singleton.mpr hknows)
  have hlater : Later (fun _ _ => True) st ((quantify ⟨3⟩).on st).2 :=
    .operation (.quantify ⟨3⟩) fun _ _ => trivial
  exact ⟨_, hreached, hknows.imp fun _ hn => hlater.extends hn, Reached.conserves hreached⟩

end TypedTerms.TermStore
