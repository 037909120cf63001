import TypedTerms.Proofs.Renaming
import TypedTerms.Proofs.Tree.Folding

/-!
# Folding a term folds its tree

A step on the store follows a computation on trees when the two end alike:
both answer, and the answers are related through the store that the step
leaves, or both stop at the same broken contract. The store only grows.
Steps that follow can be put together like the steps themselves, so that
simplifying a term follows simplifying its tree (`follows_simplify`),
whether the term is well typed or not.
-/

namespace TypedTerms

open TermStore

namespace Build

variable {α β γ δ : Type} {st st' : TermStore} {t x y : TermId} {T X Y : Tree}
  {R : TermStore → α → β → Prop} {S : TermStore → γ → δ → Prop}

/-- The step ends like the computation, on a store that has only grown. -/
def Follows (R : TermStore → α → β → Prop) (x : Build α) (st : TermStore)
    (e : Except Violation β) : Prop :=
  ∃ r st', x.on st = (r, st') ∧ st.Extends st' ∧ EndAlike (R st') r e

theorem follows_pure {a : α} {b : β} (h : R st a b) : Follows R (pure a) st (.ok b) :=
  ⟨.ok a, st, rfl, extends_refl st, h⟩

/-- Steps follow a computation when the first does and the rest does so
after related answers, on whatever was made. -/
theorem Follows.bind {f : Build α} {e : Except Violation β} {g : α → Build γ}
    {k : β → Except Violation δ} (h : Follows R f st e)
    (hg : ∀ a b st', st.Extends st' → R st' a b → Follows S (g a) st' (k b)) :
    Follows S (f >>= g) st (e >>= k) := by
  obtain ⟨r, st₁, hr, hst₁, halike⟩ := h
  match r, e, halike with
  | .error v, .error _, rfl => exact ⟨.error v, st₁, by rw [on_bind, hr], hst₁, rfl⟩
  | .ok a, .ok b, hab =>
    obtain ⟨s, st₂, hs, hst₂, halike⟩ := hg a b st₁ hst₁ hab
    exact ⟨s, st₂, (on_bind_ok hr).trans hs, extends_trans hst₁ hst₂, halike⟩

/-- A question that the store answers like the computation. -/
theorem Follows.read {f : TermStore → Except Violation α} {m : Except Violation α}
    {g : α → Build γ} {k : α → Except Violation δ} (h : f st = m)
    (hg : ∀ a, Follows S (g a) st (k a)) : Follows S (Build.read f >>= g) st (m >>= k) := by
  cases m with
  | error v => exact ⟨.error v, st, by rw [on_bind, on_read, h], extends_refl st, rfl⟩
  | ok a =>
    obtain ⟨r, st', hr, hg⟩ := hg a
    exact ⟨r, st', (on_bind_ok (by rw [on_read, h])).trans hr, hg⟩

/-- A question that the store answers, about which the computation does
not ask. -/
theorem Follows.read_ok {f : TermStore → Except Violation α} {a : α} {g : α → Build γ}
    {e : Except Violation δ} (h : f st = .ok a) (hg : Follows S (g a) st e) :
    Follows S (Build.read f >>= g) st e := by
  obtain ⟨r, st', hr, hg⟩ := hg
  exact ⟨r, st', (on_bind_ok (by rw [on_read, h])).trans hr, hg⟩

/-- Steps that follow computations of trees one by one, however the store
has grown meanwhile, do so together. -/
theorem follows_mapM {g : TermId → Build TermId} {G : Tree → Except Violation Tree}
    {ts : List TermId} {Ts : List Tree}
    (h : List.Forall₂ (fun t T => ∀ st', st.Extends st' → Follows Denotes (g t) st' (G T)) ts Ts)
    (hst : st.Extends st') :
    Follows (fun st => List.Forall₂ st.Denotes) (ts.mapM g) st' (Ts.mapM G) := by
  induction h generalizing st' with
  | nil => exact follows_pure .nil
  | cons hg _ ih =>
    rw [List.mapM_cons, List.mapM_cons]
    refine (hg st' hst).bind fun a A st₁ hst₁ hA => ?_
    refine (ih (extends_trans hst hst₁)).bind fun as As st₂ hst₂ hAs => ?_
    exact follows_pure (.cons (denotes_of_extends hst₂ hA) hAs)

/-! ## Literals -/

/-- Where the computation has a tree, the step has a term for it. -/
abbrev DenotesOption (st : TermStore) : Option TermId → Option Tree → Prop :=
  Option.Rel st.Denotes

theorem follows_leaf (l : Leaf) : Follows Denotes (intern (.leaf l)) st (.ok (.leaf l)) :=
  ⟨_, _, on_intern _ st, extends_intern st _, denotes_leaf_iff.mpr (node?_intern st _)⟩

/-- A step that yields a tree yields it as an answer that may be missing. -/
theorem follows_some {f : Build TermId} (h : Follows Denotes f st (.ok T)) :
    Follows DenotesOption (do return some (← f)) st (.ok (some T)) :=
  h.bind fun _ _ _ _ hT => follows_pure (.some hT)

theorem follows_boolean? (b : Option Bool) :
    Follows DenotesOption (boolean? b) st (.ok (b.map Tree.boolean)) := by
  cases b with
  | none => exact follows_pure .none
  | some b => exact follows_some (follows_leaf _)

theorem follows_numeral? (n : Option Numeral) :
    Follows DenotesOption (numeral? n) st (.ok (n.map Tree.literal)) := by
  cases n with
  | none => exact follows_pure .none
  | some n => cases n <;> exact follows_some (follows_leaf _)

/-! ## Operands -/

/-- A question about the leaf of a term is one about the leaf of the tree.
-/
theorem ofLeaf_of_denotes {other : α} {f : Leaf → α} (h : st.Denotes x X) :
    st.ofLeaf x other f = .ok (X.ofLeaf other f) := by
  obtain ⟨n, hnode, -⟩ := h.node
  rw [TermStore.ofLeaf, node_of_node? hnode]
  cases X with
  | leaf l => cases (denotes_leaf_iff.mp h).symm.trans hnode; rfl
  | app op first rest =>
    obtain ⟨c, cs, happ, -⟩ := denotes_app_iff.mp h
    cases happ.symm.trans hnode
    rfl

/-- An operation on two terms that are numerals is the operation on the
trees. -/
theorem follows_numerals {f : Numeral → Numeral → Option α} (hx : st.Denotes x X)
    (hy : st.Denotes y Y) :
    Follows (fun _ => Eq) (numerals x y f) st (.ok (Tree.numerals X Y f)) := by
  refine .read_ok (ofLeaf_of_denotes hx) ?_
  unfold Tree.numerals Tree.numeral?
  cases X.ofLeaf none Leaf.numeral? with
  | none => exact follows_pure rfl
  | some a =>
    refine .read_ok (ofLeaf_of_denotes hy) ?_
    cases Y.ofLeaf none Leaf.numeral? with
    | none => exact follows_pure rfl
    | some b => exact follows_pure rfl

/-! ## Rules -/

/-- An equation between terms is folded as the one between their trees;
terms are the same when their trees are. -/
theorem follows_foldEquals (hx : st.Denotes x X) (hy : st.Denotes y Y) :
    Follows DenotesOption (foldEquals x y) st (.ok (Tree.foldEquals X Y)) := by
  have hXY : x = y ↔ X = Y :=
    ⟨fun h => denotes_unique hx (h ▸ hy), fun h => denotes_inj hx (h ▸ hy)⟩
  unfold foldEquals Tree.foldEquals
  by_cases h : x = y
  · rw [if_pos h, if_pos (hXY.mp h)]
    exact follows_some (follows_leaf _)
  · rw [if_neg h, if_neg (fun hc => h (hXY.mpr hc))]
    refine .read_ok (ofLeaf_of_denotes hx) ?_
    unfold Tree.isConst
    cases X.ofLeaf false Leaf.isConst with
    | false => exact follows_pure .none
    | true =>
      refine .read_ok (ofLeaf_of_denotes hy) ?_
      cases Y.ofLeaf false Leaf.isConst with
      | false => exact follows_pure .none
      | true => exact follows_some (follows_leaf _)

/-- A comparison of terms is folded as that of their trees. -/
theorem follows_foldCompare {test : Ordering → Bool} (hx : st.Denotes x X)
    (hy : st.Denotes y Y) :
    Follows DenotesOption (foldCompare x y test) st (.ok (Tree.foldCompare X Y test)) :=
  (follows_numerals hx hy).bind (k := fun b => .ok (b.map Tree.boolean))
    fun _ _ _ _ h => h ▸ follows_boolean? _

/-- An operation on numerals makes the literal that it makes of the trees.
-/
theorem follows_combine {f : Numeral → Numeral → Option Numeral} (hx : st.Denotes x X)
    (hy : st.Denotes y Y) : Follows DenotesOption (do numeral? (← numerals x y f)) st
      (.ok ((Tree.numerals X Y f).map Tree.literal)) :=
  (follows_numerals hx hy).bind (k := fun n => .ok (n.map Tree.literal))
    fun _ _ _ _ h => h ▸ follows_numeral? _

/-- An integral division of terms is folded as that of their trees. -/
theorem follows_foldIntegers {op : Int → Int → Int} (hx : st.Denotes x X)
    (hy : st.Denotes y Y) :
    Follows DenotesOption (foldIntegers x y op) st (.ok (Tree.foldIntegers X Y op)) := by
  refine .read_ok (ofLeaf_of_denotes hx) ?_
  unfold Tree.foldIntegers Tree.integer?
  cases X.ofLeaf none _ with
  | none => exact follows_pure .none
  | some a =>
    refine .read_ok (ofLeaf_of_denotes hy) ?_
    cases Y.ofLeaf none _ with
    | none => exact follows_pure .none
    | some b =>
      show Follows DenotesOption (if b = 0 then return none else return some (← integer (op a b)))
        st (.ok (if b = 0 then none else some (Tree.literal (.integer (op a b)))))
      split
      · exact follows_pure .none
      · exact follows_some (follows_leaf _)

/-- A conversion to a fraction is folded as over the tree, and stops where
it stops there. -/
theorem follows_foldToFraction {s : FractionSort} (hx : st.Denotes x X) :
    Follows DenotesOption (foldToFraction x s) st (Tree.foldToFraction X s) := by
  refine .read (ty_of_denotes hx) fun A => ?_
  split
  · exact follows_pure (.some hx)
  · exact .read_ok (ofLeaf_of_denotes hx) (follows_numeral? _)

/-- A conversion to an integer is folded as over the tree, and stops where
it stops there. -/
theorem follows_foldToInteger (hx : st.Denotes x X) :
    Follows DenotesOption (foldToInteger x) st (Tree.foldToInteger X) := by
  refine .read (ty_of_denotes hx) fun A => ?_
  split
  · exact follows_pure (.some hx)
  · exact .read_ok (ofLeaf_of_denotes hx) (follows_numeral? _)

/-- A rounding of a term is folded as that of its tree. -/
theorem follows_foldRounding {r : Rounding} (hx : st.Denotes x X) :
    Follows DenotesOption (foldRounding x r) st (.ok (Tree.foldRounding X r)) := by
  refine .read_ok (ofLeaf_of_denotes hx) ?_
  unfold Tree.foldRounding Tree.numeral?
  cases X.ofLeaf none Leaf.numeral? with
  | none => exact follows_pure .none
  | some n =>
    cases n with
    | integer n => exact follows_pure .none
    | fraction s q => exact follows_some (follows_leaf _)

/-- The test for an integer is folded as over the tree, and stops where it
stops there. -/
theorem follows_foldIsInteger (hx : st.Denotes x X) :
    Follows DenotesOption (foldIsInteger x) st (Tree.foldIsInteger X) := by
  refine .read (ty_of_denotes hx) fun A => ?_
  split
  · exact follows_some (follows_leaf _)
  · exact .read_ok (ofLeaf_of_denotes hx) (follows_boolean? _)

/-- The test for a rational is folded as over the tree, and stops where it
stops there. -/
theorem follows_foldIsRational (hx : st.Denotes x X) :
    Follows DenotesOption (foldIsRational x) st (Tree.foldIsRational X) := by
  refine .read (ty_of_denotes hx) fun A => ?_
  split
  · exact follows_some (follows_leaf _)
  · exact .read_ok (ofLeaf_of_denotes hx) (follows_boolean? _)

/-- The second child of a term stands for that of the tree, and is missing
where that is. -/
theorem follows_second {op : Operator} {xs : List TermId} {rest : List Tree}
    (hnode : st.node? t = some (.app op x xs)) (hrest : List.Forall₂ st.Denotes xs rest) :
    Follows Denotes (read (·.child t 1)) st (Tree.second op rest) := by
  refine ⟨st.child t 1, st, on_read _ st, extends_refl st, ?_⟩
  rw [child, node_of_node? hnode]
  cases hrest with
  | nil => rfl
  | cons hy _ => exact hy

/-- A rule for two operands, behind the question for the second. -/
theorem follows_binary {op : Operator} {xs : List TermId} {rest : List Tree}
    {f : TermId → Build (Option TermId)} {F : Tree → Option Tree}
    (hnode : st.node? t = some (.app op x xs)) (hx : st.Denotes x X)
    (hrest : List.Forall₂ st.Denotes xs rest)
    (hf : ∀ {y Y st'}, st'.Denotes x X → st'.Denotes y Y →
      Follows DenotesOption (f y) st' (.ok (F Y))) :
    Follows DenotesOption (do f (← read (·.child t 1))) st
      (do return F (← Tree.second op rest)) :=
  (follows_second hnode hrest).bind fun _ _ _ hst hy => hf (denotes_of_extends hst hx) hy

/-- Whatever the operator, a node over terms is folded as the node over
their trees. -/
theorem follows_foldNode {op : Operator} {xs : List TermId} {rest : List Tree}
    (hnode : st.node? t = some (.app op x xs)) (hx : st.Denotes x X)
    (hrest : List.Forall₂ st.Denotes xs rest) :
    Follows DenotesOption (foldNode t op x) st (Tree.foldNode op X rest) := by
  cases op with
  | equals => exact follows_binary hnode hx hrest follows_foldEquals
  | less | lessEquals => exact follows_binary hnode hx hrest follows_foldCompare
  | add | subtract | multiply =>
    exact follows_binary hnode hx hrest follows_combine
  | quotient | remainder =>
    exact follows_binary hnode hx hrest follows_foldIntegers
  | divide =>
    refine .read_ok (ofLeaf_of_denotes hx) ?_
    unfold Tree.foldNode Tree.foldDivide Tree.fraction?
    cases X.ofLeaf none _ with
    | none => exact follows_pure .none
    | some q =>
      exact follows_binary (F := fun Y => (Tree.numerals X Y Numeral.divide?).map Tree.literal)
        hnode hx hrest follows_combine
  | negate => exact .read_ok (ofLeaf_of_denotes hx) (follows_numeral? _)
  | toInteger => exact follows_foldToInteger hx
  | toRational | toReal => exact follows_foldToFraction hx
  | rounding => exact follows_foldRounding hx
  | isInteger => exact follows_foldIsInteger hx
  | isRational => exact follows_foldIsRational hx
  | universal | existential | and | or | not | equivalent | call => exact follows_pure .none

/-- Folding a term answers what refolding its tree does. -/
theorem follows_fold {op : Operator} {xs : List TermId} {rest : List Tree}
    (hnode : st.node? t = some (.app op x xs))
    (hall : List.Forall₂ st.Denotes (x :: xs) (X :: rest)) :
    Follows Denotes (fold t) st (Tree.refold op X rest) := by
  refine .read_ok (node_of_node? hnode) ?_
  obtain ⟨hx, hrest⟩ := List.forall₂_cons.mp hall
  refine (follows_foldNode hnode hx hrest).bind fun a A st' hst' h => follows_pure ?_
  cases h with
  | some h => exact h
  | none => exact denotes_of_extends hst' (denotes_app_iff.mpr ⟨x, xs, hnode, hall⟩)

/-- Rebuilding a node over new children and folding it is refolding the tree
over theirs. -/
theorem follows_remake_fold {op : Operator} {c : TermId} {cs xs : List TermId}
    {rest : List Tree} (hnode : st.node? t = some (.app op c cs))
    (hall : List.Forall₂ st.Denotes (x :: xs) (X :: rest)) :
    Follows Denotes (do fold (← remake t (x :: xs))) st (Tree.refold op X rest) := by
  have hst := extends_intern st (.app op x xs)
  obtain ⟨r, st', hr, hst', halike⟩ := follows_fold (node?_intern st (.app op x xs))
    (hall.imp fun _ _ hc => denotes_of_extends hst hc)
  exact ⟨r, st', (on_bind_ok (on_remake hnode)).trans hr, extends_trans hst hst', halike⟩

/-- Within as many levels as the tree has, simplifying a term follows
simplifying its tree. -/
theorem follows_simplifyWithin {d : Nat} (hT : st.Denotes t T) (hd : T.depth ≤ d)
    (hst : st.Extends st') : Follows Denotes (simplifyWithin d t) st' T.simplify := by
  refine hT.within_induct (P := fun d t T => ∀ st', st.Extends st' →
    Follows Denotes (simplifyWithin d t) st' T.simplify) hd ?_ ?_ st' hst
  · intro d u l hu st' hst
    have hnode := hst hu
    have hsame : (mapChildren (simplifyWithin d) u : Build TermId).on st' = (.ok u, st') := by
      rw [mapChildren, on_bind_ok (on_children hnode)]
      rfl
    refine ⟨.ok u, st', ?_, extends_refl st', denotes_leaf_iff.mpr hnode⟩
    rw [simplifyWithin, on_bind_ok hsame, fold, on_bind, on_read, node_of_node? hnode]
    rfl
  · intro d u op c cs first rest hu _ hsteps st' hst
    obtain ⟨hfirst, hrest⟩ := List.forall₂_cons.mp hsteps
    have hrun : (simplifyWithin (d + 1) u).on st' = (do
        let a ← simplifyWithin d c
        let as ← cs.mapM (simplifyWithin d)
        fold (← remake u (a :: as)) : Build TermId).on st' := by
      rw [simplifyWithin, mapChildren, bind_assoc, on_bind_ok (on_children (hst hu))]
      show (((c :: cs).mapM (simplifyWithin d) >>= remake u) >>= fold).on st' = _
      simp only [List.mapM_cons, bind_assoc, pure_bind]
    have hbind := (hfirst st' hst).bind fun a A st₁ hst₁ hA =>
      (follows_mapM hrest (extends_trans hst hst₁)).bind fun as As st₂ hst₂ hAs =>
        follows_remake_fold (extends_trans (extends_trans hst hst₁) hst₂ hu)
          (.cons (denotes_of_extends hst₂ hA) hAs)
    obtain ⟨r, st'', hr, hend⟩ := hbind
    exact ⟨r, st'', hrun.trans hr, by rwa [Tree.simplify_app]⟩

/-- Simplifying a term follows simplifying its tree. -/
theorem follows_simplify (hT : st.Denotes t T) :
    Follows Denotes (simplify t) st T.simplify :=
  .read_ok (f := fun st => .ok st.growingDepthLimit) rfl
    (follows_simplifyWithin hT hT.depth_le_growingDepthLimit (extends_refl st))

/-- Simplifying a term yields what its tree is simplified to. -/
theorem yields_simplify {R : Tree} (hT : st.Denotes t T) (hR : T.simplify = .ok R) :
    Yields (simplify t) st R := by
  obtain ⟨r, st', hr, hst, halike⟩ := follows_simplify hT
  rw [hR] at halike
  obtain ⟨r, rfl, hden⟩ := halike.exists_ok
  exact ⟨r, st', hr, hst, hden⟩

end Build

end TypedTerms
