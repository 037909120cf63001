import TypedTerms.Proofs.Fraction.Arithmetic
import TypedTerms.Proofs.Store.Run

/-!
# Terms are equal as their numbers are

Equality of terms is equality of trees, and it is decided by comparing
two numbers. What makes two leaves the same is said without the numbers
that a store gives to its leaves: literals are the same by their value,
distinct objects by their name, and variables, globals and functions by
the call that made them (`SameLeaf`). Trees are then the same when they
have one shape and the same leaves (`Tree.Alike`).

The main result, `Run.canonical`, holds after every run of makers, for
any assignment of nodes to shards: two terms are equal exactly when their
trees are the same.
-/

namespace TypedTerms

namespace Tree

variable {R : Leaf → Leaf → Prop} {T U : Tree}

/-- Two trees of one shape, with related leaves at the same places. -/
inductive Alike (R : Leaf → Leaf → Prop) : Tree → Tree → Prop where
  | leaf {l k : Leaf} (h : R l k) : Alike R (.leaf l) (.leaf k)
  | app {op : Operator} {first first' : Tree} {rest rest' : List Tree}
    (children : List.Forall₂ (Alike R) (first :: rest) (first' :: rest')) :
    Alike R (.app op first rest) (.app op first' rest')

/-- A tree is alike to itself if its leaves are related to themselves. -/
theorem alike_refl (h : ∀ l ∈ T.leaves, R l l) : T.Alike R T := by
  induction T with
  | leaf l => exact .leaf (h l (mem_leaves_leaf.mpr rfl))
  | app op first rest ih =>
    refine .app (List.forall₂_same.mpr fun c hc => ih c hc fun l hl => ?_)
    exact h l (mem_leaves_app.mpr ⟨c, hc, hl⟩)

/-- Trees that are alike by equal leaves are equal. -/
theorem eq_of_alike (hR : ∀ l k, R l k → l = k) (h : T.Alike R U) : T = U := by
  induction T generalizing U with
  | leaf l =>
    cases h with
    | leaf hlk => rw [hR _ _ hlk]
  | app op first rest ih =>
    cases h with
    | @app _ _ first' _ rest' children =>
      have heq : first :: rest = first' :: rest' := by
        rw [← List.forall₂_eq_eq_eq]
        rw [List.forall₂_iff_zip] at children ⊢
        exact ⟨children.1, fun hmem => ih _ (List.of_mem_zip hmem).1 (children.2 hmem)⟩
      cases heq
      rfl

end Tree

namespace TermStore

variable {calls : List (Maker × TermId)} {st st' : TermStore} {shard : Node → Shard}
  {l k : Leaf} {a b t u : TermId} {T U : Tree}

/-- Two leaves of the store that are the same: literals of one value,
distinct objects of one name, and leaves that one call for a fresh leaf
has made. -/
inductive SameLeaf (calls : List (Maker × TermId)) (st : TermStore) : Leaf → Leaf → Prop where
  | boolean (b : Bool) : SameLeaf calls st (.boolean b) (.boolean b)
  | integer (n : Int) : SameLeaf calls st (.integer n) (.integer n)
  | fraction (s : FractionSort) {q r : Fraction} (value : q.toRat = r.toRat) :
    SameLeaf calls st (.fraction s q) (.fraction s r)
  | object (name : Symbol) : SameLeaf calls st (.object name) (.object name)
  | made {i : Nat} {c : Maker × TermId} {l k : Leaf} (call : calls[i]? = some c)
    (fresh : c.1.isFresh = true) (left : st.node? c.2 = some (.leaf l))
    (right : st.node? c.2 = some (.leaf k)) : SameLeaf calls st l k

/-- Leaves that are the same by value, name or call are equal. -/
theorem SameLeaf.eq (h : SameLeaf calls st l k) : l = k := by
  cases h with
  | boolean | integer | object => rfl
  | fraction s value => rw [Fraction.toRat_injective value]
  | made _ _ left right =>
    rw [left] at right
    cases right
    rfl

/-- Every leaf of the store is the same as itself: fresh ones have been made
by some call. -/
theorem Ordered.sameLeaf_refl (h : Ordered calls st) (hl : st.node? t = some (.leaf l)) :
    SameLeaf calls st l l := by
  cases hi : l.identity? with
  | some i =>
    obtain ⟨k, c, hc, hfresh, rfl⟩ := h.made_by t l i hl hi
    exact .made hc hfresh hl hl
  | none =>
    cases l with
    | boolean b => exact .boolean b
    | integer n => exact .integer n
    | fraction s q => exact .fraction s rfl
    | object name => exact .object name
    | var | global | function => cases hi

/-- Terms that stand for trees are equal exactly when the trees have one
shape and the same leaves. -/
theorem Ordered.eq_iff_alike (h : Ordered calls st) (hT : st.Denotes t T) (hU : st.Denotes u U) :
    t = u ↔ T.Alike (SameLeaf calls st) U := by
  constructor
  · rintro rfl
    rw [denotes_unique hU hT]
    refine Tree.alike_refl fun l hl => ?_
    obtain ⟨x, hx, -⟩ := hT.exists_leaf hl
    exact h.sameLeaf_refl hx
  · intro halike
    rw [Tree.eq_of_alike (fun _ _ => SameLeaf.eq) halike] at hT
    exact denotes_inj hT hU

/-- What the numbers of the terms that calls have answered say. -/
structure Canonical (calls : List (Maker × TermId)) (st : TermStore) : Prop where
  /-- Terms unfold to trees, and are equal exactly when these have one
  shape and the same leaves. -/
  eq_iff_alike : ∀ t ∈ calls.map Prod.snd, ∀ u ∈ calls.map Prod.snd, ∃ T U,
    st.Denotes t T ∧ st.Denotes u U ∧ (t = u ↔ T.Alike (SameLeaf calls st) U)
  /-- A call for a variable, a global or a function answers a term that
  no earlier call has answered. -/
  fresh : calls.Pairwise fun earlier later => later.1.isFresh = true → earlier.2 ≠ later.2
  /-- The terms are numbered from zero without a gap. -/
  dense : ∀ t, t ∈ calls.map Prod.snd ↔ t.raw < st.size
  /-- Children are numbered before their parents. -/
  child_lt : ∀ t n, st.node? t = some n → ∀ c ∈ n.children, c.raw < t.raw

/-- After every run of makers, over any assignment of nodes to shards,
terms are equal exactly when they unfold to the same tree. -/
theorem Run.canonical (h : Run shard calls st) : Canonical calls st where
  eq_iff_alike t ht u hu := by
    have hord := h.ordered
    obtain ⟨T, hT⟩ := hord.exists_denotes ((hord.answered_iff t).mp ht)
    obtain ⟨U, hU⟩ := hord.exists_denotes ((hord.answered_iff u).mp hu)
    exact ⟨T, U, hT, hU, hord.eq_iff_alike hT hU⟩
  fresh := h.ordered.fresh
  dense := h.ordered.answered_iff
  child_lt := h.ordered.child_lt

/-- Two variables, a function, its calls with either variable, one of them
twice, and one as a rational and as a real number. -/
def sampleCalls : List (Maker × TermId) :=
  [(.var .individual, ⟨0⟩), (.var .individual, ⟨1⟩),
    (.function ⟨0⟩ .individual [.individual], ⟨2⟩), (.call ⟨2⟩ [⟨0⟩], ⟨3⟩),
    (.call ⟨2⟩ [⟨1⟩], ⟨4⟩), (.app (.operator .call) [⟨2⟩, ⟨0⟩], ⟨3⟩),
    (.fraction .rational (.ofInt 1), ⟨5⟩), (.fraction .real (.ofInt 1), ⟨6⟩)]

/-- Over an assignment to one shard the calls make a store. -/
theorem exists_run_sampleCalls : ∃ st, Run (fun _ => ⟨3, by decide⟩) sampleCalls st := by
  have hstart : Run (fun _ => ⟨3, by decide⟩) [] (sharded fun _ => ⟨3, by decide⟩) := .start
  obtain ⟨_, h⟩ := Run.next (.var .individual) ⟨hstart, rfl, rfl⟩ (by decide) rfl
  obtain ⟨_, h⟩ := Run.next (.var .individual) h (by decide) rfl
  obtain ⟨_, h⟩ := Run.next (.function ⟨0⟩ .individual [.individual]) h (by decide) rfl
  obtain ⟨_, h⟩ := Run.next (.call ⟨2⟩ [⟨0⟩]) h (by decide) rfl
  obtain ⟨_, h⟩ := Run.next (.call ⟨2⟩ [⟨1⟩]) h (by decide) rfl
  obtain ⟨_, h⟩ := Run.next (.app (.operator .call) [⟨2⟩, ⟨0⟩]) h (by decide) rfl
  obtain ⟨_, h⟩ := Run.next (.fraction .rational (.ofInt 1)) h (by decide) rfl
  obtain ⟨_, h⟩ := Run.next (.fraction .real (.ofInt 1)) h (by decide) rfl
  exact ⟨_, h.1⟩

/-- The run of these calls: the fourth and the sixth answer one term, the
two ones are two terms. -/
theorem Run.canonical_sample :
    ∃ st, Run (fun _ => ⟨3, by decide⟩) sampleCalls st ∧ Canonical sampleCalls st :=
  have ⟨st, h⟩ := exists_run_sampleCalls
  ⟨st, h, Run.canonical h⟩

/-- An implication is made by two calls, one for the negation and one for
the disjunction. -/
theorem Run.implies (h : Run shard calls st) (ha : a ∈ calls.map Prod.snd)
    (hb : b ∈ calls.map Prod.snd) (ht : (Build.implies a b).on st = (.ok t, st')) :
    ∃ n, Run shard
      ((calls ++ [(.app (.operator .not) [a], n)]) ++ [(.app (.operator .or) [n, b], t)]) st' := by
  have hnot := h.made (m := .app (.operator .not) [a]) (List.forall_mem_singleton.mpr ha) rfl
  refine ⟨_, hnot.made (m := .app (.operator .or) [_, b]) ?_ ht⟩
  intro c hc
  rw [List.map_append, List.mem_append]
  rcases List.mem_cons.mp hc with rfl | hc
  · exact .inr (List.mem_singleton.mpr rfl)
  · exact .inl (List.mem_singleton.mp hc ▸ hb)

end TermStore

end TypedTerms
