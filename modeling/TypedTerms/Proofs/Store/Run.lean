import TypedTerms.Proofs.Listed
import TypedTerms.Proofs.Reading
import TypedTerms.Store.Build

/-!
# Runs of makers

A store is made by calls of the makers, one after the other, from the
store without terms. `Run` lists the calls that answered a term, with the
term, in the order in which they were made. A call may be given the terms
that earlier calls have answered, and no others.

Every call makes one node or refuses without touching the store
(`Maker.on_eq`), so what one call preserves is read off interning one
node. What a run preserves is `Ordered`: terms are numbered without a
gap, children before their parents, and a call for a fresh leaf answers a
term that no call has answered before.
-/

namespace TypedTerms

/-- A call of one of the makers. -/
inductive Maker where
  | boolean (value : Bool)
  | integer (value : Int)
  | fraction (ty : Ty) (value : Fraction)
  | object (name : Symbol)
  | var (ty : Ty)
  | global (name : Symbol) (ty : Ty)
  | function (name : Symbol) (result : Ty) (params : List Ty)
  | app (tag : Tag) (children : List TermId)
  | call (f : TermId) (args : List TermId)

/-- The number that tells a variable, a global or a function from all
other leaves. -/
def Leaf.identity? : Leaf → Option Nat
  | .var id _ => some id
  | .global id _ _ => some id
  | .function id _ _ _ => some id
  | _ => none

namespace Maker

/-- What the call does. -/
def build : Maker → Build TermId
  | .boolean b => Build.boolean b
  | .integer n => Build.integer n
  | .fraction ty q => Build.fractionOf ty q
  | .object name => Build.object name
  | .var ty => Build.var ty
  | .global name ty => Build.global name ty
  | .function name result params => Build.function name result params
  | .app tag children => Build.app tag children
  | .call f args => Build.call f args

/-- The terms that the call is given. -/
def operands : Maker → List TermId
  | .app _ children => children
  | .call f args => f :: args
  | _ => []

/-- Does the call make a leaf that is told apart by its number? -/
def isFresh : Maker → Bool
  | .var _ | .global .. | .function .. => true
  | _ => false

/-- The node that the call makes when `i` is the next number of a fresh
leaf, unless it refuses. -/
def node? (i : Nat) : Maker → Option Node
  | .boolean b => some (.leaf (.boolean b))
  | .integer n => some (.leaf (.integer n))
  | .fraction ty q => (FractionSort.ofTy? ty).map fun s => .leaf (.fraction s q)
  | .object name => some (.leaf (.object name))
  | .var ty => some (.leaf (.var i ty))
  | .global name ty => some (.leaf (.global i name ty))
  | .function name result params => some (.leaf (.function i name result params))
  | .app (.operator op) (first :: rest) => some (.app op first rest)
  | .app .. => none
  | .call f (arg :: args) => some (.app .call f (arg :: args))
  | .call _ [] => none

variable {m : Maker} {st : TermStore} {n : Node} {i : Nat}

/-- A call makes one node, counting up if it is for a fresh leaf, or
refuses and leaves the store as it is. -/
theorem on_eq (m : Maker) (st : TermStore) :
    (∃ n, m.node? st.nextLeaf = some n ∧ m.build.on st =
      (.ok (st.intern n).1,
        { (st.intern n).2 with nextLeaf := st.nextLeaf + if m.isFresh then 1 else 0 })) ∨
    m.node? st.nextLeaf = none ∧ ∃ v, m.build.on st = (.error v, st) := by
  cases m with
  | boolean | integer | object | var | global | function => exact .inl ⟨_, rfl, rfl⟩
  | fraction ty q =>
    cases h : FractionSort.ofTy? ty with
    | none =>
      refine .inr ⟨by rw [node?, h]; rfl, .fractionOfType ty, ?_⟩
      simp only [build, Build.fractionOf, h]
      rfl
    | some s =>
      refine .inl ⟨.leaf (.fraction s q), by rw [node?, h]; rfl, ?_⟩
      simp only [build, Build.fractionOf, h]
      rfl
  | app tag children =>
    cases tag with
    | leaf l => exact .inr ⟨rfl, .notOperator l, rfl⟩
    | operator op =>
      cases children with
      | nil => exact .inr ⟨rfl, .noChildren op, rfl⟩
      | cons first rest => exact .inl ⟨_, rfl, rfl⟩
  | call f args =>
    cases args with
    | nil => exact .inr ⟨rfl, .noArguments, rfl⟩
    | cons arg args => exact .inl ⟨_, rfl, rfl⟩

/-- A call that refuses leaves the store as it is. -/
theorem eq_of_refused {st' : TermStore} {v : Violation} (h : m.build.on st = (.error v, st')) :
    st' = st := by
  rcases m.on_eq st with ⟨n, -, heq⟩ | ⟨-, w, hw⟩
  · cases h.symm.trans heq
  · exact (Prod.mk.inj (h.symm.trans hw)).2

/-- The children of the node that a call makes are terms that the call is
given. -/
theorem children_of_node? (h : m.node? i = some n) : ∀ c ∈ n.children, c ∈ m.operands := by
  cases m with
  | fraction ty q =>
    obtain ⟨s, -, rfl⟩ := Option.map_eq_some_iff.mp h
    exact fun _ hc => nomatch hc
  | app tag children =>
    cases tag with
    | leaf l => cases h
    | operator op =>
      cases children with
      | nil => cases h
      | cons first rest => cases h; exact fun _ hc => hc
  | call f args =>
    cases args with
    | nil => cases h
    | cons arg args => cases h; exact fun _ hc => hc
  | _ => cases h; exact fun _ hc => nomatch hc

/-- A call for a fresh leaf makes a leaf of the number it is given, and
no other call makes a leaf that has one. -/
theorem identity?_of_node? {l : Leaf} (h : m.node? i = some (.leaf l)) :
    l.identity? = if m.isFresh then some i else none := by
  cases m with
  | fraction ty q =>
    obtain ⟨s, -, hl⟩ := Option.map_eq_some_iff.mp h
    cases hl
    rfl
  | app tag children =>
    cases tag with
    | leaf l => cases h
    | operator op => cases children <;> cases h
  | call f args => cases args <;> cases h
  | _ => cases h; rfl

/-- A call that makes something to be told apart makes a leaf. -/
theorem exists_leaf_of_isFresh (h : m.node? i = some n) (hm : m.isFresh = true) :
    ∃ l, n = .leaf l := by
  cases m with
  | var | global | function => cases h; exact ⟨_, rfl⟩
  | _ => cases hm

end Maker

namespace TermStore

variable {st st' : TermStore} {n : Node} {t u : TermId}

/-- The numbers below the size are those of the terms that the store knows.
-/
theorem raw_lt_size_iff : t.raw < st.size ↔ ∃ n, st.node? t = some n := by
  rw [← Nat.not_le, size, ← Interner.get?_eq_none_iff, ← Option.isSome_iff_exists,
    Option.isSome_iff_ne_none]
  rfl

/-- Interning a node that the store has not seen adds it under the next
number, and nothing else. -/
theorem intern_of_new (h : ∀ t, st.node? t ≠ some n) :
    (st.intern n).1 = ⟨st.size⟩ ∧ (st.intern n).2.size = st.size + 1 ∧
      ∀ u, (st.intern n).2.node? u = if u.raw = st.size then some n else st.node? u := by
  have hnone : st.nodes.find? n = none := by
    cases hfind : st.nodes.find? n with
    | none => rfl
    | some i => exact absurd (Interner.find?_eq_some_iff.mp hfind) (h ⟨i⟩)
  obtain ⟨hfst, hentries⟩ := Interner.intern_of_find?_eq_none hnone
  refine ⟨congrArg TermId.mk hfst, ?_, fun u => ?_⟩
  · show (st.nodes.intern n).2.entries.size = _
    rw [hentries, Array.size_push]
    rfl
  · show (st.nodes.intern n).2.entries[u.raw]? = _
    rw [hentries, Array.getElem?_push]
    rfl

/-- The calls that have answered, in order, and the store they have made
from the store without terms, over an assignment of nodes to shards. -/
inductive Run (shard : Node → Shard) : List (Maker × TermId) → TermStore → Prop where
  | start : Run shard [] (sharded shard)
  /-- A call that answers. -/
  | made {calls : List (Maker × TermId)} {st st' : TermStore} {m : Maker} {t : TermId}
    (h : Run shard calls st) (known : ∀ c ∈ m.operands, c ∈ calls.map Prod.snd)
    (hm : m.build.on st = (.ok t, st')) : Run shard (calls ++ [(m, t)]) st'
  /-- A call that refuses. -/
  | refused {calls : List (Maker × TermId)} {st st' : TermStore} {m : Maker} {v : Violation}
    (h : Run shard calls st) (hm : m.build.on st = (.error v, st')) : Run shard calls st'

/-- The order of the terms that calls have made. -/
structure Ordered (calls : List (Maker × TermId)) (st : TermStore) : Prop where
  /-- Terms are numbered without a gap, and each was answered by a call. -/
  answered_iff : ∀ t, t ∈ calls.map Prod.snd ↔ t.raw < st.size
  child_lt : ∀ t n, st.node? t = some n → ∀ c ∈ n.children, c.raw < t.raw
  /-- The numbers of fresh leaves have been counted up to. -/
  identity_lt : ∀ t l i, st.node? t = some (.leaf l) → l.identity? = some i → i < st.nextLeaf
  /-- A leaf told apart by its number was made by a call for a fresh
  leaf. -/
  made_by : ∀ t l i, st.node? t = some (.leaf l) → l.identity? = some i →
    ∃ (k : Nat) (c : Maker × TermId), calls[k]? = some c ∧ c.1.isFresh = true ∧ c.2 = t
  /-- A call for a fresh leaf answers a term that no earlier call has
  answered. -/
  fresh : calls.Pairwise fun earlier later => later.1.isFresh = true → earlier.2 ≠ later.2

/-- Before the first call nothing has been made. -/
theorem ordered_start (shard : Node → Shard) : Ordered [] (sharded shard) where
  answered_iff t := by simp [sharded, size, Interner.size, Interner.sharded]
  child_lt t n h := by cases (Interner.get?_sharded shard t.raw).symm.trans h
  identity_lt t l i h := by cases (Interner.get?_sharded shard t.raw).symm.trans h
  made_by t l i h := by cases (Interner.get?_sharded shard t.raw).symm.trans h
  fresh := .nil

variable {calls : List (Maker × TermId)} {m : Maker} {l : Leaf} {i : Nat}

/-- A call answers a term that was there before, and then it is not for a
fresh leaf; or it makes the next term. -/
theorem Ordered.answer (h : Ordered calls st) (hm : m.build.on st = (.ok t, st')) :
    (m.isFresh = false ∧ t.raw < st.size ∧ st' = st) ∨
    ∃ n, m.node? st.nextLeaf = some n ∧ t = ⟨st.size⟩ ∧ st'.size = st.size + 1 ∧
      st'.nextLeaf = (st.nextLeaf + if m.isFresh then 1 else 0) ∧
      ∀ u, st'.node? u = if u.raw = st.size then some n else st.node? u := by
  rcases m.on_eq st with ⟨n, hn, heq⟩ | ⟨-, v, hv⟩
  · obtain ⟨ht, hst⟩ := Prod.mk.inj (hm.symm.trans heq)
    cases ht
    by_cases hold : ∃ u, st.node? u = some n
    · obtain ⟨u, hu⟩ := hold
      have hfresh : m.isFresh = false := by
        by_contra hfresh
        rw [Bool.not_eq_false] at hfresh
        obtain ⟨l, rfl⟩ := Maker.exists_leaf_of_isFresh hn hfresh
        have hid := Maker.identity?_of_node? hn
        rw [if_pos hfresh] at hid
        exact absurd (h.identity_lt u l _ hu hid) (Nat.lt_irrefl _)
      rw [intern_of_node? hu] at hst ⊢
      rw [hfresh] at hst
      exact .inl ⟨hfresh, raw_lt_size_iff.mpr ⟨n, hu⟩, hst⟩
    · obtain ⟨hfst, hsize, hnode⟩ := intern_of_new (not_exists.mp hold)
      subst hst
      exact .inr ⟨n, hn, hfst, hsize, rfl, hnode⟩
  · cases hm.symm.trans hv

/-- With one call more, the terms answered are those of the store and the
one that the call answers. -/
theorem Ordered.mem_append_iff (h : Ordered calls st) (u : TermId) :
    u ∈ (calls ++ [(m, t)]).map Prod.snd ↔ u.raw < st.size ∨ u = t := by
  rw [List.map_append, List.mem_append, h.answered_iff]
  simp

/-- A leaf told apart by its number was made by a call that is still in
the list when there is one call more. -/
theorem Ordered.made_by_append (h : Ordered calls st) (hu : st.node? u = some (.leaf l))
    (hi : l.identity? = some i) : ∃ (k : Nat) (c : Maker × TermId),
      (calls ++ [(m, t)])[k]? = some c ∧ c.1.isFresh = true ∧ c.2 = u := by
  obtain ⟨k, c, hc, hmade⟩ := h.made_by u l i hu hi
  have hk : k < calls.length := (List.getElem?_eq_some_iff.mp hc).1
  exact ⟨k, c, (List.getElem?_append_left hk).trans hc, hmade⟩

/-- A call that answers a term of the store keeps the order, if it is not
for a fresh leaf. -/
theorem Ordered.repeated (h : Ordered calls st) (hfresh : m.isFresh = false)
    (ht : t.raw < st.size) : Ordered (calls ++ [(m, t)]) st where
  answered_iff u := by
    rw [h.mem_append_iff]
    exact or_iff_left_of_imp fun hu => hu ▸ ht
  child_lt := h.child_lt
  identity_lt := h.identity_lt
  made_by _ _ _ hu hi := h.made_by_append hu hi
  fresh := by
    refine List.pairwise_append.mpr ⟨h.fresh, List.pairwise_singleton .., ?_⟩
    rintro c - d hd hlater
    rw [List.mem_singleton.mp hd, hfresh] at hlater
    cases hlater

/-- A call that makes the next term keeps the order, if its operands have
been made before. -/
theorem Ordered.stored (h : Ordered calls st) (known : ∀ c ∈ m.operands, c ∈ calls.map Prod.snd)
    (hn : m.node? st.nextLeaf = some n) (hsize : st'.size = st.size + 1)
    (hnext : st'.nextLeaf = st.nextLeaf + if m.isFresh then 1 else 0)
    (hnode : ∀ u, st'.node? u = if u.raw = st.size then some n else st.node? u) :
    Ordered (calls ++ [(m, ⟨st.size⟩)]) st' := by
  -- the new term has the node `n`, and every other term the node it had
  have cases_node : ∀ {u n'}, st'.node? u = some n' →
      (u = ⟨st.size⟩ ∧ n' = n) ∨ st.node? u = some n' := by
    intro u n' hu
    rw [hnode] at hu
    split at hu
    · next hraw =>
      cases u
      cases hraw
      exact .inl ⟨rfl, (Option.some.inj hu).symm⟩
    · exact .inr hu
  refine ⟨fun u => ?_, fun u n' hu c hc => ?_, fun u l i hl hi => ?_, fun u l i hl hi => ?_, ?_⟩
  · have hlast : u = ⟨st.size⟩ ↔ u.raw = st.size := by cases u; simp
    rw [h.mem_append_iff, hsize, Nat.lt_succ_iff_lt_or_eq, hlast]
  · rcases cases_node hu with ⟨rfl, rfl⟩ | hu
    · exact (h.answered_iff c).mp (known c (Maker.children_of_node? hn c hc))
    · exact h.child_lt u n' hu c hc
  · rw [hnext]
    rcases cases_node hl with ⟨rfl, rfl⟩ | hl
    · rw [Maker.identity?_of_node? hn] at hi
      split at hi
      · next hfresh =>
        rw [hfresh]
        cases hi
        exact Nat.lt_succ_self _
      · cases hi
    · exact Nat.lt_add_right _ (h.identity_lt u l i hl hi)
  · rcases cases_node hl with ⟨rfl, rfl⟩ | hl
    · refine ⟨calls.length, (m, ⟨st.size⟩), List.getElem?_concat_length, ?_, rfl⟩
      rw [Maker.identity?_of_node? hn] at hi
      by_contra hfresh
      rw [if_neg hfresh] at hi
      cases hi
    · exact h.made_by_append hl hi
  · refine List.pairwise_append.mpr ⟨h.fresh, List.pairwise_singleton .., ?_⟩
    intro c hc d hd _
    rw [List.mem_singleton.mp hd]
    intro heq
    have hlt := (h.answered_iff c.2).mp (List.mem_map_of_mem hc)
    rw [heq] at hlt
    exact absurd hlt (Nat.lt_irrefl _)

/-- A call on terms that calls have made keeps the order: what it makes is
new, and comes after its children, or was there before. -/
theorem Ordered.made (h : Ordered calls st) (known : ∀ c ∈ m.operands, c ∈ calls.map Prod.snd)
    (hm : m.build.on st = (.ok t, st')) : Ordered (calls ++ [(m, t)]) st' := by
  rcases h.answer hm with ⟨hfresh, ht, rfl⟩ | ⟨n, hn, rfl, hsize, hnext, hnode⟩
  · exact h.repeated hfresh ht
  · exact h.stored known hn hsize hnext hnode

/-- Every run leaves its terms in order. -/
theorem Run.ordered {shard : Node → Shard} (h : Run shard calls st) : Ordered calls st := by
  induction h with
  | start => exact ordered_start shard
  | made _ known hm ih => exact ih.made known hm
  | refused _ hm ih => rwa [Maker.eq_of_refused hm]

/-- In a store where children come before their parents, every term
unfolds to a tree. -/
theorem Ordered.exists_denotes (h : Ordered calls st) (ht : t.raw < st.size) :
    ∃ T, st.Denotes t T := by
  obtain ⟨i, hi⟩ : ∃ i, t.raw = i := ⟨_, rfl⟩
  induction i using Nat.strong_induction_on generalizing t with
  | _ i ih =>
    obtain ⟨n, hn⟩ := raw_lt_size_iff.mp ht
    cases n with
    | leaf l => exact ⟨.leaf l, denotes_leaf_iff.mpr hn⟩
    | app op first rest =>
      have hchild : ∀ c ∈ first :: rest, ∃ T, st.Denotes c T := by
        intro c hc
        have hlt := h.child_lt t _ hn c hc
        exact ih c.raw (hi ▸ hlt) (hlt.trans ht) rfl
      obtain ⟨Ts, hTs⟩ := exists_forall₂ hchild
      cases Ts with
      | nil => cases hTs
      | cons T Ts => exact ⟨.app op T Ts, denotes_app_iff.mpr ⟨first, rest, hn, hTs⟩⟩

/-! ## Runs on a list of nodes -/

/-- A call that does not refuse, made where the list of nodes and the
counter are known: the answer is the place of its node in the list, or
behind it. -/
theorem Run.next {shard : Node → Shard} {ns : List Node} {i : Nat} (m : Maker)
    (h : Run shard calls st ∧ st.nodes.entries.toList = ns ∧ st.nextLeaf = i)
    (known : ∀ c ∈ m.operands, c ∈ calls.map Prod.snd) (hn : m.node? i = some n) :
    ∃ st', Run shard (calls ++ [(m, ⟨ns.idxOf n⟩)]) st' ∧
      st'.nodes.entries.toList = (if n ∈ ns then ns else ns ++ [n]) ∧
      st'.nextLeaf = i + if m.isFresh then 1 else 0 := by
  obtain ⟨hrun, rfl, rfl⟩ := h
  obtain ⟨hfst, hentries⟩ := st.nodes.intern_toList n
  rcases m.on_eq st with ⟨n', hn', heq⟩ | ⟨hnone, -⟩
  · cases hn.symm.trans hn'
    refine ⟨{ (st.intern n).2 with nextLeaf := st.nextLeaf + if m.isFresh then 1 else 0 },
      ?_, hentries, rfl⟩
    rw [← hfst]
    exact hrun.made known heq
  · cases hn.symm.trans hnone

end TermStore

end TypedTerms
