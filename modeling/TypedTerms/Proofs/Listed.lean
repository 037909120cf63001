import Mathlib.Data.List.Nodup
import TypedTerms.Store.Read

/-!
# Stores from a list

A list of values without repetition, as the interner that numbers them in
this order, and a list of nodes as the store that knows them. What such a
store knows is read off the list, without interning one node after the
other.
-/

namespace TypedTerms

namespace Shards

variable {α : Type} [DecidableEq α] [Hashable α] {as : List α} {a : α} {i : Nat}

/-- The map of a list without repeated keys, over an assignment of
shards. -/
def ofList (shard : α → Shard) (ps : List (α × Nat)) : Shards α where
  shard := shard
  parts := Vector.ofFn fun k => Std.HashMap.ofList (ps.filter (shard ·.1 = k))

/-- A key is looked up in the entries of its own shard. -/
theorem find?_ofList (shard : α → Shard) (ps : List (α × Nat)) (a : α) :
    (ofList shard ps).find? a =
      (Std.HashMap.ofList (ps.filter (shard ·.1 = shard a)))[a]? := by
  simp [ofList, find?]

/-- The places of a list without repetition are found in its map. -/
theorem find?_ofList_zipIdx (shard : α → Shard) (h : as.Nodup) :
    (ofList shard as.zipIdx).find? a = some i ↔ as[i]? = some a := by
  -- a shard holds some of the entries, whose keys are distinct as those of the list are
  have distinct : (as.zipIdx.filter (shard ·.1 = shard a)).Pairwise
      fun p q => (p.1 == q.1) = false := by
    rw [← List.zipIdx_map_fst 0 as, List.Nodup, List.pairwise_map] at h
    exact (h.imp beq_eq_false_iff_ne.mpr).filter _
  have found : ∀ {j : Nat}, as[j]? = some a → (ofList shard as.zipIdx).find? a = some j := by
    intro j hj
    have hmem : (a, j) ∈ as.zipIdx.filter (shard ·.1 = shard a) :=
      List.mem_filter.mpr ⟨List.mk_mem_zipIdx_iff_getElem?.mpr hj, decide_eq_true rfl⟩
    rw [find?_ofList]
    exact Std.HashMap.getElem?_ofList_of_mem (beq_self_eq_true a) distinct hmem
  refine ⟨?_, found⟩
  intro hi
  by_cases ha : a ∈ as
  · obtain ⟨j, hj⟩ := List.mem_iff_getElem?.mp ha
    rw [found hj] at hi
    cases hi
    exact hj
  · have habsent : a ∉ (as.zipIdx.filter (shard ·.1 = shard a)).map Prod.fst := by
      intro hmem
      obtain ⟨p, hp, rfl⟩ := List.mem_map.mp hmem
      rw [← List.zipIdx_map_fst 0 as] at ha
      exact ha (List.mem_map_of_mem (List.mem_filter.mp hp).1)
    rw [find?_ofList, Std.HashMap.getElem?_ofList_of_contains_eq_false] at hi
    · cases hi
    · rw [List.contains_eq_mem, decide_eq_false habsent]

end Shards

namespace Interner

variable {α : Type} [DecidableEq α] [Hashable α]

/-- Interning answers the place of the value in the list of values, and
puts a new value behind them. -/
theorem intern_toList (t : Interner α) (a : α) :
    (t.intern a).1 = t.entries.toList.idxOf a ∧
      (t.intern a).2.entries.toList =
        if a ∈ t.entries.toList then t.entries.toList else t.entries.toList ++ [a] := by
  by_cases ha : a ∈ t.entries.toList
  · have hget : t.get? (t.entries.toList.idxOf a) = some a := by
      rw [get?, ← Array.getElem?_toList]
      exact List.getElem?_idxOf ha
    rw [intern_of_get? hget, if_pos ha]
    exact ⟨rfl, rfl⟩
  · have hnone : t.find? a = none := by
      cases hfind : t.find? a with
      | none => rfl
      | some i =>
        have hget := find?_eq_some_iff.mp hfind
        rw [get?, ← Array.getElem?_toList] at hget
        exact absurd (List.mem_of_getElem? hget) ha
    obtain ⟨hfst, hentries⟩ := intern_of_find?_eq_none hnone
    rw [hfst, hentries, if_neg ha, List.idxOf_eq_length ha, Array.toList_push]
    exact ⟨rfl, rfl⟩

/-- The interner that holds the values of a list. -/
def ofList (as : List α) (h : as.Nodup) : Interner α where
  entries := as.toArray
  index := .ofList Shards.ofHash as.zipIdx
  index_iff a i := by rw [List.getElem?_toArray, Shards.find?_ofList_zipIdx _ h]

end Interner

/-- The store that knows the nodes of a list. -/
def TermStore.ofNodes (ns : List Node) (h : ns.Nodup) (nextLeaf : Nat) : TermStore where
  nodes := .ofList ns h
  nextLeaf := nextLeaf

/-- A store with the variables `x`, `y`, `z`, the constant `a`, the
functions `g` and `f`, and the calls `g(y)`, `g(a)`, `f(x, z)` and
`f(g(a), x)`, in this order. -/
def TermStore.sample : TermStore :=
  .ofNodes
    [.leaf (.var 0 .individual), .leaf (.var 1 .individual), .leaf (.var 2 .individual),
      .leaf (.global 3 ⟨0⟩ .individual),
      .leaf (.function 4 ⟨1⟩ .individual [.individual]),
      .leaf (.function 5 ⟨2⟩ .individual [.individual, .individual]),
      .app .call ⟨4⟩ [⟨1⟩], .app .call ⟨4⟩ [⟨3⟩], .app .call ⟨5⟩ [⟨0⟩, ⟨2⟩],
      .app .call ⟨5⟩ [⟨7⟩, ⟨0⟩]]
    (by decide) 6

/-- A store with the variables `x`, `y`, `z`, the constant `a`, the
functions `g` and `f`, and the calls `g(y)`, `f(x, z)`, `f(g(y), a)` and
`f(z, x)`, in this order. -/
def TermStore.patternSample : TermStore :=
  .ofNodes
    [.leaf (.var 0 .individual), .leaf (.var 1 .individual), .leaf (.var 2 .individual),
      .leaf (.global 3 ⟨0⟩ .individual),
      .leaf (.function 4 ⟨1⟩ .individual [.individual]),
      .leaf (.function 5 ⟨2⟩ .individual [.individual, .individual]),
      .app .call ⟨4⟩ [⟨1⟩], .app .call ⟨5⟩ [⟨0⟩, ⟨2⟩], .app .call ⟨5⟩ [⟨6⟩, ⟨3⟩],
      .app .call ⟨5⟩ [⟨2⟩, ⟨0⟩]]
    (by decide) 6

/-- A store with the real variables `x` and `y`, the real number 5/2, and
the formulas `y < x` and `∀ y, y < x`, in this order. -/
def TermStore.boundSample : TermStore :=
  .ofNodes
    [.leaf (.var 0 .real), .leaf (.var 1 .real), .leaf (.fraction .real (.reduce 5 2 (by decide))),
      .app .less ⟨1⟩ [⟨0⟩], .app .universal ⟨3⟩ [⟨1⟩]]
    (by decide) 2

/-- A store with the real variable `x`, the real number 5/2, the integer
nearest to it, and the formulas `x < round(5/2)` and
`∀ x, x < round(5/2)`, in this order. -/
def TermStore.roundedSample : TermStore :=
  .ofNodes
    [.leaf (.var 0 .real), .leaf (.fraction .real (.reduce 5 2 (by decide))),
      .app (.rounding .round) ⟨1⟩ [], .app .less ⟨0⟩ [⟨2⟩], .app .universal ⟨3⟩ [⟨0⟩]]
    (by decide) 1

end TypedTerms
