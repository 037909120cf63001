import Mathlib.Data.Finset.Card
import Mathlib.Logic.Relation

/-!
# Ways without a circle

A relation is read as the edges of a graph, and `TransGen` as its ways of
one edge or more; a way from a node to itself is a circle. Two facts are
wanted of graphs without circles. Going along an edge, fewer nodes are
left to meet (`reachCount_lt`), which bounds every walk by the number of
nodes. And new edges out of one node close no circle, if none of them
leads back to it over the old edges (`acyclic_of_edges_from`).
-/

namespace TypedTerms

open Relation

variable {α : Type} {r : α → α → Prop}

/-- No circle goes through what has a measure, if every edge leads to a
smaller one. -/
theorem not_transGen_self {M : α → Nat → Prop} (unique : ∀ {a m n}, M a m → M a n → m = n)
    (smaller : ∀ {a b m}, M a m → r a b → ∃ n < m, M b n) {a : α} {m : Nat} (ha : M a m) :
    ¬ TransGen r a a := by
  have below : ∀ {b}, TransGen r a b → ∃ n < m, M b n := by
    intro b hab
    induction hab with
    | single hab => exact smaller ha hab
    | tail _ hbc ih =>
      obtain ⟨n, hn, hb⟩ := ih
      obtain ⟨k, hk, hc⟩ := smaller hb hbc
      exact ⟨k, hk.trans hn, hc⟩
  intro circle
  obtain ⟨n, hn, ha'⟩ := below circle
  exact absurd (unique ha' ha) hn.ne

section Count

open Classical

/-- How many of the nodes are met on the ways from `a`, `a` included. -/
noncomputable def reachCount (r : α → α → Prop) (nodes : Finset α) (a : α) : Nat :=
  (nodes.filter (ReflTransGen r a)).card

theorem reachCount_le (nodes : Finset α) (a : α) : reachCount r nodes a ≤ nodes.card :=
  Finset.card_filter_le ..

/-- A node reaches itself, so the count is positive. -/
theorem reachCount_pos {nodes : Finset α} {a : α} (ha : a ∈ nodes) : 0 < reachCount r nodes a :=
  Finset.card_pos.mpr ⟨a, Finset.mem_filter.mpr ⟨ha, .refl⟩⟩

/-- Past an edge fewer nodes are met, as the node left behind is not met
again. -/
theorem reachCount_lt {nodes : Finset α} {a b : α} (hab : r a b) (ha : a ∈ nodes)
    (circle : ¬ TransGen r a a) : reachCount r nodes b < reachCount r nodes a := by
  refine Finset.card_lt_card ((Finset.ssubset_iff_of_subset ?_).mpr ⟨a, ?_, ?_⟩)
  · intro c hc
    rw [Finset.mem_filter] at hc ⊢
    exact ⟨hc.1, .head hab hc.2⟩
  · exact Finset.mem_filter.mpr ⟨ha, .refl⟩
  · intro hmem
    exact circle (.head' hab (Finset.mem_filter.mp hmem).2)

end Count

section EdgesFrom

variable {r' : α → α → Prop} {x : α} (old : ∀ a b, r' a b → a ≠ x → r a b)

include old

/-- A way to `x` can be cut where it first meets `x`, and so needs no
edge out of `x`. -/
theorem reflTransGen_to {a : α} (h : ReflTransGen r' a x) : ReflTransGen r a x := by
  induction h using ReflTransGen.head_induction_on with
  | refl => exact .refl
  | @head a b hab _ ih =>
    by_cases hax : a = x
    · rw [hax]
    · exact .head (old a b hab hax) ih

/-- A way uses no edge out of `x`, or it passes `x`. -/
theorem transGen_or_through {a b : α} (h : TransGen r' a b) :
    TransGen r a b ∨ ReflTransGen r' a x ∧ TransGen r' x b := by
  induction h with
  | @single b hab =>
    by_cases hax : a = x
    · exact .inr ⟨hax ▸ .refl, hax ▸ .single hab⟩
    · exact .inl (.single (old a b hab hax))
  | @tail b c hab hbc ih =>
    rcases ih with way | ⟨toX, fromX⟩
    · by_cases hbx : b = x
      · exact .inr ⟨hbx ▸ hab.to_reflTransGen, hbx ▸ .single hbc⟩
      · exact .inl (.tail way (old b c hbc hbx))
    · exact .inr ⟨toX, fromX.tail hbc⟩

/-- New edges out of one node close no circle, if none of them leads back
to it over the old edges. -/
theorem acyclic_of_edges_from (acyclic : ∀ a, ¬ TransGen r a a)
    (back : ∀ y, r' x y → ¬ ReflTransGen r y x) (a : α) : ¬ TransGen r' a a := by
  intro h
  rcases transGen_or_through old h with circle | ⟨toX, fromX⟩
  · exact acyclic a circle
  · obtain ⟨y, hxy, hyx⟩ := TransGen.head'_iff.mp (fromX.trans_left toX)
    exact back y hxy (reflTransGen_to old hyx)

end EdgesFrom

end TypedTerms
