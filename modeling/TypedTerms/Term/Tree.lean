import TypedTerms.Store.Read

/-!
# The tree a term stands for

Read through a store, a term stands for a tree: the nodes are unfolded,
and a shared node is unfolded at every place where it stands. `Denotes`
is that reading, as a relation. It holds for no tree if the term
contains itself or something that the store does not know.

Two facts make trees and terms interchangeable. A term stands for at
most one tree (`denotes_unique`), and a tree is stood for by at most one
term (`denotes_inj`), which is what storing every node once is for. A
store that grows keeps every reading (`denotes_of_extends`).
-/

namespace TypedTerms

/-- A term, unfolded. -/
inductive Tree where
  | leaf (l : Leaf)
  | app (op : Operator) (first : Tree) (rest : List Tree)

namespace TermStore

mutual

/-- The term stands for the tree. -/
def Denotes (st : TermStore) : TermId → Tree → Prop
  | t, .leaf l => st.node? t = some (.leaf l)
  | t, .app op first rest =>
    ∃ c cs, st.node? t = some (.app op c cs) ∧ Denotes st c first ∧ DenotesAll st cs rest

/-- The terms stand for the trees, place by place. -/
def DenotesAll (st : TermStore) : List TermId → List Tree → Prop
  | ts, [] => ts = []
  | ts, T :: Ts => ∃ t ts', ts = t :: ts' ∧ Denotes st t T ∧ DenotesAll st ts' Ts

end

mutual

/-- No two terms stand for one tree, since no two have one node. -/
theorem denotes_inj {st : TermStore} :
    ∀ {T : Tree} {t u : TermId}, st.Denotes t T → st.Denotes u T → t = u
  | .leaf _, _, _, ht, hu => by
    rw [Denotes] at ht hu
    exact node?_inj ht hu
  | .app .., _, _, ht, hu => by
    obtain ⟨c, cs, hnode, hc, hcs⟩ := ht
    obtain ⟨d, ds, gnode, hd, hds⟩ := hu
    rw [denotes_inj hc hd, denotesAll_inj hcs hds] at hnode
    exact node?_inj hnode gnode

/-- No two lists of terms stand for one list of trees. -/
theorem denotesAll_inj {st : TermStore} :
    ∀ {Ts : List Tree} {ts us : List TermId}, st.DenotesAll ts Ts → st.DenotesAll us Ts → ts = us
  | [], _, _, ht, hu => by
    rw [DenotesAll] at ht hu
    rw [ht, hu]
  | _ :: _, _, _, ht, hu => by
    obtain ⟨c, cs, rfl, hc, hcs⟩ := ht
    obtain ⟨d, ds, rfl, hd, hds⟩ := hu
    rw [denotes_inj hc hd, denotesAll_inj hcs hds]

end

mutual

/-- A term stands for one tree at most. -/
theorem denotes_unique {st : TermStore} :
    ∀ {T U : Tree} {t : TermId}, st.Denotes t T → st.Denotes t U → T = U
  | .leaf _, .leaf _, _, ht, hu => by
    rw [Denotes] at ht hu
    rw [ht] at hu
    cases hu
    rfl
  | .leaf _, .app .., _, ht, hu => by
    obtain ⟨_, _, hnode, _⟩ := hu
    rw [Denotes] at ht
    rw [ht] at hnode
    cases hnode
  | .app .., .leaf _, _, ht, hu => by
    obtain ⟨_, _, hnode, _⟩ := ht
    rw [Denotes] at hu
    rw [hu] at hnode
    cases hnode
  | .app .., .app .., _, ht, hu => by
    obtain ⟨c, cs, hnode, hc, hcs⟩ := ht
    obtain ⟨d, ds, gnode, hd, hds⟩ := hu
    rw [hnode] at gnode
    cases gnode
    rw [denotes_unique hc hd, denotesAll_unique hcs hds]

/-- A list of terms stands for one list of trees at most. -/
theorem denotesAll_unique {st : TermStore} :
    ∀ {Ts Us : List Tree} {ts : List TermId}, st.DenotesAll ts Ts → st.DenotesAll ts Us → Ts = Us
  | [], [], _, _, _ => rfl
  | [], _ :: _, _, ht, hu => by
    obtain ⟨_, _, rfl, _⟩ := hu
    rw [DenotesAll] at ht
    cases ht
  | _ :: _, [], _, ht, hu => by
    obtain ⟨_, _, rfl, _⟩ := ht
    rw [DenotesAll] at hu
    cases hu
  | _ :: _, _ :: _, _, ht, hu => by
    obtain ⟨c, cs, rfl, hc, hcs⟩ := ht
    obtain ⟨d, ds, heq, hd, hds⟩ := hu
    cases heq
    rw [denotes_unique hc hd, denotesAll_unique hcs hds]

end

/-! ## Growth -/

/-- The second store knows every term of the first, by the same node. -/
def Extends (st st' : TermStore) : Prop :=
  ∀ ⦃t : TermId⦄ ⦃n : Node⦄, st.node? t = some n → st'.node? t = some n

theorem extends_refl (st : TermStore) : st.Extends st := fun _ _ h => h

theorem extends_trans {st₁ st₂ st₃ : TermStore} (h₁ : st₁.Extends st₂) (h₂ : st₂.Extends st₃) :
    st₁.Extends st₃ := fun _ _ h => h₂ (h₁ h)

/-- Interning a node only adds to the store. -/
theorem extends_intern (st : TermStore) (n : Node) : st.Extends (st.intern n).2 :=
  fun _ _ h => node?_intern_of_node? n h

mutual

/-- In a store that has grown a term stands for the tree that it stood for.
-/
theorem denotes_of_extends {st st' : TermStore} (h : st.Extends st') :
    ∀ {T : Tree} {t : TermId}, st.Denotes t T → st'.Denotes t T
  | .leaf _, _, ht => by
    rw [Denotes] at ht ⊢
    exact h ht
  | .app .., _, ht => by
    obtain ⟨c, cs, hnode, hc, hcs⟩ := ht
    exact ⟨c, cs, h hnode, denotes_of_extends h hc, denotesAll_of_extends h hcs⟩

/-- In a store that has grown terms stand for the trees that they stood for.
-/
theorem denotesAll_of_extends {st st' : TermStore} (h : st.Extends st') :
    ∀ {Ts : List Tree} {ts : List TermId}, st.DenotesAll ts Ts → st'.DenotesAll ts Ts
  | [], _, ht => by
    rw [DenotesAll] at ht ⊢
    exact ht
  | _ :: _, _, ht => by
    obtain ⟨c, cs, rfl, hc, hcs⟩ := ht
    exact ⟨c, cs, rfl, denotes_of_extends h hc, denotesAll_of_extends h hcs⟩

end

end TermStore

end TypedTerms
