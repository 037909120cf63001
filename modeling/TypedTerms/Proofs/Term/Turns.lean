import TypedTerms.Proofs.Growth.Walks
import TypedTerms.Proofs.Match.Order

/-!
# Turns of a walk with stacks

What a number of turns comes to does not depend on what lies below on the
stacks, nor on how many turns follow. The turns for some terms of the leaf
map leave the tasks below them as they were, and put their results behind
those that were there (`Leads`); turns that come to an end have not run
out of results on the way (`exists_of_mapTurns_add`). The turns that
gather take the terms off their stack, and put what is gathered behind
what was found (`Gathers`); opening every node that has children gathers
the leaves.
-/

namespace TypedTerms

open TermStore

namespace Build

variable {σ α β : Type} {st st₁ st₂ : TermStore} {w w₁ w₂ : σ} {t c d r : TermId}
  {cs ds : List TermId} {op : Operator} {l : Leaf} {f : TermId → StateT σ Build TermId}
  {s s₁ s₂ : Stacks}

/-! ## Steps with a state of their own -/

/-- After a first step that answers, the rest runs from the state and the
store that it leaves. -/
theorem on_run_bind_ok {x : StateT σ Build α} {g : α → StateT σ Build β} {a : α}
    (h : (x.run w).on st = (.ok (a, w₁), st₁)) :
    ((x >>= g).run w).on st = ((g a).run w₁).on st₁ := by
  rw [StateT.run_bind, on_bind_ok h]

/-- A step without a state leaves the state as it was. -/
theorem on_run_lift_ok {x : Build α} {a : α} (h : x.on st = (.ok a, st₁)) :
    ((liftM x : StateT σ Build α).run w).on st = (.ok (a, w), st₁) := by
  show (x >>= fun a => pure (a, w)).on st = _
  rw [on_bind_ok h, on_pure]

theorem on_run_children {n : Node} (h : st.node? t = some n) :
    ((liftM (read (·.children t)) : StateT σ Build (List TermId)).run w).on st =
      (.ok (n.children, w), st) :=
  on_run_lift_ok (on_children h)

/-! ## Turns of the leaf map -/

/-- The turn of a leaf calls the function and puts the answer on the second
stack. -/
theorem on_mapTurn_leaf (hn : st.node? t = some (.leaf l))
    (hf : ((f t).run w).on st = (.ok (r, w₁), st₁)) (s : Stacks) :
    ((mapTurn f ⟨t, false⟩ s).run w).on st =
      (.ok (some ⟨s.tasks, s.results ++ [r]⟩, w₁), st₁) := by
  rw [mapTurn, on_run_bind_ok (on_run_children hn)]
  exact on_run_bind_ok hf

/-- The turn of a node with children puts it back with a mark, below its
children. -/
theorem on_mapTurn_open (hn : st.node? t = some (.app op c cs)) (s : Stacks) :
    ((mapTurn f ⟨t, false⟩ s).run w).on st =
      (.ok (some ⟨(c :: cs).map (⟨·, false⟩) ++ ⟨t, true⟩ :: s.tasks, s.results⟩, w), st) := by
  rw [mapTurn, on_run_bind_ok (on_run_children hn)]
  rfl

/-- The turn of a marked node takes as many results as it has children and
puts the node over them in their place. -/
theorem on_mapTurn_close (hn : st.node? t = some (.app op c cs))
    (hlen : ds.length = cs.length) (tasks : List Task) (results : List TermId) :
    ((mapTurn f ⟨t, true⟩ ⟨tasks, results ++ d :: ds⟩).run w).on st =
      (.ok (some ⟨tasks, results ++ [(st.intern (.app op d ds)).1]⟩, w),
        (st.intern (.app op d ds)).2) := by
  have hkept : (results ++ d :: ds).length - (c :: cs).length = results.length := by
    simp [hlen]
  have hle : (c :: cs).length ≤ (results ++ d :: ds).length := by
    simp [hlen]
  rw [mapTurn, on_run_bind_ok (on_run_children hn)]
  simp only [Node.children, if_true, if_pos hle, hkept, List.drop_left, List.take_left]
  exact on_run_bind_ok (on_run_lift_ok (on_remake hn))

/-- Some number of turns lead from the one state to the other, as the
first of any larger number. -/
def Leads (f : TermId → StateT σ Build TermId) (st : TermStore) (w : σ) (s : Stacks)
    (st' : TermStore) (w' : σ) (s' : Stacks) : Prop :=
  ∃ k, ∀ n, ((mapTurns f (k + n) s).run w).on st = ((mapTurns f n s').run w').on st'

theorem Leads.refl (f : TermId → StateT σ Build TermId) (st : TermStore) (w : σ) (s : Stacks) :
    Leads f st w s st w s := ⟨0, fun n => by rw [Nat.zero_add]⟩

/-- Turns that lead on from where turns have led lead there from the
beginning. -/
theorem Leads.trans (h₁ : Leads f st w s st₁ w₁ s₁) (h₂ : Leads f st₁ w₁ s₁ st₂ w₂ s₂) :
    Leads f st w s st₂ w₂ s₂ := by
  obtain ⟨k₁, hk₁⟩ := h₁
  obtain ⟨k₂, hk₂⟩ := h₂
  exact ⟨k₁ + k₂, fun n => by rw [Nat.add_assoc, hk₁, hk₂]⟩

/-- One turn leads to the state that it leaves. -/
theorem leads_of_turn {task : Task} {tasks : List Task} {results : List TermId}
    (h : ((mapTurn f task ⟨tasks, results⟩).run w).on st = (.ok (some s₁, w₁), st₁)) :
    Leads f st w ⟨task :: tasks, results⟩ st₁ w₁ s₁ := by
  refine ⟨1, fun n => ?_⟩
  rw [Nat.add_comm, mapTurns]
  exact on_run_bind_ok h

theorem mapTurns_done (f : TermId → StateT σ Build TermId) (n : Nat) (results : List TermId) :
    mapTurns f n ⟨[], results⟩ = pure (some ⟨[], results⟩) := by
  cases n <;> rfl

theorem mapTurns_cons (f : TermId → StateT σ Build TermId) (n : Nat) (task : Task)
    (tasks : List Task) (results : List TermId) :
    mapTurns f (n + 1) ⟨task :: tasks, results⟩ = (do
      match ← mapTurn f task ⟨tasks, results⟩ with
      | some s => mapTurns f n s
      | none => return none) := rfl

/-- Turns and further turns are as many turns together. -/
theorem mapTurns_add (f : TermId → StateT σ Build TermId) (n k : Nat) (s : Stacks) :
    mapTurns f (n + k) s = (do
      match ← mapTurns f n s with
      | some s => mapTurns f k s
      | none => return none) := by
  induction n generalizing s with
  | zero => rw [Nat.zero_add, mapTurns, pure_bind]
  | succ n ih =>
    obtain ⟨tasks, results⟩ := s
    rw [Nat.add_right_comm]
    cases tasks with
    | nil =>
      rw [mapTurns_done, mapTurns_done, pure_bind]
      exact (mapTurns_done f k results).symm
    | cons task tasks =>
      rw [mapTurns_cons, mapTurns_cons, bind_assoc]
      refine bind_congr fun o => ?_
      cases o with
      | none => exact (pure_bind _ _).symm
      | some s => exact ih s

/-- Turns that come to an end have not run out of results before. -/
theorem exists_of_mapTurns_add {n k : Nat}
    (h : ((mapTurns f (n + k) s).run w).on st = (.ok (some s₁, w₁), st₁)) :
    ∃ s₂ w₂ st₂, ((mapTurns f n s).run w).on st = (.ok (some s₂, w₂), st₂) := by
  rw [mapTurns_add, StateT.run_bind, on_bind] at h
  match hn : ((mapTurns f n s).run w).on st with
  | (.ok (some s₂, w₂), st₂) => exact ⟨s₂, w₂, st₂, rfl⟩
  | (.ok (none, w₂), st₂) =>
    rw [hn] at h
    cases h
  | (.error v, st₂) =>
    rw [hn] at h
    cases h

/-- Turns that lead to an empty stack of tasks end there, however many more
are allowed. -/
theorem ends_of_leads (h : Leads f st w (.start t) st₁ w₁ ⟨[], [r]⟩) : ∃ k, ∀ n ≥ k,
    ((mapTurns f n (.start t)).run w).on st = (.ok (some ⟨[], [r]⟩, w₁), st₁) := by
  obtain ⟨k, hk⟩ := h
  refine ⟨k, fun n hn => ?_⟩
  obtain ⟨m, rfl⟩ := Nat.exists_eq_add_of_le hn
  rw [hk, mapTurns_done]
  rfl

end Build

/-- Is the node to be opened on the way to the leaves? -/
def Node.hasChildren (n : Node) : Bool := !n.children.isEmpty

namespace TermStore

/-! ## Turns of gathering -/

variable {st : TermStore} {t : TermId} {ts : List TermId} {n : Node} {opens : Node → Bool}

/-- A turn at a node that is to be opened puts its children in its place. -/
theorem gatherTurns_opened (hn : st.node? t = some n) (ho : opens n = true) (k : Nat)
    (stack found : List TermId) :
    st.gatherTurns opens (k + 1) (t :: stack) found =
      st.gatherTurns opens k (n.children ++ stack) found := by
  rw [gatherTurns, node_of_node? hn]
  exact if_pos ho

/-- A turn at any other node puts it behind what was found. -/
theorem gatherTurns_found (hn : st.node? t = some n) (ho : opens n = false) (k : Nat)
    (stack found : List TermId) :
    st.gatherTurns opens (k + 1) (t :: stack) found =
      st.gatherTurns opens k stack (found ++ [t]) := by
  rw [gatherTurns, node_of_node? hn]
  exact if_neg (Bool.eq_false_iff.mp ho)

theorem gatherTurns_done (st : TermStore) (opens : Node → Bool) (k : Nat) (found : List TermId) :
    st.gatherTurns opens k [] found = .ok ([], found) := by
  cases k <;> rfl

/-- Some number of turns take the terms off the stack, and put what is
gathered from them behind what was found. -/
def Gathers (st : TermStore) (opens : Node → Bool) (ts own : List TermId) : Prop :=
  ∃ k, ∀ n stack found, st.gatherTurns opens (k + n) (ts ++ stack) found =
    st.gatherTurns opens n stack (found ++ own)

/-- What is gathered from terms on a stack is what is gathered from each. -/
theorem gathers_flatMap {own : TermId → List TermId}
    (h : ∀ t ∈ ts, st.Gathers opens [t] (own t)) : st.Gathers opens ts (ts.flatMap own) := by
  induction ts with
  | nil => exact ⟨0, fun n stack found => by
      rw [Nat.zero_add, List.nil_append, List.flatMap_nil, List.append_nil]⟩
  | cons t ts ih =>
    obtain ⟨ht, hts⟩ := List.forall_mem_cons.mp h
    obtain ⟨k₁, hk₁⟩ := ht
    obtain ⟨k₂, hk₂⟩ := ih hts
    refine ⟨k₁ + k₂, fun n stack found => ?_⟩
    rw [Nat.add_assoc, List.flatMap_cons, ← List.append_assoc]
    exact (hk₁ _ _ _).trans (hk₂ _ _ _)

/-- The turns gather the leaves. -/
theorem gathers_leaves (ht : st.Unfolds t) : st.Gathers Node.hasChildren [t] (st.leafList t) := by
  refine ht.walk_induct (P := fun _ t => st.Gathers Node.hasChildren [t] (st.leafList t)) ?_
  intro _ u n hn hu ih
  cases n with
  | leaf l =>
    refine ⟨1, fun n stack found => ?_⟩
    rw [leafList_leaf hn, Nat.add_comm]
    exact gatherTurns_found hn rfl n stack found
  | app op c cs =>
    obtain ⟨U, hU⟩ := ht.subterm hu
    obtain ⟨k, hk⟩ := gathers_flatMap ih
    refine ⟨1 + k, fun n stack found => ?_⟩
    rw [leafList_app hU hn, Nat.add_assoc, Nat.add_comm]
    exact (gatherTurns_opened hn rfl _ stack found).trans (hk n stack found)

/-- Gathering from one term ends with what is gathered from it, however many
more turns are allowed. -/
theorem Gathers.ends {own : List TermId} (h : st.Gathers opens [t] own) : ∃ k, ∀ n ≥ k,
    st.gatherTurns opens n [t] [] = .ok ([], own) := by
  obtain ⟨k, hk⟩ := h
  refine ⟨k, fun n hn => ?_⟩
  obtain ⟨m, rfl⟩ := Nat.exists_eq_add_of_le hn
  exact (hk m [] []).trans (gatherTurns_done st opens m own)

end TermStore

end TypedTerms
