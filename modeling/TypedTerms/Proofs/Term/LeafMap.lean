import TypedTerms.Proofs.Term.Turns

/-!
# Mapping the leaves in order

The leaf map calls its function at the leaves of the term, one after the
other from left to right, and makes the nodes above them anew
(`mapLeaves_in_order`). The map that keeps stacks comes to the same. Where
it meets a marked node, the results for the children of this node lie on
top, one for each; so every node takes what it needs, and no other's.

The function may keep a state of its own, and may make terms, in another
way at every call.
-/

namespace TypedTerms

open TermStore

namespace Build

variable {σ : Type} {st st₁ st₂ st₃ : TermStore} {w w₁ w₂ w₃ : σ} {t c d r : TermId}
  {cs ds ts rs : List TermId} {op : Operator} {l : Leaf} {f : TermId → StateT σ Build TermId}

/-! ## What the map is made of -/

/-- The function is called at the one term after the other, with what it
answers there. In between the store may grow; the state is what the last
call left. -/
inductive CallsInTurn (f : TermId → StateT σ Build TermId) :
    TermStore → σ → List (TermId × TermId) → TermStore → σ → Prop where
  | done {st st' : TermStore} {w : σ} (grown : st.Extends st') : CallsInTurn f st w [] st' w
  | call {st st₁ st₂ st' : TermStore} {w w₁ w' : σ} {x r : TermId} {calls : List (TermId × TermId)}
    (grown : st.Extends st₁) (answers : ((f x).run w).on st₁ = (.ok (r, w₁), st₂))
    (later : CallsInTurn f st₂ w₁ calls st' w') : CallsInTurn f st w ((x, r) :: calls) st' w'

/-- The calls may be told from an earlier store on, the store growing before
the first of them. -/
theorem CallsInTurn.of_extends {calls : List (TermId × TermId)}
    (h : CallsInTurn f st₁ w calls st₂ w₂) (hst : st.Extends st₁) :
    CallsInTurn f st w calls st₂ w₂ := by
  cases h with
  | done grown => exact .done (extends_trans hst grown)
  | call grown answers later => exact .call (extends_trans hst grown) answers later

/-- Calls and further calls are calls in turn. -/
theorem CallsInTurn.append {calls calls' : List (TermId × TermId)}
    (h : CallsInTurn f st w calls st₁ w₁) (h' : CallsInTurn f st₁ w₁ calls' st₂ w₂) :
    CallsInTurn f st w (calls ++ calls') st₂ w₂ := by
  induction h with
  | done grown => exact h'.of_extends grown
  | call grown answers _ ih => exact .call grown answers (ih h')

/-- The terms `us` are the terms `ts` with `rs` in the places of their
leaves, from left to right: a leaf has become what is in its place, and
another node the node with its operator over what its children have
become. -/
inductive Rebuilt (st : TermStore) : List TermId → List TermId → List TermId → Prop where
  | nil : Rebuilt st [] [] []
  | leaf {t r : TermId} {l : Leaf} {ts rs us : List TermId} (node : st.node? t = some (.leaf l))
    (rest : Rebuilt st ts rs us) : Rebuilt st (t :: ts) (r :: rs) (r :: us)
  | app {t u c d : TermId} {op : Operator} {cs ds ts rs rs' us : List TermId}
    (node : st.node? t = some (.app op c cs)) (children : Rebuilt st (c :: cs) rs (d :: ds))
    (answer : st.node? u = some (.app op d ds)) (rest : Rebuilt st ts rs' us) :
    Rebuilt st (t :: ts) (rs ++ rs') (u :: us)

/-- What has been rebuilt is so in every later store. -/
theorem Rebuilt.of_extends {us : List TermId} (h : Rebuilt st ts rs us) (hst : st.Extends st₁) :
    Rebuilt st₁ ts rs us := by
  induction h with
  | nil => exact .nil
  | leaf node _ ih => exact .leaf (hst node) ih
  | app node _ answer _ ihchildren ihrest => exact .app (hst node) ihchildren (hst answer) ihrest

/-- Terms that are rebuilt behind others take what is in the places of their
own leaves. -/
theorem Rebuilt.append {us ts' rs' us' : List TermId} (h : Rebuilt st ts rs us)
    (h' : Rebuilt st ts' rs' us') : Rebuilt st (ts ++ ts') (rs ++ rs') (us ++ us') := by
  induction h with
  | nil => exact h'
  | leaf node _ ih => exact .leaf node ih
  | app node children answer _ _ ih =>
    rw [List.append_assoc]
    exact .app node children answer ih

/-- As many terms come of it as were given. -/
theorem Rebuilt.length_eq {us : List TermId} (h : Rebuilt st ts rs us) :
    us.length = ts.length := by
  induction h with
  | nil => rfl
  | leaf _ _ ih => exact congrArg Nat.succ ih
  | app _ _ _ _ _ ih => exact congrArg Nat.succ ih

/-! ## Mapping terms one after the other -/

/-- The function answers at every leaf of the term, whatever has been made
since, and the store only grows. It keeps a state, of which `J` holds. -/
structure MapsLeaves (st : TermStore) (t : TermId) (f : TermId → StateT σ Build TermId)
    (J : TermStore → σ → Prop) : Prop where
  mono : ∀ ⦃st₁ st₂ w⦄, J st₁ w → st₁.Extends st₂ → J st₂ w
  answers : ∀ ⦃x l st₁ w⦄, st.node? x = some (.leaf l) → st.Subterm x t → st.Extends st₁ →
    J st₁ w → ∃ r w₁ st₂, ((f x).run w).on st₁ = (.ok (r, w₁), st₂) ∧ st₁.Extends st₂ ∧ J st₂ w₁

variable {J : TermStore → σ → Prop}

/-- What has come of mapping the leaves of the terms `ts`, which have
become `us`, from one state to another. -/
structure Mapped (st : TermStore) (f : TermId → StateT σ Build TermId) (J : TermStore → σ → Prop)
    (st₁ : TermStore) (w₁ : σ) (ts us : List TermId) (st₂ : TermStore) (w₂ : σ) : Prop where
  grows : st₁.Extends st₂
  keeps : J st₂ w₂
  calls : ∃ calls, calls.map Prod.fst = ts.flatMap st.leafList ∧
    CallsInTurn f st₁ w₁ calls st₂ w₂ ∧ Rebuilt st₂ ts (calls.map Prod.snd) us
  leads : ∀ tasks results, Leads f st₁ w₁ ⟨ts.map (⟨·, false⟩) ++ tasks, results⟩ st₂ w₂
    ⟨tasks, results ++ us⟩

theorem mapped_nil (hw : J st₁ w) : Mapped st f J st₁ w [] [] st₁ w where
  grows := extends_refl st₁
  keeps := hw
  calls := ⟨[], rfl, .done (extends_refl st₁), .nil⟩
  leads tasks results := by
    rw [List.append_nil]
    exact .refl f st₁ w _

/-- Mapping terms and then further ones is mapping them all. -/
theorem Mapped.append {us ts' us' : List TermId} (h : Mapped st f J st₁ w₁ ts us st₂ w₂)
    (h' : Mapped st f J st₂ w₂ ts' us' st₃ w₃) :
    Mapped st f J st₁ w₁ (ts ++ ts') (us ++ us') st₃ w₃ where
  grows := extends_trans h.grows h'.grows
  keeps := h'.keeps
  calls := by
    obtain ⟨calls, hleaves, hcalls, hrebuilt⟩ := h.calls
    obtain ⟨calls', hleaves', hcalls', hrebuilt'⟩ := h'.calls
    refine ⟨calls ++ calls', ?_, hcalls.append hcalls', ?_⟩
    · rw [List.map_append, hleaves, hleaves', List.flatMap_append]
    · rw [List.map_append]
      exact (hrebuilt.of_extends h'.grows).append hrebuilt'
  leads tasks results := by
    rw [List.map_append, List.append_assoc, ← List.append_assoc results]
    exact (h.leads _ results).trans (h'.leads tasks _)

/-- Terms that are each mapped are mapped one after the other. -/
theorem exists_mapped_mapM {g : TermId → StateT σ Build TermId} {ts : List TermId}
    (h : ∀ t ∈ ts, ∀ st₁ w₁, st.Extends st₁ → J st₁ w₁ → ∃ u w₂ st₂,
      ((g t).run w₁).on st₁ = (.ok (u, w₂), st₂) ∧ Mapped st f J st₁ w₁ [t] [u] st₂ w₂)
    (hst : st.Extends st₁) (hw : J st₁ w₁) : ∃ us w₂ st₂,
      ((ts.mapM g).run w₁).on st₁ = (.ok (us, w₂), st₂) ∧ Mapped st f J st₁ w₁ ts us st₂ w₂ := by
  induction ts generalizing st₁ w₁ with
  | nil => exact ⟨[], w₁, st₁, rfl, mapped_nil hw⟩
  | cons t ts ih =>
    obtain ⟨ht, hts⟩ := List.forall_mem_cons.mp h
    obtain ⟨u, w₂, st₂, hu, hmapped⟩ := ht st₁ w₁ hst hw
    obtain ⟨us, w₃, st₃, hus, hrest⟩ := ih hts (extends_trans hst hmapped.grows) hmapped.keeps
    refine ⟨u :: us, w₃, st₃, ?_, hmapped.append hrest⟩
    rw [List.mapM_cons, on_run_bind_ok hu, on_run_bind_ok hus]
    rfl

/-- Mapping a leaf is one call of the function, whose answer is what becomes
of the leaf. -/
theorem mapped_leaf (hn : st.node? t = some (.leaf l)) (hst : st.Extends st₁)
    (hf : ((f t).run w₁).on st₁ = (.ok (r, w₂), st₂)) (hgrows : st₁.Extends st₂)
    (hw : J st₂ w₂) : Mapped st f J st₁ w₁ [t] [r] st₂ w₂ where
  grows := hgrows
  keeps := hw
  calls := by
    refine ⟨[(t, r)], ?_, .call (extends_refl st₁) hf (.done (extends_refl st₂)),
      .leaf (hgrows (hst hn)) .nil⟩
    rw [List.flatMap_singleton, leafList_leaf hn]
    rfl
  leads tasks results := leads_of_turn (on_mapTurn_leaf (hst hn) hf ⟨tasks, results⟩)

/-- A node over children that have been mapped. -/
theorem Mapped.node (h : Mapped st f J st₁ w₁ (c :: cs) (d :: ds) st₂ w₂)
    (mono : ∀ ⦃st₁ st₂ w⦄, J st₁ w → st₁.Extends st₂ → J st₂ w) (hst : st.Extends st₁)
    (ht : st.Unfolds t) (hn : st.node? t = some (.app op c cs)) :
    Mapped st f J st₁ w₁ [t] [(st₂.intern (.app op d ds)).1] (st₂.intern (.app op d ds)).2 w₂ where
  grows := extends_trans h.grows (extends_intern st₂ _)
  keeps := mono h.keeps (extends_intern st₂ _)
  calls := by
    obtain ⟨T, hT⟩ := ht
    obtain ⟨calls, hleaves, hcalls, hrebuilt⟩ := h.calls
    have hgrown := extends_intern st₂ (.app op d ds)
    refine ⟨calls, ?_, ?_, ?_⟩
    · rw [hleaves, List.flatMap_singleton, leafList_app hT hn]
    · rw [← List.append_nil calls]
      exact hcalls.append (.done hgrown)
    · rw [← List.append_nil (calls.map Prod.snd)]
      exact .app (hgrown (h.grows (hst hn))) (hrebuilt.of_extends hgrown)
        (node?_intern st₂ (.app op d ds)) .nil
  leads tasks results := by
    -- the node is put back below its children; met again, it finds one result for each on top
    obtain ⟨_, _, _, hrebuilt⟩ := h.calls
    have hlen : ds.length = cs.length := Nat.succ.inj hrebuilt.length_eq
    have hopen : Leads f st₁ w₁ ⟨⟨t, false⟩ :: tasks, results⟩ st₁ w₁
        ⟨(c :: cs).map (⟨·, false⟩) ++ ⟨t, true⟩ :: tasks, results⟩ :=
      leads_of_turn (on_mapTurn_open (hst hn) ⟨tasks, results⟩)
    have hclose : Leads f st₂ w₂ ⟨⟨t, true⟩ :: tasks, results ++ d :: ds⟩ _ w₂
        ⟨tasks, results ++ [(st₂.intern (.app op d ds)).1]⟩ :=
      leads_of_turn (on_mapTurn_close (h.grows (hst hn)) hlen tasks results)
    exact (hopen.trans (h.leads (⟨t, true⟩ :: tasks) results)).trans hclose

/-- Within as many levels as its tree has, a term is mapped. -/
theorem exists_mapped_within {T : Tree} {n : Nat} (hf : MapsLeaves st t f J) (hT : st.Denotes t T)
    (hd : T.depth ≤ n) (hst : st.Extends st₁) (hw : J st₁ w₁) : ∃ u w₂ st₂,
      ((mapLeavesWithin f n t).run w₁).on st₁ = (.ok (u, w₂), st₂) ∧
        Mapped st f J st₁ w₁ [t] [u] st₂ w₂ := by
  have ht : st.Unfolds t := ⟨T, hT⟩
  -- for any later store and state: the terms before this one have changed both
  refine hT.walk_induct (P := fun n t => ∀ st₁ w₁, st.Extends st₁ → J st₁ w₁ →
    ∃ u w₂ st₂, ((mapLeavesWithin f n t).run w₁).on st₁ = (.ok (u, w₂), st₂) ∧
      Mapped st f J st₁ w₁ [t] [u] st₂ w₂) hd ?_ st₁ w₁ hst hw
  intro n x node hn hx ih st₁ w₁ hst hw
  cases node with
  | leaf l =>
    obtain ⟨r, w₂, st₂, hr, hgrows, hw₂⟩ := hf.answers hn hx hst hw
    refine ⟨r, w₂, st₂, ?_, mapped_leaf hn hst hr hgrows hw₂⟩
    rw [mapLeavesWithin, on_run_bind_ok (on_run_children (hst hn))]
    exact hr
  | app op c cs =>
    obtain ⟨us, w₂, st₂, hus, hmapped⟩ := exists_mapped_mapM ih hst hw
    obtain ⟨_, _, _, hrebuilt⟩ := hmapped.calls
    cases us with
    | nil => cases hrebuilt.length_eq
    | cons d ds =>
      refine ⟨_, w₂, _, ?_, hmapped.node hf.mono hst (ht.subterm hx) hn⟩
      rw [mapLeavesWithin, on_run_bind_ok (on_run_children (hst hn))]
      exact (on_run_bind_ok hus).trans (on_run_lift_ok (on_remake (hmapped.grows (hst hn))))

/-- The map of the leaves of a term answers if the function does at each of
them, and calls it at the leaves in order. -/
theorem exists_mapped (hf : MapsLeaves st t f J) (ht : st.Unfolds t) (hw : J st w₁) : ∃ u w₂ st₂,
    ((mapLeaves f t).run w₁).on st = (.ok (u, w₂), st₂) ∧ Mapped st f J st w₁ [t] [u] st₂ w₂ := by
  obtain ⟨T, hT⟩ := ht
  obtain ⟨u, w₂, st₂, hu, hmapped⟩ :=
    exists_mapped_within hf hT hT.depth_le_growingDepthLimit (extends_refl st) hw
  refine ⟨u, w₂, st₂, ?_, hmapped⟩
  rw [mapLeaves, on_run_bind_ok (on_run_lift_ok (x := read fun st => .ok st.growingDepthLimit) rfl)]
  exact hu

/-! ## Pure functions -/

/-- Wherever the first step runs, it answers, and whatever has been made
since, the second answers the same. -/
def AnswersSame (st : TermStore) (x y : Build TermId) : Prop :=
  ∀ st₁, st.Extends st₁ → ∃ r st₂, x.on st₁ = (.ok r, st₂) ∧
    ∀ st₃, st₂.Extends st₃ → ∃ st₄, y.on st₃ = (.ok r, st₄)

/-- Steps that yield one tree from every later store on answer the same. -/
theorem answersSame_of_yields {x y : Build TermId} {T : Tree}
    (hx : ∀ st₁, st.Extends st₁ → Yields x st₁ T) (hy : ∀ st₁, st.Extends st₁ → Yields y st₁ T) :
    AnswersSame st x y := by
  intro st₁ hst₁
  obtain ⟨r, st₂, hr, hst₂, hrT⟩ := hx st₁ hst₁
  refine ⟨r, st₂, hr, fun st₃ hst₃ => ?_⟩
  obtain ⟨q, st₄, hq, hst₄, hqT⟩ := hy st₃ (extends_trans hst₁ (extends_trans hst₂ hst₃))
  cases denotes_inj (denotes_of_extends (extends_trans hst₃ hst₄) hrT) hqT
  exact ⟨st₄, hq⟩

/-- A function from the leaves of a store to its terms is one from leaves
to trees. -/
theorem exists_leafTrees {g : TermId → TermId}
    (hg : ∀ x l, st.node? x = some (.leaf l) → st.Unfolds (g x)) :
    ∃ θ : Leaf → Tree, ∀ x l, st.node? x = some (.leaf l) → st.Denotes (g x) (θ l) := by
  have hone : ∀ l, ∃ T, ∀ x, st.node? x = some (.leaf l) → st.Denotes (g x) T := by
    intro l
    by_cases hl : ∃ x, st.node? x = some (.leaf l)
    · obtain ⟨x, hx⟩ := hl
      obtain ⟨T, hT⟩ := hg x l hx
      exact ⟨T, fun y hy => node?_inj hx hy ▸ hT⟩
    · exact ⟨.leaf l, fun x hx => absurd ⟨x, hx⟩ hl⟩
  choose θ hθ using hone
  exact ⟨θ, fun x l => hθ l x⟩

/-- A pure map of the leaves yields the tree with its leaves mapped. -/
theorem yields_mapLeaves_pure {g : TermId → TermId} {θ : Leaf → Tree} {T : Tree}
    (hθ : ∀ x l, st.node? x = some (.leaf l) → st.Denotes (g x) (θ l)) (hst : st.Extends st₁)
    (hT : st₁.Denotes t T) (hleaves : ∀ l ∈ T.leaves, ∃ x, st.node? x = some (.leaf l)) :
    Yields (mapLeaves (fun x => pure (g x)) t) st₁ (T.subst θ) := by
  refine yields_mapLeaves hT (fun x l hl hx st₂ hst₂ => ?_) (extends_refl st₁)
  obtain ⟨y, hy⟩ := hleaves l hl
  cases node?_inj hx (hst hy)
  exact yields_pure (denotes_of_extends (extends_trans hst hst₂) (hθ x l hy))

/-- Mapping the leaves twice is mapping them once, to what the second map
makes of what the first puts in their places. -/
theorem mapLeaves_comp {f g : TermId → TermId} (ht : st.Unfolds t)
    (hf : ∀ x l, st.node? x = some (.leaf l) → st.Unfolds (f x))
    (hg : ∀ x l, st.node? x = some (.leaf l) → st.Unfolds (g x)) : ∃ T, ∀ st₁, st.Extends st₁ →
      Yields (do mapLeaves (fun x => pure (g x)) (← mapLeaves (fun x => pure (f x)) t)) st₁ T ∧
      Yields (mapLeaves (fun x => mapLeaves (fun y => pure (g y)) (f x)) t) st₁ T := by
  obtain ⟨T, hT⟩ := ht
  obtain ⟨φ, hφ⟩ := exists_leafTrees hf
  obtain ⟨θ, hθ⟩ := exists_leafTrees hg
  have hknown : ∀ {t T}, st.Denotes t T → ∀ l ∈ T.leaves, ∃ x, st.node? x = some (.leaf l) :=
    fun hT l hl => (hT.exists_leaf hl).imp fun _ hx => hx.1
  have himages : ∀ l ∈ (T.subst φ).leaves, ∃ x, st.node? x = some (.leaf l) := by
    intro l hl
    obtain ⟨k, hk, hl⟩ := Tree.mem_leaves_subst.mp hl
    obtain ⟨y, hy⟩ := hknown hT k hk
    exact hknown (hφ y k hy) l hl
  refine ⟨(T.subst φ).subst θ, fun st₁ hst₁ => ⟨?_, ?_⟩⟩
  · refine yields_bind
      (yields_mapLeaves_pure hφ hst₁ (denotes_of_extends hst₁ hT) (hknown hT)) ?_
    intro r st₂ hst₂ hr
    exact yields_mapLeaves_pure hθ (extends_trans hst₁ hst₂) hr himages
  · rw [Tree.subst_subst]
    refine yields_mapLeaves hT (fun x l _ hx st₂ hst₂ => ?_) hst₁
    exact yields_mapLeaves_pure hθ hst₂ (denotes_of_extends hst₂ (hφ x l hx))
      (hknown (hφ x l hx))

end Build

namespace TermStore

open Build

/-! ## The map in order -/

variable {σ : Type} {st : TermStore} {t : TermId}

/-- How mapping the leaves of `t` by `f` goes, from the store and a state
of `f`. The function is called at `calls`, with what it answers there;
the map answers `r`, and leaves the state `w'` and the store `st'`. -/
structure MapRun (st : TermStore) (f : TermId → StateT σ Build TermId) (w : σ) (t : TermId)
    (calls : List (TermId × TermId)) (r : TermId) (w' : σ) (st' : TermStore) : Prop where
  /-- The function is called at the leaves, as often as they stand in the
  term and from left to right: at those that walking through the leaves
  visits. -/
  leaves_eq : st.leaves t = .ok (calls.map Prod.fst)
  gathered : ∃ k, ∀ n ≥ k, st.gatherTurns Node.hasChildren n [t] [] = .ok ([], calls.map Prod.fst)
  in_turn : CallsInTurn f st w calls st' w'
  /-- The answer is the term with the answers in the places of the
  leaves. -/
  rebuilt : Rebuilt st' [t] (calls.map Prod.snd) [r]
  recursive : ((mapLeaves f t).run w).on st = (.ok (r, w'), st')
  /-- The stacks come to an end, with nothing left to do and one result,
  and after no number of turns have the results run out. -/
  ends : ∃ k, ∀ n ≥ k,
    ((mapTurns f n (.start t)).run w).on st = (.ok (some ⟨[], [r]⟩, w'), st')
  never_runs_out : ∀ n, ∃ s w₁ st₁,
    ((mapTurns f n (.start t)).run w).on st = (.ok (some s, w₁), st₁)

/-- Mapping the leaves of a term goes as `MapRun` says, by recursion and
with stacks. -/
theorem exists_mapRun {f : TermId → StateT σ Build TermId} {J : TermStore → σ → Prop} {w : σ}
    (ht : st.Unfolds t) (hf : MapsLeaves st t f J) (hw : J st w) :
    ∃ calls r w' st', MapRun st f w t calls r w' st' := by
  obtain ⟨r, w', st', hr, hmapped⟩ := exists_mapped hf ht hw
  obtain ⟨calls, hfst, hcalls, hrebuilt⟩ := hmapped.calls
  rw [List.flatMap_singleton] at hfst
  obtain ⟨k, hk⟩ := ends_of_leads (hmapped.leads [] [])
  obtain ⟨T, hT⟩ := id ht
  refine ⟨calls, r, w', st', ?_, ?_, hcalls, hrebuilt, hr, ⟨k, hk⟩, fun n => ?_⟩
  · rw [hfst]
    exact (leafList_of_denotes hT).1
  · rw [hfst]
    exact (gathers_leaves ht).ends
  · exact exists_of_mapTurns_add (hk (n + k) (Nat.le_add_left k n))

/-- The leaf map is left-to-right replacement of the leaves.

Whatever the function does at each call, it is called at the leaves of the
term in order, and the answer is the term with what it answered in their
places, whether the map calls itself or keeps stacks (`MapRun`). Mapping
every leaf to itself answers the term, and makes nothing. And for
functions without a state that answer terms of the store, mapping the
leaves by the one and then by the other is mapping each leaf to what the
second map makes of what the first function answers. -/
theorem mapLeaves_in_order (ht : st.Unfolds t) :
    (∀ {σ : Type} {f : TermId → StateT σ Build TermId} {J : TermStore → σ → Prop} {w : σ},
      MapsLeaves st t f J → J st w → ∃ calls r w' st', MapRun st f w t calls r w' st') ∧
    (mapLeaves (pure : TermId → Build TermId) t).on st = (.ok t, st) ∧
    ∀ f g : TermId → TermId, (∀ x l, st.node? x = some (.leaf l) → st.Unfolds (f x)) →
      (∀ x l, st.node? x = some (.leaf l) → st.Unfolds (g x)) →
      AnswersSame st (do mapLeaves (fun x => pure (g x)) (← mapLeaves (fun x => pure (f x)) t))
        (mapLeaves (fun x => mapLeaves (fun y => pure (g y)) (f x)) t) ∧
      AnswersSame st (mapLeaves (fun x => mapLeaves (fun y => pure (g y)) (f x)) t)
        (do mapLeaves (fun x => pure (g x)) (← mapLeaves (fun x => pure (f x)) t)) := by
  refine ⟨fun hf hw => exists_mapRun ht hf hw, ?_, fun f g hf hg => ?_⟩
  · obtain ⟨T, hT⟩ := ht
    exact on_mapLeaves_self hT fun _ _ _ _ => rfl
  · obtain ⟨T, hT⟩ := mapLeaves_comp ht hf hg
    exact ⟨answersSame_of_yields (fun st₁ hst₁ => (hT st₁ hst₁).1) fun st₁ hst₁ => (hT st₁ hst₁).2,
      answersSame_of_yields (fun st₁ hst₁ => (hT st₁ hst₁).2) fun st₁ hst₁ => (hT st₁ hst₁).1⟩

/-- A function that numbers the leaves that it is called at, in its state,
and answers the numbers. -/
def numberLeaf (_ : TermId) : StateT Nat Build TermId := do
  let n ← get
  set (n + 1)
  liftM (integer n)

/-- Numbering the leaves always answers and only makes literals. -/
theorem mapsLeaves_numberLeaf (st : TermStore) (t : TermId) :
    MapsLeaves st t numberLeaf fun _ _ => True where
  mono _ _ _ h _ := h
  answers _ _ st₁ n _ _ _ _ :=
    ⟨_, n + 1, _, rfl, extends_intern st₁ (.leaf (.integer n)), trivial⟩

/-- In `f(g(y), a)` the leaves `f`, `g`, `y` and `a` are met in this order.
They may be numbered; and `y` may be replaced by `f(x, z)`, and `x` there
by `a`. -/
theorem mapLeaves_in_order_patternSample :
    (patternSample.Unfolds ⟨8⟩ ∧ patternSample.leaves ⟨8⟩ = .ok [⟨5⟩, ⟨4⟩, ⟨1⟩, ⟨3⟩]) ∧
    ((MapsLeaves patternSample ⟨8⟩ numberLeaf fun _ _ => True) ∧
      ∃ calls r w' st', MapRun patternSample numberLeaf 0 ⟨8⟩ calls r w' st') ∧
    ∃ f g : TermId → TermId, f ⟨1⟩ = ⟨7⟩ ∧ g ⟨0⟩ = ⟨3⟩ ∧ AnswersSame patternSample
      (do mapLeaves (fun x => pure (g x)) (← mapLeaves (fun x => pure (f x)) ⟨8⟩))
      (mapLeaves (fun x => mapLeaves (fun y => pure (g y)) (f x)) ⟨8⟩) := by
  have ⟨_, hT, _⟩ : patternSample.WellFormed ⟨8⟩ := by decide
  have hwhole : patternSample.Unfolds ⟨8⟩ := ⟨_, hT⟩
  have hpart : patternSample.Unfolds ⟨7⟩ :=
    have ⟨_, hT, _⟩ : patternSample.WellFormed ⟨7⟩ := by decide
    ⟨_, hT⟩
  have hleaf : ∀ x l, patternSample.node? x = some (.leaf l) → patternSample.Unfolds x :=
    fun x l hx => ⟨.leaf l, denotes_leaf_iff.mpr hx⟩
  have hnumber := mapsLeaves_numberLeaf patternSample ⟨8⟩
  refine ⟨⟨hwhole, rfl⟩, ⟨hnumber, (mapLeaves_in_order hwhole).1 hnumber trivial⟩,
    fun x => if x = ⟨1⟩ then ⟨7⟩ else x, fun x => if x = ⟨0⟩ then ⟨3⟩ else x, rfl, rfl,
    ((mapLeaves_in_order hwhole).2.2 _ _ (fun x l hx => ?_) fun x l hx => ?_).1⟩
  · split
    · exact hpart
    · exact hleaf x l hx
  · split
    · exact ⟨_, denotes_leaf_iff.mpr rfl⟩
    · exact hleaf x l hx

end TermStore

end TypedTerms
