import TypedTerms.Proofs.Renaming
import TypedTerms.Proofs.Term.Occurrence
import TypedTerms.Proofs.Typing.Passes

/-!
# Which variables are found free

The walk for the free variables comes to the free occurrences in a term
from left to right, and finds their variables, each once
(`freeVarsWithin_eraseDups`). A variable is taken down where it is free
for the first time, whether or not it was met bound before. So the answer
is exact and in order (`freeVars_exact`). Collecting in place, with a
scope that is cut back and a set of variables seen that is not, comes to
the same.
-/

namespace TypedTerms

/-! ## What stands first -/

section First

variable {α : Type} [DecidableEq α]

/-- An entry more at the end is dropped if it stands in the list already. -/
theorem eraseDups_concat (xs : List α) (x : α) :
    (xs ++ [x]).eraseDups = if x ∈ xs then xs.eraseDups else xs.eraseDups ++ [x] := by
  rw [List.eraseDups_append, List.removeAll, List.filter_singleton]
  by_cases hx : x ∈ xs <;> simp [hx, List.eraseDups_cons]

/-- Steps that add their own finds behind those before, each once, make a
run that does so too. -/
theorem foldlM_eraseDups {β : Type} {gather : List α → β → Except Violation (List α)}
    {own : β → List α} {bs : List β}
    (h : ∀ b ∈ bs, ∀ xs : List α, gather xs.eraseDups b = .ok (xs ++ own b).eraseDups)
    (xs : List α) : bs.foldlM gather xs.eraseDups = .ok (xs ++ bs.flatMap own).eraseDups := by
  induction bs generalizing xs with
  | nil => rw [List.flatMap_nil, List.append_nil]; rfl
  | cons b bs ih =>
    obtain ⟨hb, hbs⟩ := List.forall_mem_cons.mp h
    rw [List.foldlM_cons, hb, List.flatMap_cons, ← List.append_assoc]
    exact ih hbs _

/-- Of things at positions that increase, each once, one comes before
another when it is at some position before all those of the other. -/
theorem pairwise_first {os : List (List Nat × α)} (h : os.Pairwise fun o o' => o.1 < o'.1) :
    (os.map Prod.snd).eraseDups.Pairwise fun x y =>
      ∃ p, (p, x) ∈ os ∧ ∀ q, (q, y) ∈ os → p < q := by
  -- what comes last is after everything else, and new if nothing before is the same
  induction os using List.reverseRecOn with
  | nil => exact .nil
  | append_singleton os o ih =>
    obtain ⟨p₀, x₀⟩ := o
    obtain ⟨hos, -, hlast⟩ := List.pairwise_append.mp h
    have hbefore : ∀ {p x}, (p, x) ∈ os → p < p₀ :=
      fun hp => hlast _ hp _ (List.mem_singleton_self _)
    have hstay : (os.map Prod.snd).eraseDups.Pairwise fun x y =>
        ∃ p, (p, x) ∈ os ++ [(p₀, x₀)] ∧ ∀ q, (q, y) ∈ os ++ [(p₀, x₀)] → p < q := by
      refine (ih hos).imp fun {x y} ⟨p, hp, hfirst⟩ =>
        ⟨p, List.mem_append_left _ hp, fun q hq => ?_⟩
      rcases List.mem_append.mp hq with hq | hq
      · exact hfirst q hq
      · cases List.mem_singleton.mp hq
        exact hbefore hp
    rw [List.map_append, List.map_singleton, eraseDups_concat]
    split
    · exact hstay
    · rename_i hnew
      refine List.pairwise_append.mpr ⟨hstay, List.pairwise_singleton _ _, fun x hx y hy => ?_⟩
      cases List.mem_singleton.mp hy
      obtain ⟨⟨p, x⟩, hp, rfl⟩ := List.mem_map.mp (List.mem_eraseDups.mp hx)
      refine ⟨p, List.mem_append_left _ hp, fun q hq => ?_⟩
      rcases List.mem_append.mp hq with hq | hq
      · exact absurd (List.mem_map_of_mem hq) hnew
      · cases List.mem_singleton.mp hq
        exact hbefore hp

end First

namespace TermStore

variable {st : TermStore} {t u v first body : TermId} {rest vars bound : List TermId} {l : Leaf}
  {op : Operator} {T : Tree} {d : Nat}

/-! ## What the walk finds -/

/-- A leaf is put behind what was found if it is a variable that is not
bound and not found yet. -/
theorem freeVarsWithin_leaf (hn : st.node? t = some (.leaf l)) (found : List TermId) :
    st.freeVarsWithin (d + 1) bound t found =
      .ok (if l.isVar ∧ t ∉ bound ∧ t ∉ found then found ++ [t] else found) := by
  rw [freeVarsWithin, node_of_node? hn]
  rfl

/-- A quantifier is walked through its body, with the terms it lists bound.
-/
theorem freeVarsWithin_quantifier (hn : st.node? t = some (.app op body vars))
    (hop : op.isQuantifier = true) (found : List TermId) :
    st.freeVarsWithin (d + 1) bound t found = st.freeVarsWithin d (bound ++ vars) body found := by
  rw [freeVarsWithin, node_of_node? hn]
  cases op with
  | universal | existential => rfl
  | _ => cases hop

/-- Any other node is walked through its children, from left to right. -/
theorem freeVarsWithin_other (hn : st.node? t = some (.app op first rest))
    (hop : op.isQuantifier = false) (found : List TermId) :
    st.freeVarsWithin (d + 1) bound t found =
      (first :: rest).foldlM (fun found c => st.freeVarsWithin d bound c found) found := by
  rw [freeVarsWithin, node_of_node? hn]
  cases op with
  | universal | existential => cases hop
  | _ => rfl

/-- The variables of the free occurrences that are not bound outside. -/
def freeBeyond (st : TermStore) (bound : List TermId) (d : Nat) (t : TermId) : List TermId :=
  ((st.freeWithin d t).map Prod.snd).filter (· ∉ bound)

/-- A leaf occurs free if it is a variable that is not bound. -/
theorem freeBeyond_leaf (hn : st.node? t = some (.leaf l)) :
    st.freeBeyond bound (d + 1) t = if l.isVar ∧ t ∉ bound then [t] else [] := by
  rw [freeBeyond, freeWithin_leaf hn]
  cases l.isVar <;> simp [List.filter_singleton]

/-- What a quantifier lists is bound outside its body. -/
theorem freeBeyond_quantifier (hn : st.node? t = some (.app op body vars))
    (hop : op.isQuantifier = true) :
    st.freeBeyond bound (d + 1) t = st.freeBeyond (bound ++ vars) d body := by
  rw [freeBeyond, freeBeyond, freeWithin_quantifier hn hop, map_snd_below, List.filter_map,
    List.filter_map, List.filter_filter]
  congr 2
  funext o
  simp [not_or]

/-- In a node that is no quantifier the free occurrences are those in its
children, in order. -/
theorem freeBeyond_other (hn : st.node? t = some (.app op first rest))
    (hop : op.isQuantifier = false) :
    st.freeBeyond bound (d + 1) t = (first :: rest).flatMap (st.freeBeyond bound d) := by
  have hplaces : (first :: rest).flatMap (st.freeBeyond bound d) =
      (first :: rest).zipIdx.flatMap fun c => st.freeBeyond bound d c.1 := by
    rw [← List.flatMap_map Prod.fst, List.zipIdx_map_fst]
  rw [hplaces, freeBeyond, freeWithin_other hn hop, List.map_flatMap, List.filter_flatMap]
  simp only [map_snd_below]
  rfl

/-- Behind what was found before, the walk adds the variables of the free
occurrences, each once. -/
theorem freeVarsWithin_eraseDups (hT : st.Denotes t T) (hd : T.depth ≤ d) :
    ∀ bound xs : List TermId, st.freeVarsWithin d bound t xs.eraseDups =
      .ok (xs ++ st.freeBeyond bound d t).eraseDups := by
  refine hT.walk_induct (P := fun d t => ∀ bound xs : List TermId,
    st.freeVarsWithin d bound t xs.eraseDups = .ok (xs ++ st.freeBeyond bound d t).eraseDups) hd ?_
  intro d t n hn _ ih bound xs
  cases n with
  | leaf l =>
    rw [freeVarsWithin_leaf hn, freeBeyond_leaf hn]
    by_cases hfree : l.isVar = true ∧ t ∉ bound
    · rw [if_pos hfree, eraseDups_concat]
      simp [hfree]
    · have hnot : ¬ (l.isVar = true ∧ t ∉ bound ∧ t ∉ xs.eraseDups) :=
        fun h => hfree ⟨h.1, h.2.1⟩
      rw [if_neg hfree, if_neg hnot, List.append_nil]
  | app op first rest =>
    cases hop : op.isQuantifier with
    | true =>
      rw [freeVarsWithin_quantifier hn hop, ih first List.mem_cons_self,
        freeBeyond_quantifier hn hop]
    | false =>
      rw [freeVarsWithin_other hn hop, freeBeyond_other hn hop]
      exact foldlM_eraseDups (fun c hc xs => ih c hc bound xs) xs

/-- The walk finds the variables of the free occurrences, each where it is
free for the first time. -/
theorem exists_freeVars (ht : st.Unfolds t) : ∃ vars, st.freeVars t = .ok vars ∧
    (∀ v, v ∈ vars ↔ v ∈ st.freeVariables t) ∧
    vars.Pairwise fun u v => ∃ p, st.FreeAt u t p ∧ ∀ q, st.FreeAt v t q → p < q := by
  obtain ⟨T, hT⟩ := ht
  have hd : T.depth ≤ st.depthLimit := hT.depth_le_size.trans (Nat.le_succ _)
  have hmem := mem_freeWithin hT hd
  have hwalk := freeVarsWithin_eraseDups hT hd [] []
  rw [List.eraseDups_nil, List.nil_append, freeBeyond,
    List.filter_eq_self.mpr fun _ _ => decide_eq_true List.not_mem_nil] at hwalk
  have hfirst := pairwise_first (st.pairwise_freeWithin st.depthLimit t)
  simp only [hmem] at hfirst
  refine ⟨_, hwalk, fun v => ?_, hfirst⟩
  rw [List.mem_eraseDups, List.mem_map]
  constructor
  · rintro ⟨⟨p, v⟩, hp, rfl⟩
    exact ⟨p, (hmem p v).mp hp⟩
  · rintro ⟨p, hp⟩
    exact ⟨(p, v), (hmem p v).mpr hp, rfl⟩

/-! ## Collecting in place -/

/-- The accumulators stand for a state of the walk: the scope is as it
was, and the set holds what has been found. -/
structure Collected (bound found : List TermId) (c : Collector) : Prop where
  bound_eq : c.bound = bound
  free_eq : c.free = found
  mem_seen : ∀ v, v ∈ c.seen ↔ v ∈ found

/-- Meeting a variable keeps the accumulators in step with the walk that
hands its list on. -/
theorem Collected.meet {found : List TermId} {c : Collector} (h : Collected bound found c)
    (t : TermId) :
    Collected bound (if t ∉ bound ∧ t ∉ found then found ++ [t] else found) (c.meet t) := by
  obtain ⟨rfl, rfl, hseen⟩ := h
  unfold Collector.meet
  by_cases hnew : t ∉ c.bound ∧ t ∉ c.free
  · rw [if_pos hnew, if_pos ⟨hnew.1, fun hmem => hnew.2 ((hseen t).mp hmem)⟩]
    refine ⟨rfl, rfl, fun v => ?_⟩
    rw [Std.HashSet.mem_insert, hseen, List.mem_append, List.mem_singleton, beq_iff_eq, or_comm,
      eq_comm]
  · rw [if_neg hnew, if_neg fun h => hnew ⟨h.1, fun hmem => h.2 ((hseen t).mpr hmem)⟩]
    exact ⟨rfl, rfl, hseen⟩

/-- One child after the other. -/
theorem forM_collect_alike {collect : TermId → StateT Collector (Except Violation) PUnit}
    {gather : List TermId → TermId → Except Violation (List TermId)} {ts : List TermId}
    (h : ∀ t (found : List TermId) (c : Collector), Collected bound found c →
      EndAlike (fun a found => Collected bound found a.2) ((collect t).run c) (gather found t))
    {found : List TermId} {c : Collector} (hc : Collected bound found c) :
    EndAlike (fun a found => Collected bound found a.2) ((ts.forM collect).run c)
      (ts.foldlM gather found) := by
  induction ts generalizing found c with
  | nil => exact hc
  | cons t ts ih =>
    rw [List.foldlM_cons]
    exact (h t found c hc).bind fun a found ha => ih ha

section Run

variable {c : Collector}

/-- Of the leaves, only variables are met. -/
theorem run_collectWithin_leaf (hn : st.node? t = some (.leaf l)) :
    (st.collectWithin (d + 1) t).run c = .ok ((), if l.isVar then c.meet t else c) := by
  rw [collectWithin, node_of_node? hn]
  show (if l.isVar = true then modify fun c => c.meet t else pure () :
    StateT Collector (Except Violation) Unit).run c = _
  cases l.isVar <;> rfl

/-- At a quantifier the scope grows by the terms it lists, and is cut back
when the body has been walked. -/
theorem run_collectWithin_quantifier (hn : st.node? t = some (.app op body vars))
    (hop : op.isQuantifier = true) :
    (st.collectWithin (d + 1) t).run c =
      (st.collectWithin d body).run { c with bound := c.bound ++ vars } >>= fun a =>
        .ok ((), { a.2 with bound := a.2.bound.take c.bound.length }) := by
  rw [collectWithin, node_of_node? hn]
  cases op with
  | universal | existential => rfl
  | _ => cases hop

/-- At any other node the children are collected one after the other. -/
theorem run_collectWithin_other (hn : st.node? t = some (.app op first rest))
    (hop : op.isQuantifier = false) :
    (st.collectWithin (d + 1) t).run c = ((first :: rest).forM (st.collectWithin d)).run c := by
  rw [collectWithin, node_of_node? hn]
  cases op with
  | universal | existential => cases hop
  | _ => rfl

end Run

/-- Collecting follows the walk: it ends as the walk ends, with the scope
cut back to what it was. -/
theorem collectWithin_alike (st : TermStore) (d : Nat) (t : TermId) {found : List TermId}
    {c : Collector} (h : Collected bound found c) :
    EndAlike (fun a found => Collected bound found a.2) ((st.collectWithin d t).run c)
      (st.freeVarsWithin d bound t found) := by
  induction d generalizing t bound found c with
  | zero => rfl
  | succ d ih =>
    cases hn : st.node? t with
    | none =>
      have hnode : st.node t = .error (.unknownTerm t) := by rw [node, hn]
      rw [collectWithin, freeVarsWithin, hnode]
      rfl
    | some n =>
      cases n with
      | leaf l =>
        rw [freeVarsWithin_leaf hn, run_collectWithin_leaf hn]
        cases hl : l.isVar with
        | false => simpa [EndAlike] using h
        | true => simpa [EndAlike] using h.meet t
      | app op first rest =>
        cases hop : op.isQuantifier with
        | true =>
          obtain ⟨rfl, hfree, hseen⟩ := h
          have hinner : Collected (c.bound ++ rest) found { c with bound := c.bound ++ rest } :=
            ⟨rfl, hfree, hseen⟩
          -- the walk cuts nothing back; its answer is handed on as it is
          rw [freeVarsWithin_quantifier hn hop, run_collectWithin_quantifier hn hop,
            ← bind_pure (freeVarsWithin ..)]
          refine (ih first hinner).bind fun a found ha => ?_
          refine Collected.mk ?_ ha.free_eq ha.mem_seen
          rw [ha.bound_eq, List.take_left]
        | false =>
          rw [freeVarsWithin_other hn hop, run_collectWithin_other hn hop]
          exact forM_collect_alike (fun t _ _ hc => ih t hc) h

/-- Collecting in place answers what the walk that hands its list on does.
-/
theorem collectFreeVars_eq (st : TermStore) (t : TermId) :
    st.collectFreeVars t = st.freeVars t := by
  have hstart : Collected [] [] Collector.start := ⟨rfl, rfl, fun v => by simp [Collector.start]⟩
  have halike := st.collectWithin_alike st.depthLimit t hstart
  rw [collectFreeVars, freeVars]
  cases hfound : st.freeVarsWithin st.depthLimit [] t [] with
  | error v =>
    rw [hfound] at halike
    rw [halike.eq_error]
    rfl
  | ok found =>
    rw [hfound] at halike
    obtain ⟨a, ha, hcollected⟩ := halike.exists_ok
    rw [ha]
    exact congrArg Except.ok hcollected.free_eq

/-- The free variables of a term are found exactly, and in order.

The walk answers for every term of the store, and collecting in place
answers the same. No variable is answered twice. Those answered are what
the recursion over terms says, of which the variables free at some
position are a solution. And one comes before another when it is free at
some position that is before all the positions where the other is
free. -/
theorem freeVars_exact (ht : st.Unfolds t) :
    st.FreeVariableRecursion st.freeVariables ∧
      ∃ vars, st.freeVars t = .ok vars ∧ st.collectFreeVars t = .ok vars ∧ vars.Nodup ∧
        (∀ free, st.FreeVariableRecursion free → ∀ v, v ∈ vars ↔ v ∈ free t) ∧
        vars.Pairwise fun u v => ∃ p, st.FreeAt u t p ∧ ∀ q, st.FreeAt v t q → p < q := by
  obtain ⟨vars, hvars, hmem, hfirst⟩ := exists_freeVars ht
  refine ⟨st.freeVariables_recursion, vars, hvars, (st.collectFreeVars_eq t).trans hvars,
    hfirst.imp ?_, fun free hfree v => (hfree.eq ht).symm ▸ hmem v, hfirst⟩
  rintro u _ ⟨p, hp, hbefore⟩ rfl
  exact List.lt_irrefl p (hbefore p hp)

/-- A store with the real variables `x`, `y` and `z`, and with the
formulas `x < y`, `x < z`, `∃ x, x < z`, `x < y ∧ ∃ x, x < z`, the last
one under `∀ x`, and that one before `x < z` and `x < y`. -/
def scopeSample : TermStore :=
  .ofNodes
    [.leaf (.var 0 .real), .leaf (.var 1 .real), .leaf (.var 2 .real), .app .less ⟨0⟩ [⟨1⟩],
      .app .less ⟨0⟩ [⟨2⟩], .app .existential ⟨4⟩ [⟨0⟩], .app .and ⟨3⟩ [⟨5⟩],
      .app .universal ⟨6⟩ [⟨0⟩], .app .and ⟨7⟩ [⟨4⟩, ⟨3⟩]]
    (by decide) 3

/-- In `(∀ x, x < y ∧ ∃ x, x < z) ∧ x < z ∧ x < y` the variable `x` is met
bound, and bound once more, before it is met free; `y` and `z` come
first. -/
theorem freeVars_exact_scopeSample :
    (scopeSample.Unfolds ⟨8⟩ ∧ scopeSample.freeVars ⟨8⟩ = .ok [⟨1⟩, ⟨2⟩, ⟨0⟩]) ∧
      scopeSample.FreeVariableRecursion scopeSample.freeVariables ∧
      ∃ vars, scopeSample.freeVars ⟨8⟩ = .ok vars ∧ scopeSample.collectFreeVars ⟨8⟩ = .ok vars ∧
        vars.Nodup ∧ (∀ free, scopeSample.FreeVariableRecursion free →
          ∀ v, v ∈ vars ↔ v ∈ free ⟨8⟩) ∧
        vars.Pairwise fun u v => ∃ p, scopeSample.FreeAt u ⟨8⟩ p ∧
          ∀ q, scopeSample.FreeAt v ⟨8⟩ q → p < q :=
  have ⟨_, hT, _⟩ : scopeSample.WellFormed ⟨8⟩ := by decide
  ⟨⟨⟨_, hT⟩, rfl⟩, freeVars_exact ⟨_, hT⟩⟩

end TermStore

end TypedTerms

/-!
## Closing a formula

A formula that passes the check becomes, under a universal quantifier over
its free variables, a formula that passes the check and has none
(`quantify_closes`). The check asks of every listed term that it be a
variable, and checks it like any other. Both hold of what is found free:
it is a variable, and it stands in the formula, where the check of the
formula has come to it.
-/

namespace TypedTerms.TermStore

open Build

variable {st st' : TermStore} {t q v : TermId} {vars : List TermId} {T : Tree}

/-- What is free in a term stays so while the store grows. -/
theorem freeVariables_eq_of_extends (hst : st.Extends st') (ht : st.Unfolds t) :
    st'.freeVariables t = st.freeVariables t := by
  obtain ⟨T, hT⟩ := ht
  obtain ⟨vars, hvars, hmem, -⟩ := exists_freeVars ⟨T, hT⟩
  obtain ⟨vars', hvars', hmem', -⟩ := exists_freeVars ⟨T, denotes_of_extends hst hT⟩
  rw [freeVars_eq_of_extends hst ⟨T, hT⟩, hvars] at hvars'
  cases hvars'
  ext v
  rw [← hmem, ← hmem']

/-- The free variables of a formula that passes the check pass it too. -/
theorem exists_leaf_of_free (hT : st.Denotes t T) (hwt : T.WellTyped)
    (hv : v ∈ st.freeVariables t) :
    ∃ l, st.Denotes v (.leaf l) ∧ l.isVar = true ∧ (Tree.leaf l).WellTyped := by
  obtain ⟨p, hfree⟩ := hv
  obtain ⟨l, hl, hvar⟩ := hfree.isVariable
  have hfits := (wellTyped_iff_of_denotes hT).mp hwt v hfree.subterm
  rw [Fits, hl] at hfits
  exact ⟨l, denotes_leaf_iff.mpr hl, hvar, Tree.wellTyped_leaf_iff.mpr hfits⟩

/-- A well-typed formula under a quantifier over variables found free in
it. -/
theorem check_universal (hst : st.Extends st') (h : (st.check t .bool).run = .ok (.ok ()))
    (hq : st'.node? q = some (.app .universal t vars))
    (hvars : ∀ v ∈ vars, v ∈ st.freeVariables t) : (st'.check q .bool).run = .ok (.ok ()) := by
  obtain ⟨T, hT, hty, hwt⟩ := check_eq_ok_iff.mp h
  have hfree : ∀ v ∈ vars, ∃ V, st'.Denotes v V ∧
      (∃ l, V.leaf? = some l ∧ l.isVar = true) ∧ V.WellTyped := by
    intro v hv
    obtain ⟨l, hl, hvar, hfits⟩ := exists_leaf_of_free hT hwt (hvars v hv)
    exact ⟨.leaf l, denotes_of_extends hst hl, ⟨l, rfl, hvar⟩, hfits⟩
  obtain ⟨Vs, hVs⟩ := exists_forall₂ hfree
  have hlisted : ∀ V ∈ Vs, (∃ l, V.leaf? = some l ∧ l.isVar = true) ∧ V.WellTyped := by
    intro V hV
    obtain ⟨v, -, hv⟩ := exists_of_mem_left hVs.flip hV
    exact hv.2
  refine check_eq_ok_iff.mpr ⟨.app .universal T Vs, ?_, rfl, Tree.wellTyped_app_iff.mpr ⟨?_, ?_⟩⟩
  · exact denotes_app_iff.mpr ⟨t, vars, hq,
      .cons (denotes_of_extends hst hT) (hVs.imp fun _ _ hv => hv.1)⟩
  · refine ⟨T.operand, Vs.map Tree.operand, rfl, hty, fun x hx => ?_⟩
    obtain ⟨V, hV, rfl⟩ := List.mem_map.mp hx
    exact (hlisted V hV).1
  · exact List.forall_mem_cons.mpr ⟨hwt, fun V hV => (hlisted V hV).2⟩

/-- Under a quantifier over all its free variables a term has none. -/
theorem freeVars_universal (hq : st.node? q = some (.app .universal t vars))
    (hunfolds : st.Unfolds q) (hvars : ∀ v ∈ st.freeVariables t, v ∈ vars) :
    st.freeVars q = .ok [] := by
  obtain ⟨found, hfound, hmem, -⟩ := exists_freeVars hunfolds
  have hnone : found = [] := by
    refine List.eq_nil_iff_forall_not_mem.mpr fun v hv => ?_
    rw [hmem, st.freeVariables_recursion.quantifier hq rfl] at hv
    exact hv.2 (hvars v hv.1)
  rw [hfound, hnone]

/-- A term without free variables is answered as it is. -/
theorem on_quantify_of_closed (h : st.freeVars t = .ok []) :
    (quantify t).on st = (.ok t, st) := by
  rw [quantify, on_bind, on_read, h]
  rfl

/-- A term with free variables is put under a universal quantifier that
lists them. -/
theorem on_quantify_of_free (h : st.freeVars t = .ok vars) (hne : vars ≠ []) :
    (quantify t).on st = (.ok (st.intern (.app .universal t vars)).1,
      (st.intern (.app .universal t vars)).2) := by
  rw [quantify, on_bind, on_read, h]
  cases vars with
  | nil => exact absurd rfl hne
  | cons => rfl

/-- Closing gives a closed formula. Of every formula that passes the check
it answers one that passes the check, has no free variable, and is
answered when it is closed once more. The formula is answered as it is
exactly when no variable is free in it; otherwise it stands under a
universal quantifier over the variables that are. -/
theorem quantify_closes (h : (st.check t .bool).run = .ok (.ok ())) :
    ∃ q st', (quantify t).on st = (.ok q, st') ∧ st.Extends st' ∧
      (st'.check q .bool).run = .ok (.ok ()) ∧ st'.freeVars q = .ok [] ∧
      (quantify q).on st' = (.ok q, st') ∧ (q = t ↔ st.freeVariables t = ∅) ∧
      (q = t ∨ ∃ vars, st.freeVars t = .ok vars ∧ st'.node? q = some (.app .universal t vars)) := by
  obtain ⟨T, hT, -, -⟩ := check_eq_ok_iff.mp h
  obtain ⟨vars, hvars, hmem, -⟩ := exists_freeVars ⟨T, hT⟩
  by_cases hnone : vars = []
  · subst hnone
    have hempty : st.freeVariables t = ∅ := by
      ext v
      simp [← hmem]
    have hself := on_quantify_of_closed hvars
    exact ⟨t, st, hself, extends_refl st, h, hvars, hself, iff_of_true rfl hempty, .inl rfl⟩
  · have hst := extends_intern st (.app .universal t vars)
    have hq := node?_intern st (.app .universal t vars)
    have hcheck := check_universal hst h hq fun v hv => (hmem v).mp hv
    obtain ⟨Q, hQ, -, -⟩ := check_eq_ok_iff.mp hcheck
    have hclosed := freeVars_universal hq ⟨Q, hQ⟩ fun v hv =>
      (hmem v).mpr (freeVariables_eq_of_extends hst ⟨T, hT⟩ ▸ hv)
    refine ⟨_, _, on_quantify_of_free hvars hnone, hst, hcheck, hclosed,
      on_quantify_of_closed hclosed, iff_of_false ?_ ?_, .inr ⟨vars, hvars, hq⟩⟩
    · intro heq
      have hbelow : (st.intern (.app .universal t vars)).2.IsChild t t :=
        ⟨_, heq ▸ hq, List.mem_cons_self⟩
      exact (denotes_of_extends hst hT).not_below_itself (.single hbelow)
    · intro hempty
      obtain ⟨v, hv⟩ := List.exists_mem_of_ne_nil vars hnone
      exact absurd ((hmem v).mp hv) (hempty ▸ Set.notMem_empty v)

/-- The formula `y < x` of two real variables passes the check; `y` and `x`
are free in it. -/
theorem quantify_closes_boundSample :
    ((boundSample.check ⟨3⟩ .bool).run = .ok (.ok ()) ∧
      boundSample.freeVars ⟨3⟩ = .ok [⟨1⟩, ⟨0⟩]) ∧
      ∃ q st', (quantify ⟨3⟩).on boundSample = (.ok q, st') ∧ boundSample.Extends st' ∧
        (st'.check q .bool).run = .ok (.ok ()) ∧ st'.freeVars q = .ok [] ∧
        (quantify q).on st' = (.ok q, st') ∧ (q = ⟨3⟩ ↔ boundSample.freeVariables ⟨3⟩ = ∅) ∧
        (q = ⟨3⟩ ∨ ∃ vars, boundSample.freeVars ⟨3⟩ = .ok vars ∧
          st'.node? q = some (.app .universal ⟨3⟩ vars)) :=
  ⟨⟨rfl, rfl⟩, quantify_closes rfl⟩

end TypedTerms.TermStore
