import TypedTerms.Proofs.Decompose
import TypedTerms.Proofs.Becomes
import TypedTerms.Proofs.Replace

/-!
# Matching is sound

Matching takes the values of variables as they are, while replacing
follows them to their end. The two agree when nothing that is bound
stands in the target: values that are met are parts of the target, and
end there. Then the pattern is replaced by the target, and the target by
itself (`matchWith_sound`). What else the chain binds is never looked at;
it may even lead in a circle.

The proof is about maps that agree with the bindings. An application of
the rule loses none of the equations (`MatchStep.isInstance`), so a map
that agrees with the answer, and leaves the target alone, makes the
target of the pattern.
-/

/-!
## One equation of matching

What the rule of matching makes of one equation between well-formed
terms, case by case (`matchRule_spec`). Nothing is asked of the chain:
values are compared by number and never looked into, so it may bind any
term to any term.

A step leaves an equation between children or none at all, so matching
comes to an end (`matchRule_ends`), on any chain.
-/

namespace TypedTerms.TermStore

variable {st : TermStore} {s s' : Subst} {a b : TermId} {pending new rest : List Equation}

/-- What becomes of an equation between a pattern and a target. -/
inductive MatchStep (st : TermStore) (s : Subst) (a b : TermId) :
    Option (Subst × List Equation) → Prop where
  | same (h : a = b) : MatchStep st s a b (some (s, []))
  | types (h : st.ty a ≠ st.ty b) : MatchStep st s a b none
  | met (hvar : st.IsVariable a) (hv : s.get? a = some b) : MatchStep st s a b (some (s, []))
  | clash {v : TermId} (hvar : st.IsVariable a) (hv : s.get? a = some v) (hne : v ≠ b) :
    MatchStep st s a b none
  | bind (h : a ≠ b) (hty : st.ty a = st.ty b) (hvar : st.IsVariable a) (free : s.get? a = none) :
    MatchStep st s a b (some (s.bind a b, []))
  | split {op : Operator} {c d : TermId} {cs ds : List TermId}
    (ha : st.node? a = some (.app op c cs)) (hb : st.node? b = some (.app op d ds))
    (hlen : cs.length = ds.length) :
    MatchStep st s a b (some (s, (c, d) :: cs.zip ds))
  | mismatch {m n : Node} (h : a ≠ b) (ha : st.node? a = some m) (hb : st.node? b = some n)
    (hvar : ¬ st.IsVariable a)
    (hne : ¬ (m.tag = n.tag ∧ m.children ≠ [] ∧ m.children.length = n.children.length)) :
    MatchStep st s a b none

/-- What taking an equation apart leaves is a case of the rule, if the sides
differ and the pattern is no variable. -/
theorem Decomposes.matchStep {r : Option (List Equation)} (h : st.Decomposes a b r) (hne : a ≠ b)
    (hvar : ¬ st.IsVariable a) (s : Subst) : st.MatchStep s a b (r.map ((s, ·))) := by
  cases h with
  | split ha hb hlen => exact .split ha hb hlen
  | mismatch ha hb hdiff => exact .mismatch hne ha hb hvar hdiff

/-- The rule answers, by one of the cases. -/
theorem matchRule_spec (ha : st.WellFormed a) (hb : st.WellFormed b) (s : Subst) :
    ∃ r, st.matchRule s a b = .ok r ∧ st.MatchStep s a b r := by
  refine guarded_spec ha hb .same .types fun h hty => ?_
  obtain ⟨m, hm⟩ := ha.known
  obtain ⟨n, hn⟩ := hb.known
  obtain ⟨va, hva, hva_iff⟩ := isVar_spec hm
  rw [hva]
  simp only [bind, Except.bind]
  by_cases hleft : va = true
  · have hvar := hva_iff.mp hleft
    rw [if_pos hleft]
    cases hv : s.get? a with
    | none => exact ⟨_, rfl, .bind h hty hvar hv⟩
    | some v =>
      by_cases hvb : v = b
      · refine ⟨some (s, []), congrArg Except.ok (if_pos hvb), .met hvar ?_⟩
        rw [hv, hvb]
      · exact ⟨none, congrArg Except.ok (if_neg hvb), .clash hvar hv hvb⟩
  · obtain ⟨r, hr, hparts⟩ := decompose_spec hm hn
    refine ⟨_, ?_, hparts.matchStep h (fun hv => hleft (hva_iff.mpr hv)) s⟩
    rw [if_neg hleft, hr]
    rfl

/-! ### What a step keeps -/

/-- The chain stays, or the pattern is a free variable and is bound to
the target. -/
theorem MatchStep.chain (h : st.MatchStep s a b (some (s', new))) :
    s' = s ∨ s' = s.bind a b ∧ st.IsVariable a ∧ s.get? a = none ∧ st.ty a = st.ty b := by
  cases h with
  | same | met | split => exact .inl rfl
  | bind _ hty hvar free => exact .inr ⟨rfl, hvar, free, hty⟩

/-- What holds of the pattern and is handed down to children holds of the
new patterns, and so for the targets. -/
theorem MatchStep.parts {P Q : TermId → Prop} (h : st.MatchStep s a b (some (s', new)))
    (hP : ∀ {t c}, P t → st.IsChild c t → P c) (hQ : ∀ {t c}, Q t → st.IsChild c t → Q c)
    (ha : P a) (hb : Q b) : ∀ e ∈ new, P e.1 ∧ Q e.2 := by
  cases h with
  | same | met | bind => exact fun _ he => nomatch he
  | split hna hnb _ =>
    intro e he
    have ⟨hc, hd⟩ := isChild_of_mem_zip hna hnb he
    exact ⟨hP ha hc, hQ hb hd⟩

/-- Patterns stay inside the pattern, and targets inside the target. -/
theorem MatchStep.below {p t : TermId} (h : st.MatchStep s a b (some (s', new)))
    (hbelow : ∀ e ∈ (a, b) :: rest, st.Subterm e.1 p ∧ st.Subterm e.2 t) :
    ∀ e ∈ new ++ rest, st.Subterm e.1 p ∧ st.Subterm e.2 t := by
  obtain ⟨⟨hap, hbt⟩, hrest⟩ := List.forall_mem_cons.mp hbelow
  have hnew := h.parts (fun hu hc => hu.tail hc) (fun hu hc => hu.tail hc) hap hbt
  exact List.forall_mem_append.mpr ⟨hnew, hrest⟩

/-- Every equation is between well-formed terms. -/
def AllWellFormed (st : TermStore) (pending : List Equation) : Prop :=
  ∀ e ∈ pending, st.WellFormed e.1 ∧ st.WellFormed e.2

/-- Equations between parts of well-formed terms are such. -/
theorem allWellFormed_of_below {p t : TermId} (hp : st.WellFormed p) (ht : st.WellFormed t)
    (hbelow : ∀ e ∈ pending, st.Subterm e.1 p ∧ st.Subterm e.2 t) : st.AllWellFormed pending := by
  intro e he
  obtain ⟨hep, het⟩ := hbelow e he
  exact ⟨hp.subterm hep, ht.subterm het⟩

/-- What the rule answers there is one of the cases. -/
theorem AllWellFormed.matchStep {r : Option (Subst × List Equation)}
    (h : st.AllWellFormed ((a, b) :: rest)) (hr : st.matchRule s a b = .ok r) :
    st.MatchStep s a b r := by
  obtain ⟨⟨ha, hb⟩, -⟩ := List.forall_mem_cons.mp h
  obtain ⟨r', hr', hstep⟩ := matchRule_spec ha hb s
  rw [hr] at hr'
  cases hr'
  exact hstep

/-- A step leaves equations between well-formed terms. -/
theorem MatchStep.allWellFormed (h : st.MatchStep s a b (some (s', new)))
    (hwf : st.AllWellFormed ((a, b) :: rest)) : st.AllWellFormed (new ++ rest) := by
  obtain ⟨⟨ha, hb⟩, hrest⟩ := List.forall_mem_cons.mp hwf
  have hnew := h.parts WellFormed.child WellFormed.child ha hb
  exact List.forall_mem_append.mpr ⟨hnew, hrest⟩

/-! ### Matching ends -/

/-- A step leaves equations of less weight. -/
theorem MatchStep.load_lt {ω : Leaf → Nat} (h : st.MatchStep s a b (some (s', new)))
    (ha : st.WellFormed a) (hb : st.WellFormed b) (hω : ∀ l, 0 < ω l) :
    st.load ω new < st.weight ω a + st.weight ω b := by
  have hpos : 0 < st.weight ω a := by
    obtain ⟨T, hT, -⟩ := ha
    exact weight_pos hω hT
  cases h with
  | same | met | bind => exact Nat.add_pos_left hpos _
  | split hna hnb _ => exact load_children_lt ha hb hna hnb

/-- Over equations between well-formed terms a run ends and answers. -/
theorem matchRule_ends (h : st.AllWellFormed pending) (s : Subst) :
    ∃ N r, (∀ n ≥ N, st.matchRule.solve n s pending = .ok r) ∧
      ∀ n < N, st.matchRule.solve n s pending = .error .endless := by
  -- no binding is followed, so every leaf may weigh the same
  let ω : Leaf → Nat := fun _ => 1
  refine Rule.solve_ends (I := fun k _ pending => st.AllWellFormed pending ∧ st.load ω pending = k)
    ?_ ⟨h, rfl⟩
  rintro k s a b rest ⟨hwf, rfl⟩
  obtain ⟨⟨ha, hb⟩, -⟩ := List.forall_mem_cons.mp hwf
  obtain ⟨r, hr, hstep⟩ := matchRule_spec ha hb s
  refine ⟨r, hr, ?_⟩
  rintro s' new rfl
  refine ⟨_, ?_, hstep.allWellFormed hwf, rfl⟩
  rw [load_append]
  exact Nat.add_lt_add_right (hstep.load_lt ha hb fun _ => Nat.one_pos) (st.load ω rest)

end TypedTerms.TermStore

/-! ## Bindings and maps that agree with them -/

namespace TypedTerms.TermStore

variable {st : TermStore} {s s' m : Subst} {a b p t : TermId} {new rest : List Equation}
  {θ : Leaf → Tree} {P T : Tree}

/-- The map agrees with the bindings, values being taken as they are. -/
def Agrees (st : TermStore) (s : Subst) (θ : Leaf → Tree) : Prop :=
  ∀ ⦃l V⦄, st.Binds s l V → θ l = V

/-- Some map agrees with the bindings and moves no other leaf. -/
theorem exists_agrees (st : TermStore) (s : Subst) :
    ∃ θ, st.Agrees s θ ∧ ∀ l, (∀ V, ¬ st.Binds s l V) → θ l = .leaf l := by
  have himage : ∀ l, ∃ T, (∀ V, st.Binds s l V → T = V) ∧
      ((∀ V, ¬ st.Binds s l V) → T = .leaf l) := by
    intro l
    by_cases hl : ∃ V, st.Binds s l V
    · obtain ⟨V, hV⟩ := hl
      exact ⟨V, fun _ hW => hV.unique hW, fun hno => absurd hV (hno V)⟩
    · exact ⟨.leaf l, fun V hV => absurd ⟨V, hV⟩ hl, fun _ => rfl⟩
  choose θ hθ using himage
  exact ⟨θ, fun l V hV => (hθ l).1 V hV, fun l hl => (hθ l).2 hl⟩

/-- A map that agrees with the bindings after a step, and under which the
new equations hold, agrees with those before it and makes the target of
the pattern. Where the two are the same term it must leave them alone. -/
theorem MatchStep.isInstance (h : st.MatchStep s a b (some (s', new)))
    (hb : st.IsInstance θ (b, b)) (hθ : st.Agrees s' θ) (hnew : ∀ e ∈ new, st.IsInstance θ e) :
    st.Agrees s θ ∧ st.IsInstance θ (a, b) := by
  obtain ⟨B, hB, -⟩ := id hb
  cases h with
  | same hab => exact ⟨hθ, hab ▸ hb⟩
  | met hvar hv =>
    obtain ⟨l, ha, -⟩ := hvar
    exact ⟨hθ, B, hB, (becomes_leaf_iff ha).mpr (hθ ⟨a, b, ha, hv, hB⟩)⟩
  | bind _ _ hvar free =>
    obtain ⟨l, ha, -⟩ := hvar
    have hbound : st.Binds (s.bind a b) l B := (binds_bind_iff ha).mpr (by rwa [if_pos rfl])
    refine ⟨?_, B, hB, (becomes_leaf_iff ha).mpr (hθ hbound)⟩
    intro k V hV
    exact hθ (hV.bind ha free)
  | split hna hnb hlen => exact ⟨hθ, (isInstance_app_iff hna hnb hlen).mpr hnew⟩

/-- No key of the chain stands in the term, and every key is a
variable. -/
def KeysOutside (st : TermStore) (s : Subst) (t : TermId) : Prop :=
  ∀ ⦃x v⦄, s.get? x = some v → st.IsVariable x ∧ ¬ st.Subterm x t

theorem keysOutside_empty (st : TermStore) (t : TermId) : st.KeysOutside .empty t :=
  fun _ _ hv => nomatch hv

/-- A variable that does not stand in the term may be bound. -/
theorem KeysOutside.bind (h : st.KeysOutside s t) (hvar : st.IsVariable a)
    (hout : ¬ st.Subterm a t) : st.KeysOutside (s.bind a b) t :=
  Subst.forall_get?_bind ⟨hvar, hout⟩ h

/-- No variable stands in both terms. -/
def Apart (st : TermStore) (p t : TermId) : Prop :=
  ∀ x, st.IsVariable x → st.Subterm x p → ¬ st.Subterm x t

/-- A state of matching `p` against `t`, which stands for `T`. -/
structure Aiming (st : TermStore) (p t : TermId) (T : Tree) (s : Subst)
    (pending : List Equation) : Prop where
  below : ∀ e ∈ pending, st.Subterm e.1 p ∧ st.Subterm e.2 t
  keys : st.KeysOutside s t
  reach : ∀ θ, (∀ l ∈ T.leaves, θ l = .leaf l) → st.Agrees s θ →
    (∀ e ∈ pending, st.IsInstance θ e) → st.IsInstance θ (p, t)

theorem aiming_start (hkeys : st.KeysOutside s t) : st.Aiming p t T s [(p, t)] where
  below := List.forall_mem_singleton.mpr ⟨.refl, .refl⟩
  keys := hkeys
  reach _ _ _ hall := hall _ List.mem_cons_self

/-- A map that leaves the leaves of a term alone makes of a part of the
term the part itself. -/
theorem isInstance_self (hT : st.Denotes t T) (hθ : ∀ l ∈ T.leaves, θ l = .leaf l)
    (hb : st.Subterm b t) : st.IsInstance θ (b, b) := by
  obtain ⟨B, hB, hsub⟩ := hT.subterm hb
  refine ⟨B, hB, B, hB, Tree.subst_eq_self ?_⟩
  intro l hl
  exact hθ l (hsub l hl)

/-- Every application of the rule leaves such a state, since variables of
the pattern stand outside the target. -/
theorem Aiming.step (hp : st.WellFormed p) (ht : st.WellFormed t) (hT : st.Denotes t T)
    (apart : st.Apart p t) (h : st.Aiming p t T s ((a, b) :: rest))
    (hr : st.matchRule s a b = .ok (some (s', new))) : st.Aiming p t T s' (new ++ rest) := by
  have hstep := (allWellFormed_of_below hp ht h.below).matchStep hr
  obtain ⟨hap, hbt⟩ := h.below _ List.mem_cons_self
  refine ⟨hstep.below h.below, ?_, ?_⟩
  · rcases hstep.chain with rfl | ⟨rfl, hvar, -, -⟩
    · exact h.keys
    · exact h.keys.bind hvar (apart a hvar hap)
  · intro θ hfix hθ hall
    obtain ⟨hnew, hold⟩ := List.forall_mem_append.mp hall
    obtain ⟨hs, hab⟩ := hstep.isInstance (isInstance_self hT hfix hbt) hθ hnew
    exact h.reach θ hfix hs (List.forall_mem_cons.mpr ⟨hab, hold⟩)

/-! ### What the answer comes to -/

/-- The leaves of the target are free. -/
theorem KeysOutside.get?_eq_none (h : st.KeysOutside s t) (hT : st.Denotes t T) {x : TermId}
    {l : Leaf} (hl : l ∈ T.leaves) (hx : st.node? x = some (.leaf l)) : s.get? x = none := by
  cases hv : s.get? x with
  | none => rfl
  | some v =>
    obtain ⟨y, hy, hsub⟩ := hT.exists_leaf hl
    rw [node?_inj hx hy] at hv
    exact absurd hsub (h hv).2

/-- Bindings that bind nothing in the target, and the map that they are
when they are followed one binding far: it makes the target of the
pattern. -/
structure Attains (st : TermStore) (m : Subst) (θ : Leaf → Tree) (P : Tree) (t : TermId)
    (T : Tree) : Prop where
  target : st.Denotes t T
  keys : st.KeysOutside m t
  agrees : st.Agrees m θ
  free : ∀ ⦃l⦄, (∀ V, ¬ st.Binds m l V) → θ l = .leaf l
  subst_eq : P.subst θ = T

namespace Attains

variable {l : Leaf}

/-- The leaves of the target are left as they are. -/
theorem fixes (h : st.Attains m θ P t T) (hl : l ∈ T.leaves) : θ l = .leaf l := by
  apply h.free
  obtain ⟨x, hx, -⟩ := h.target.exists_leaf hl
  exact not_binds_of_free hx (h.keys.get?_eq_none h.target hl hx)

/-- Every leaf of the pattern is bound, or stands in the target. -/
theorem exists_binds (h : st.Attains m θ P t T) (hl : l ∈ P.leaves) (hlT : l ∉ T.leaves) :
    ∃ V, st.Binds m l V := by
  by_contra hno
  have hself : l ∈ (θ l).leaves := by
    rw [h.free fun V hV => hno ⟨V, hV⟩]
    exact Tree.mem_leaves_leaf.mpr rfl
  rw [← h.subst_eq] at hlT
  exact hlT (Tree.mem_leaves_subst.mpr ⟨l, hl, hself⟩)

/-- The bindings are followed to the target: a bound leaf of the pattern
has a part of the target for its value, and there the bindings end. -/
theorem followable (h : st.Attains m θ P t T) :
    Subst.Followable st m θ (fun l => if l ∈ T.leaves then 0 else 1)
      fun l => l ∈ P.leaves ∨ l ∈ T.leaves := by
  constructor
  · intro l x v hin hx hv
    have hlT : l ∉ T.leaves := by
      intro hl
      rw [h.keys.get?_eq_none h.target hl hx] at hv
      cases hv
    have hlP := hin.resolve_right hlT
    obtain ⟨V, hV⟩ := h.exists_binds hlP hlT
    have hbelow : ∀ k ∈ V.leaves, k ∈ T.leaves := by
      intro k hk
      rw [← h.subst_eq]
      exact Tree.mem_leaves_subst.mpr ⟨l, hlP, by rwa [h.agrees hV]⟩
    rw [h.agrees hV]
    refine ⟨V, hV.denotes hx hv, ?_, ?_⟩
    · rw [Tree.subst_eq_self fun k hk => h.fixes (hbelow k hk)]
    · intro k hk
      refine ⟨.inr (hbelow k hk), ?_⟩
      rw [if_pos (hbelow k hk), if_neg hlT]
      exact Nat.zero_lt_one
  · intro l x _ hx hv
    exact h.free (not_binds_of_free hx hv)

/-- From a leaf of the target no binding is followed, and from one of the
pattern one at most. -/
theorem rank_le (h : st.Attains m θ P t T) (hl : l ∈ P.leaves ∨ l ∈ T.leaves) :
    (if l ∈ T.leaves then 0 else 1) ≤ m.size := by
  by_cases hlT : l ∈ T.leaves
  · rw [if_pos hlT]
    exact Nat.zero_le _
  · obtain ⟨V, hV⟩ := h.exists_binds (hl.resolve_right hlT) hlT
    rw [if_neg hlT]
    exact hV.size_pos

/-- A term with leaves of the pattern and the target is replaced by what
the map makes of it. -/
theorem yields_replace {u : TermId} {U : Tree} {st' : TermStore} (h : st.Attains m θ P t T)
    (hU : st.Denotes u U) (hin : ∀ l ∈ U.leaves, l ∈ P.leaves ∨ l ∈ T.leaves)
    (hst : st.Extends st') : Build.Yields (m.replace u) st' (U.subst θ) := by
  apply h.followable.yields_replace hU _ hst
  intro l hl
  exact ⟨hin l hl, h.rank_le (hin l hl)⟩

end Attains

/-- What matching answers makes the target of the pattern. -/
theorem exists_attains {n : Nat} (hP : st.Denotes p P) (hT : st.Denotes t T)
    (hp : st.WellFormed p) (ht : st.WellFormed t) (apart : st.Apart p t)
    (hkeys : st.KeysOutside s t) (hm : st.matchWith n s p t = .ok (some m)) :
    ∃ θ, st.Attains m θ P t T := by
  have hend : st.Aiming p t T m [] :=
    Rule.invariant_of_solve (I := st.Aiming p t T) (Aiming.step hp ht hT apart)
      (aiming_start hkeys) hm
  obtain ⟨θ, hθ, hfree⟩ := exists_agrees st m
  have hfix : ∀ l ∈ T.leaves, θ l = .leaf l := by
    intro l hl
    obtain ⟨x, hx, -⟩ := hT.exists_leaf hl
    exact hfree l (not_binds_of_free hx (hend.keys.get?_eq_none hT hl hx))
  obtain ⟨U, hU, Q, hQ, heq⟩ := hend.reach θ hfix hθ fun _ he => nomatch he
  rw [denotes_unique hQ hP, denotes_unique hU hT] at heq
  exact ⟨θ, hT, hend.keys, hθ, hfree, heq⟩

/-- A step that yields the tree of a known term answers the term. -/
theorem eq_of_yields {x : Build TermId} {st' : TermStore} (h : Build.Yields x st' T)
    (hT : st.Denotes t T) (hst : st.Extends st') :
    ∃ st'', x.on st' = (.ok t, st'') ∧ st.Extends st'' := by
  obtain ⟨r, st'', hr, hst', hrT⟩ := h
  have hext := extends_trans hst hst'
  have hrt : r = t := denotes_inj hrT (denotes_of_extends hext hT)
  exact ⟨st'', hrt ▸ hr, hext⟩

/-- Matching is sound. Let every key of the chain be a variable that does
not stand in the target, and let pattern and target have no variable in
common. Then, under the bindings that matching answers, the pattern is
replaced by the target, and the target by itself. -/
theorem matchWith_sound {n : Nat} (hp : st.WellFormed p) (ht : st.WellFormed t)
    (apart : st.Apart p t) (hkeys : st.KeysOutside s t)
    (hm : st.matchWith n s p t = .ok (some m)) :
    ∃ st₁ st₂, (m.replace p).on st = (.ok t, st₁) ∧ (m.replace t).on st₁ = (.ok t, st₂) := by
  obtain ⟨P, hP, -⟩ := id hp
  obtain ⟨T, hT, -⟩ := id ht
  obtain ⟨θ, h⟩ := exists_attains hP hT hp ht apart hkeys hm
  have hpattern := h.yields_replace hP (fun _ => .inl) (extends_refl st)
  rw [h.subst_eq] at hpattern
  obtain ⟨st₁, hrun₁, hst₁⟩ := eq_of_yields hpattern hT (extends_refl st)
  have htarget := h.yields_replace hT (fun _ => .inr) hst₁
  rw [Tree.subst_eq_self fun l hl => h.fixes hl] at htarget
  obtain ⟨st₂, hrun₂, -⟩ := eq_of_yields htarget hT hst₁
  exact ⟨st₁, st₂, hrun₁, hrun₂⟩

/-- The tree of `f(x, z)`. -/
def samplePattern : Tree :=
  .app .call (.leaf (.function 5 ⟨2⟩ .individual [.individual, .individual]))
    [.leaf (.var 0 .individual), .leaf (.var 2 .individual)]

/-- The tree of `f(g(y), a)`. -/
def sampleTarget : Tree :=
  .app .call (.leaf (.function 5 ⟨2⟩ .individual [.individual, .individual]))
    [.app .call (.leaf (.function 4 ⟨1⟩ .individual [.individual])) [.leaf (.var 1 .individual)],
      .leaf (.global 3 ⟨0⟩ .individual)]

theorem denotes_samplePattern : patternSample.Denotes ⟨7⟩ samplePattern :=
  ⟨_, _, rfl, rfl, _, _, rfl, rfl, _, _, rfl, rfl, rfl⟩

theorem denotes_sampleTarget : patternSample.Denotes ⟨8⟩ sampleTarget :=
  ⟨_, _, rfl, rfl, _, _, rfl, ⟨_, _, rfl, rfl, _, _, rfl, rfl, rfl⟩, _, _, rfl, rfl, rfl⟩

/-- Pattern and target have no variable in common. -/
theorem apart_sample : patternSample.Apart ⟨7⟩ ⟨8⟩ := by
  rintro x ⟨l, hx, hl⟩ hp ht
  have hP := denotes_samplePattern.mem_leaves hx hp
  have hT := denotes_sampleTarget.mem_leaves hx ht
  have hno : ∀ l ∈ samplePattern.leaves, l.isVar = true → l ∉ sampleTarget.leaves := by decide
  exact hno l hP hl hT

/-- The variable bound at the start does not stand in the target. -/
theorem keysOutside_sample : patternSample.KeysOutside (Subst.empty.bind ⟨0⟩ ⟨6⟩) ⟨8⟩ := by
  apply (keysOutside_empty _ _).bind ⟨_, rfl, rfl⟩
  intro hx
  have hT := denotes_sampleTarget.mem_leaves rfl hx
  have hno : Leaf.var 0 .individual ∉ sampleTarget.leaves := by decide
  exact hno hT

/-- Under `x ↦ g(y)`, matching `f(x, z)` against `f(g(y), a)` puts
`z ↦ a` in front, which makes the target of the pattern. -/
theorem matchWith_sound_sample :
    patternSample.matchWith 20 (Subst.empty.bind ⟨0⟩ ⟨6⟩) ⟨7⟩ ⟨8⟩ =
      .ok (some ⟨[(⟨2⟩, ⟨3⟩), (⟨0⟩, ⟨6⟩)]⟩) ∧
      ∃ st₁ st₂, (Subst.replace ⟨[(⟨2⟩, ⟨3⟩), (⟨0⟩, ⟨6⟩)]⟩ ⟨7⟩).on patternSample = (.ok ⟨8⟩, st₁) ∧
        (Subst.replace ⟨[(⟨2⟩, ⟨3⟩), (⟨0⟩, ⟨6⟩)]⟩ ⟨8⟩).on st₁ = (.ok ⟨8⟩, st₂) :=
  ⟨rfl, matchWith_sound (n := 20) (by decide) (by decide) apart_sample keysOutside_sample rfl⟩

end TypedTerms.TermStore
