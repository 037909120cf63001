import TypedTerms.Proofs.Folding.Typed

/-!
# What simplifying answers

Whatever a term is, well typed or not, simplifying it may stop at a
broken contract; this module says what holds when it answers. Then it has
gone through the whole term, so the term stands for a tree in the store
that is left, and what is answered stands for what the tree is simplified
to (`isSimplified_of_simplify`).

What a tree is simplified to is reduced: at no node of it a rule fires
(`reduced_of_simplify`). A rule answers a literal or the first child, and
the children were reduced before. So a second pass finds nothing to do.

And it has the type of the tree, if the tree has one
(`ty_of_simplify`). Which type that is hangs on the first children alone,
and each of them keeps its type.
-/

namespace TypedTerms

namespace Tree

variable {op : Operator} {T R x : Tree} {rest : List Tree} {A : Ty}

/-! ## One node -/

/-- A rule answers a literal, or the first child. -/
theorem Folds.exists_leaf_or_eq (h : Folds op x rest R) : (∃ l, R = .leaf l) ∨ R = x := by
  have leaf_literal : ∀ n, ∃ l, literal n = .leaf l := fun n => by cases n <;> exact ⟨_, rfl⟩
  cases h with
  | ofInteger | ofSort => exact .inr rfl
  | same | different | less | lessEquals | integerType | isInteger | rationalType | isRational =>
    exact .inl ⟨_, rfl⟩
  | _ => exact .inl (leaf_literal _)

/-- A node that is folded stays, since no rule fires, or becomes what a
rule answers. -/
theorem refold_cases (h : refold op x rest = .ok R) :
    (foldNode op x rest = .ok none ∧ R = .app op x rest) ∨ Folds op x rest R := by
  rw [refold] at h
  cases ho : foldNode op x rest with
  | error v => rw [ho] at h; cases h
  | ok o =>
    rw [ho] at h
    cases o with
    | none => exact .inl ⟨rfl, (Except.ok.inj h).symm⟩
    | some S => exact .inr (Except.ok.inj h ▸ folds_of_foldNode ho)

/-- Computations that all answer, one after the other, answer one by one. -/
theorem forall₂_of_mapM {α β : Type} {f : α → Except Violation β} {as : List α} {bs : List β}
    (h : as.mapM f = .ok bs) : List.Forall₂ (fun a b => f a = .ok b) as bs := by
  induction as generalizing bs with
  | nil => cases h; exact .nil
  | cons a as ih =>
    rw [List.mapM_cons] at h
    cases ha : f a with
    | error v => rw [ha] at h; cases h
    | ok b =>
      cases has : as.mapM f with
      | error v => rw [ha, has] at h; cases h
      | ok bs' =>
        rw [ha, has] at h
        cases h
        exact .cons ha (ih has)

/-- A node is simplified by simplifying the children and folding the node
over them. -/
theorem exists_of_simplify_app {first : Tree} (h : (app op first rest).simplify = .ok R) :
    ∃ F Rs, List.Forall₂ (fun C D => C.simplify = .ok D) (first :: rest) (F :: Rs) ∧
      refold op F Rs = .ok R := by
  rw [simplify_app] at h
  cases hF : first.simplify with
  | error v => rw [hF] at h; cases h
  | ok F =>
    cases hRs : rest.mapM simplify with
    | error v => rw [hF, hRs] at h; cases h
    | ok Rs =>
      rw [hF, hRs] at h
      exact ⟨F, Rs, .cons hF (forall₂_of_mapM hRs), h⟩

/-! ## Whole trees -/

/-- At no node of the tree a rule fires. -/
inductive Reduced : Tree → Prop where
  | leaf (l : Leaf) : Reduced (.leaf l)
  | app {op : Operator} {first : Tree} {rest : List Tree}
    (stays : foldNode op first rest = .ok none) (children : ∀ c ∈ first :: rest, Reduced c) :
    Reduced (.app op first rest)

/-- What a tree is simplified to is reduced. -/
theorem reduced_of_simplify (h : T.simplify = .ok R) : R.Reduced := by
  induction T generalizing R with
  | leaf l => cases h; exact .leaf l
  | app op first rest ih =>
    obtain ⟨F, Rs, hall, hR⟩ := exists_of_simplify_app h
    have hchildren : ∀ D ∈ F :: Rs, D.Reduced := by
      intro D hD
      obtain ⟨C, hC, hCD⟩ := exists_of_mem_left hall.flip hD
      exact ih C hC hCD
    rcases refold_cases hR with ⟨stays, rfl⟩ | hfolds
    · exact .app stays hchildren
    · rcases hfolds.exists_leaf_or_eq with ⟨l, rfl⟩ | rfl
      · exact .leaf l
      · exact hchildren R List.mem_cons_self

/-- Simplifying keeps the type of a tree, if it has one. -/
theorem ty_of_simplify (h : T.simplify = .ok R) (hA : T.ty = .ok A) : R.ty = .ok A := by
  induction T generalizing R A with
  | leaf l => cases h; exact hA
  | app op first rest ih =>
    obtain ⟨F, Rs, hall, hR⟩ := exists_of_simplify_app h
    have hF := (List.forall₂_cons.mp hall).1
    have hnode : (app op F Rs).ty = .ok A := by
      rw [ty] at hA ⊢
      cases hr : op.resultRule with
      | always B => rw [hr] at hA; exact hA
      | firstOperand =>
        rw [hr] at hA
        exact ih first List.mem_cons_self hF hA
      | headResult =>
        -- only a function has a result type, and it is simplified to itself
        rw [hr] at hA
        cases first with
        | app => cases hA
        | leaf l => cases hF; exact hA
    rcases refold_cases hR with ⟨-, rfl⟩ | hfolds
    · exact hnode
    · exact hfolds.ty.trans hnode

end Tree

/-! ## Terms -/

namespace TermStore

variable {st st' : TermStore} {t u r : TermId} {T : Tree} {A : Ty}

/-- The term stands for a tree, and the second one for what the tree is
simplified to. -/
def IsSimplified (st : TermStore) (t r : TermId) : Prop :=
  ∃ T R, st.Denotes t T ∧ T.simplify = .ok R ∧ st.Denotes r R

theorem IsSimplified.of_extends (h : st.IsSimplified t r) (hst : st.Extends st') :
    st'.IsSimplified t r := by
  obtain ⟨T, R, hT, hR, hr⟩ := h
  exact ⟨T, R, denotes_of_extends hst hT, hR, denotes_of_extends hst hr⟩

/-- Terms that are simplified to terms stand for trees that are simplified
to the trees of these. -/
theorem exists_trees_of_isSimplified {ts rs : List TermId}
    (h : List.Forall₂ st.IsSimplified ts rs) :
    ∃ Ts Rs, List.Forall₂ st.Denotes ts Ts ∧
      List.Forall₂ (fun T R => T.simplify = .ok R) Ts Rs ∧ List.Forall₂ st.Denotes rs Rs := by
  induction h with
  | nil => exact ⟨[], [], .nil, .nil, .nil⟩
  | cons h _ ih =>
    obtain ⟨T, R, hT, hR, hr⟩ := h
    obtain ⟨Ts, Rs, hTs, hRs, hrs⟩ := ih
    exact ⟨T :: Ts, R :: Rs, .cons hT hTs, .cons hR hRs, .cons hr hrs⟩

end TermStore

open TermStore

namespace Build

variable {α β : Type} {st st' : TermStore} {t r : TermId} {d : Nat}

/-- If two steps in a row answer, the first does and then the second. -/
theorem exists_of_on_bind {x : Build α} {f : α → Build β} {b : β}
    (h : (x >>= f).on st = (.ok b, st')) :
    ∃ a st₁, x.on st = (.ok a, st₁) ∧ (f a).on st₁ = (.ok b, st') := by
  rw [on_bind] at h
  rcases hx : x.on st with ⟨_ | a, st₁⟩
  · rw [hx] at h; cases h
  · rw [hx] at h; exact ⟨a, st₁, rfl, h⟩

/-- If steps for the members of a list answer one after the other, what
each has brought about is there in the end, provided that it stays. -/
theorem forall₂_of_on_mapM {P : TermStore → α → β → Prop} {g : α → Build β}
    {as : List α} {bs : List β} (h : (as.mapM g).on st = (.ok bs, st'))
    (mono : ∀ {st st' a b}, P st a b → st.Extends st' → P st' a b)
    (step : ∀ a ∈ as, ∀ st b st', (g a).on st = (.ok b, st') → st.Extends st' ∧ P st' a b) :
    st.Extends st' ∧ List.Forall₂ (P st') as bs := by
  induction as generalizing st bs with
  | nil =>
    rw [List.mapM_nil, on_pure] at h
    cases h
    exact ⟨extends_refl _, .nil⟩
  | cons a as ih =>
    obtain ⟨ha, has⟩ := List.forall_mem_cons.mp step
    rw [List.mapM_cons] at h
    obtain ⟨b, st₁, hb, h⟩ := exists_of_on_bind h
    obtain ⟨bs', st₂, hbs, h⟩ := exists_of_on_bind h
    rw [on_pure] at h
    cases h
    obtain ⟨hst₁, hP⟩ := ha st b st₁ hb
    obtain ⟨hst₂, hall⟩ := ih hbs has
    exact ⟨extends_trans hst₁ hst₂, .cons (mono hP hst₂) hall⟩

/-- If the children of a term are mapped, the store knows the term. -/
theorem exists_node_of_on_mapChildren {f : TermId → Build TermId}
    (h : (mapChildren f t : Build TermId).on st = (.ok r, st')) :
    ∃ n, st.node? t = some n := by
  obtain ⟨cs, st₁, hcs, -⟩ := exists_of_on_bind h
  cases hn : st.node? t with
  | some n => exact ⟨n, rfl⟩
  | none =>
    change (st.children t, st) = _ at hcs
    rw [children, node, hn] at hcs
    cases hcs

/-- Simplifying answers only when it has gone through the whole term. -/
theorem isSimplified_of_simplifyWithin (h : (simplifyWithin d t).on st = (.ok r, st')) :
    st.Extends st' ∧ st'.IsSimplified t r := by
  induction d generalizing t r st st' with
  | zero => cases h
  | succ d ih =>
    obtain ⟨a, st₂, ha, hfold⟩ := exists_of_on_bind h
    obtain ⟨n, hn⟩ := exists_node_of_on_mapChildren ha
    rw [mapChildren, on_bind_ok (on_children hn)] at ha
    cases n with
    | leaf l =>
      cases ha
      rw [fold, on_bind_ok (a := .leaf l) (by rw [on_read, node_of_node? hn])] at hfold
      cases hfold
      have hT := denotes_leaf_iff.mpr hn
      exact ⟨extends_refl st, .leaf l, .leaf l, hT, Tree.simplify_leaf l, hT⟩
    | app op c cs =>
      obtain ⟨rs, st₁, hrs, hremake⟩ := exists_of_on_bind ha
      obtain ⟨hst₁, hall⟩ := forall₂_of_on_mapM hrs (fun h hst => h.of_extends hst)
        fun c _ st r st' hc => ih hc
      obtain ⟨Ts, Rs, hTs, hRs, hden⟩ := exists_trees_of_isSimplified hall
      cases hTs with
      | @cons _ first _ rest hfirst hrest =>
        cases hRs with
        | @cons _ F _ Rs hF hRs =>
          cases hden with
          | cons hx hxs =>
            obtain ⟨q, st₃, hq, hst₃, halike⟩ :=
              follows_remake_fold (hst₁ hn) (List.Forall₂.cons hx hxs)
            cases hq.symm.trans ((on_bind_ok hremake).trans hfold)
            obtain ⟨R, hR, hr⟩ := EndAlike.exists_ok_right halike
            have hst := extends_trans hst₁ hst₃
            refine ⟨hst, .app op first rest, R, ?_, ?_, hr⟩
            · exact denotes_app_iff.mpr ⟨c, cs, hst hn,
                .cons (denotes_of_extends hst₃ hfirst)
                  (hrest.imp fun _ _ => denotes_of_extends hst₃)⟩
            · rw [Tree.simplify_eq_refold (.cons hF hRs), hR]

/-- What simplifying answers stands for what the tree is simplified to. -/
theorem isSimplified_of_simplify (h : (simplify t).on st = (.ok r, st')) :
    st.Extends st' ∧ st'.IsSimplified t r := by
  obtain ⟨d, st₁, hd, h⟩ := exists_of_on_bind h
  cases hd
  exact isSimplified_of_simplifyWithin h

/-! ## Terms of reduced trees

What a rule answers is made last, so a rule that does not fire makes
nothing. -/

/-- The step makes nothing, unless it answers something. -/
def Quiet (x : Build (Option TermId)) : Prop :=
  ∀ ⦃st st'⦄, x.on st = (.ok none, st') → st' = st

theorem quiet_none : Quiet (pure none) := by
  rintro st st' ⟨⟩
  rfl

/-- A step that answers something in any case may make what it likes. -/
theorem quiet_some (x : Build TermId) : Quiet (do return some (← x)) := by
  intro st st' h
  obtain ⟨a, st₁, -, h⟩ := exists_of_on_bind h
  cases h

/-- A question leaves the store as it is. -/
theorem Quiet.read {f : TermStore → Except Violation α} {g : α → Build (Option TermId)}
    (hg : ∀ a, Quiet (g a)) : Quiet (read f >>= g) := by
  intro st st' h
  obtain ⟨a, st₁, ha, h⟩ := exists_of_on_bind h
  obtain ⟨-, rfl⟩ := Prod.mk.inj ha
  exact hg a h

theorem quiet_boolean? (b : Option Bool) : Quiet (boolean? b) := by
  cases b with
  | none => exact quiet_none
  | some b => exact quiet_some _

theorem quiet_numeral? (n : Option Numeral) : Quiet (numeral? n) := by
  cases n with
  | none => exact quiet_none
  | some n => exact quiet_some _

/-- Asking for two numerals leaves the store as it is. -/
theorem Quiet.numerals {x y : TermId} {f : Numeral → Numeral → Option α}
    {g : Option α → Build (Option TermId)} (hg : ∀ o, Quiet (g o)) :
    Quiet (numerals x y f >>= g) := by
  rw [Build.numerals, bind_assoc]
  refine .read fun a => ?_
  cases a with
  | none => simpa only [pure_bind] using hg none
  | some a =>
    simp only [bind_assoc]
    refine .read fun b => ?_
    cases b with
    | none => simpa only [pure_bind] using hg none
    | some b => simpa only [pure_bind] using hg (f a b)

/-- An equation that is not folded leaves nothing behind. -/
theorem quiet_foldEquals (x y : TermId) : Quiet (foldEquals x y) := by
  unfold foldEquals
  split
  · exact quiet_some _
  · refine .read fun b => ?_
    split
    · refine .read fun b => ?_
      split
      · exact quiet_some _
      · exact quiet_none
    · exact quiet_none

/-- An integral division that is not folded leaves nothing behind. -/
theorem quiet_foldIntegers (x y : TermId) (op : Int → Int → Int) :
    Quiet (foldIntegers x y op) := by
  refine .read fun a => ?_
  cases a with
  | none => exact quiet_none
  | some a =>
    refine .read fun b => ?_
    cases b with
    | none => exact quiet_none
    | some b =>
      simp only
      split
      · exact quiet_none
      · exact quiet_some _

/-- No rule leaves anything behind where it does not fire, whatever the
operator. -/
theorem quiet_foldNode (t : TermId) (op : Operator) (x : TermId) : Quiet (foldNode t op x) := by
  cases op with
  | equals => exact .read fun y => quiet_foldEquals x y
  | less | lessEquals => exact .read fun y => .numerals quiet_boolean?
  | add | subtract | multiply => exact .read fun y => .numerals quiet_numeral?
  | quotient | remainder => exact .read fun y => quiet_foldIntegers x y _
  | divide =>
    refine .read fun q => ?_
    cases q with
    | none => exact quiet_none
    | some q => exact .read fun y => .numerals quiet_numeral?
  | negate => exact .read fun a => quiet_numeral? _
  | toInteger | toRational | toReal =>
    refine .read fun A => ?_
    split
    · exact fun _ _ h => nomatch h
    · exact .read fun a => quiet_numeral? _
  | rounding r =>
    refine .read fun a => ?_
    split
    · exact quiet_some _
    · exact quiet_none
  | isInteger | isRational =>
    refine .read fun A => ?_
    split
    · exact quiet_some _
    · exact .read fun q => quiet_boolean? _
  | universal | existential | and | or | not | equivalent | call => exact quiet_none

/-- A term that does not fold is answered as it is. -/
theorem on_fold_self {op : Operator} {x : TermId} {xs : List TermId} {X : Tree}
    {rest : List Tree} (hnode : st.node? t = some (.app op x xs))
    (hall : List.Forall₂ st.Denotes (x :: xs) (X :: rest))
    (stays : Tree.foldNode op X rest = .ok none) : (fold t).on st = (.ok t, st) := by
  obtain ⟨hx, hxs⟩ := List.forall₂_cons.mp hall
  obtain ⟨o, st₁, ho, -, halike⟩ := follows_foldNode hnode hx hxs
  rw [stays] at halike
  obtain ⟨o, rfl, hnone⟩ := halike.exists_ok
  cases hnone
  cases quiet_foldNode t op x ho
  rw [fold, on_bind_ok (a := .app op x xs) (by rw [on_read, node_of_node? hnode])]
  exact on_bind_ok ho

/-- A term for a reduced tree is simplified to itself, and nothing is
made. -/
theorem on_simplifyWithin_self {T : Tree} (hT : st.Denotes t T) (hred : T.Reduced)
    (hd : T.depth ≤ d) : (simplifyWithin d t).on st = (.ok t, st) := by
  refine hT.within_induct (P := fun d t T => T.Reduced → (simplifyWithin d t).on st = (.ok t, st))
    hd ?_ ?_ hred
  · intro d u l hu _
    rw [simplifyWithin, mapChildren, bind_assoc, on_bind_ok (on_children hu)]
    show (fold u).on st = _
    rw [fold, on_bind_ok (a := .leaf l) (by rw [on_read, node_of_node? hu]), on_pure]
  · intro d u op c cs first rest hu hall hbelow hred
    cases hred with
    | app stays hreduced =>
      have hchildren : ∀ x ∈ c :: cs, (simplifyWithin d x).on st = (.ok x, st) := by
        intro x hx
        obtain ⟨C, hC, hxC⟩ := exists_of_mem_left hbelow hx
        exact hxC (hreduced C hC)
      rw [simplifyWithin, mapChildren, bind_assoc, on_bind_ok (on_children hu)]
      show (((c :: cs).mapM (simplifyWithin d) >>= remake u) >>= fold).on st = _
      have hsame := (on_bind_ok (on_mapM_self hchildren)).trans (on_remake_self hu)
      exact (on_bind_ok hsame).trans (on_fold_self hu hall stays)

/-- A term for a reduced tree is answered as it is, and nothing is made. -/
theorem on_simplify_self {T : Tree} (hT : st.Denotes t T) (hred : T.Reduced) :
    (simplify t).on st = (.ok t, st) := by
  rw [simplify, on_bind_ok (a := st.growingDepthLimit) (by rw [on_read])]
  exact on_simplifyWithin_self hT hred hT.depth_le_growingDepthLimit

end Build

namespace TermStore

open Build

variable {st st' : TermStore} {t r : TermId} {T : Tree} {A : Ty}

/-- The type that was derived for a term is that of the tree it stands for
in a store that has grown. -/
theorem ty_of_tyWithin {d : Nat} (h : st.tyWithin d t = .ok A) (hst : st.Extends st')
    (hT : st'.Denotes t T) : T.ty = .ok A := by
  induction d generalizing t T with
  | zero => cases h
  | succ d ih =>
    rw [tyWithin] at h
    cases hn : st.node t with
    | error v => rw [hn] at h; cases h
    | ok n =>
      rw [hn] at h
      have hnode := hst (node_eq_ok_iff.mp hn)
      cases T with
      | leaf l =>
        cases (denotes_leaf_iff.mp hT).symm.trans hnode
        exact h
      | app op first rest =>
        obtain ⟨c, cs, happ, hall⟩ := denotes_app_iff.mp hT
        cases happ.symm.trans hnode
        have hfirst := (List.forall₂_cons.mp hall).1
        simp only [bind, Except.bind] at h
        rw [Tree.ty]
        cases hr : op.resultRule with
        | always B => simp only [hr] at h; exact h
        | firstOperand => simp only [hr] at h; exact ih h hfirst
        | headResult =>
          simp only [hr] at h
          cases hc : st.node c with
          | error v => rw [hc] at h; cases h
          | ok m =>
            rw [hc] at h
            have hhead := hst (node_eq_ok_iff.mp hc)
            cases m with
            | app => cases h
            | leaf k =>
              rw [hfirst.eq_leaf hhead]
              cases k <;> exact h

/-- One pass is enough. What a term is simplified to, well typed or not,
is simplified to itself, and nothing is made. -/
theorem simplify_simplify (h : (simplify t).on st = (.ok r, st')) :
    (simplify r).on st' = (.ok r, st') := by
  obtain ⟨-, T, R, -, hR, hr⟩ := isSimplified_of_simplify h
  exact on_simplify_self hr (Tree.reduced_of_simplify hR)

/-- Simplifying keeps the derived type. If a type is derived for a term,
well typed or not, and the term is simplified, then the same type is
derived for what it is simplified to. -/
theorem ty_simplify (hty : st.ty t = .ok A) (h : (simplify t).on st = (.ok r, st')) :
    st'.ty r = .ok A := by
  obtain ⟨hst, T, R, hT, hR, hr⟩ := isSimplified_of_simplify h
  rw [ty_of_denotes hr]
  exact Tree.ty_of_simplify hR (ty_of_tyWithin hty hst hT)

/-- A store with the real number 2, the rational number 3, their sum,
which no check passes, the real variable `x`, and the sum of these two, in
this order. -/
def mixedSample : TermStore :=
  .ofNodes
    [.leaf (.fraction .real (.ofInt 2)), .leaf (.fraction .rational (.ofInt 3)),
      .app .add ⟨0⟩ [⟨1⟩], .leaf (.var 0 .real), .app .add ⟨2⟩ [⟨3⟩]]
    (by decide) 1

/-- The sum `2 + 3 + x` is simplified to `5 + x`. -/
theorem exists_simplify_mixedSample : ∃ r st', (simplify ⟨4⟩).on mixedSample = (.ok r, st') := by
  have hT : mixedSample.Denotes ⟨4⟩ (.app .add
      (.app .add (.leaf (.fraction .real (.ofInt 2))) [.leaf (.fraction .rational (.ofInt 3))])
      [.leaf (.var 0 .real)]) :=
    ⟨_, _, rfl, ⟨_, _, rfl, rfl, _, _, rfl, rfl, rfl⟩, _, _, rfl, rfl, rfl⟩
  obtain ⟨r, st', hr, -⟩ := yields_simplify
    (R := .app .add (.leaf (.fraction .real (.ofInt 5))) [.leaf (.var 0 .real)]) hT rfl
  exact ⟨r, st', hr⟩

/-- The sum `5 + x` that is answered for `2 + 3 + x` is left as it is. -/
theorem simplify_simplify_sample : ∃ r st',
    (simplify ⟨4⟩).on mixedSample = (.ok r, st') ∧ (simplify r).on st' = (.ok r, st') := by
  obtain ⟨r, st', hr⟩ := exists_simplify_mixedSample
  exact ⟨r, st', hr, simplify_simplify hr⟩

/-- The sum has the type of its first operand before and after. -/
theorem ty_simplify_sample : mixedSample.ty ⟨4⟩ = .ok .real ∧
    ∃ r st', (simplify ⟨4⟩).on mixedSample = (.ok r, st') ∧ st'.ty r = .ok .real := by
  obtain ⟨r, st', hr⟩ := exists_simplify_mixedSample
  exact ⟨rfl, r, st', hr, ty_simplify rfl hr⟩

end TermStore

end TypedTerms
