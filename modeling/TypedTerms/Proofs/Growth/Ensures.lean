import TypedTerms.Folding
import TypedTerms.Proofs.Growth.Walks
import TypedTerms.Proofs.Store.Run

/-!
# What operations do to a store

Every operation is put together from questions and from making nodes, and
a node is made over terms that the operation was given, read from the
store or made itself. A `Discipline` says which terms these may be and
what holds of the store meanwhile. A step that is given such terms then
only adds to the store, keeps what holds of it, and answers such terms
(`Ensures`), whether it is answered or stops at a broken contract.

Mapping runs in any setting that can make terms, so the laws for it are
stated for any `Setting` that has the laws of a step: steps themselves,
and steps with a state of their own.
-/

namespace TypedTerms

open TermStore

/-- Which terms operations are given, and what holds of the store
meanwhile. -/
structure Discipline where
  known : TermStore → TermId → Prop
  sound : TermStore → Prop
  known_of_extends : ∀ {st st' t}, known st t → st.Extends st' → known st' t
  known_child : ∀ {st t n c}, known st t → st.node? t = some n → c ∈ n.children → known st c
  known_intern : ∀ {st n}, (∀ c ∈ n.children, known st c) →
    known (st.intern n).2 (st.intern n).1
  sound_intern : ∀ {st n}, (∀ c ∈ n.children, known st c) → sound st → sound (st.intern n).2
  sound_count : ∀ {st i}, sound st → sound { st with nextLeaf := i }

namespace Discipline

/-- Any terms, in any store. -/
def anything : Discipline where
  known _ _ := True
  sound _ := True
  known_of_extends _ _ := trivial
  known_child _ _ _ := trivial
  known_intern _ := trivial
  sound_intern _ _ := trivial
  sound_count _ := trivial

end Discipline

namespace Build

variable {α β : Type} {D : Discipline} {st : TermStore} {x : Build α} {f : α → Build β}
  {P : TermStore → α → Prop} {Q : TermStore → β → Prop}

/-- The step only adds to the store and keeps what holds of it, and what
it answers has the property. -/
def Ensures (D : Discipline) (x : Build α) (st : TermStore) (P : TermStore → α → Prop) : Prop :=
  ∃ r st', x.on st = (r, st') ∧ st.Extends st' ∧ (D.sound st → D.sound st') ∧
    ∀ a, r = .ok a → P st' a

theorem ensures_pure {a : α} (h : P st a) : Ensures D (pure a) st P := by
  refine ⟨.ok a, st, rfl, extends_refl st, id, ?_⟩
  rintro _ ⟨⟩
  exact h

/-- A broken contract leaves the store as it is, and answers nothing. -/
theorem ensures_throw (v : Violation) : Ensures D (throw v : Build α) st P :=
  ⟨.error v, st, rfl, extends_refl st, id, fun _ h => nomatch h⟩

/-- What holds of both steps holds of one after the other, the second being
asked only about what the first has answered and made. -/
theorem Ensures.bind (hx : Ensures D x st P)
    (hf : ∀ a st', st.Extends st' → P st' a → Ensures D (f a) st' Q) :
    Ensures D (x >>= f) st Q := by
  obtain ⟨r, st₁, hr, hst₁, hsound₁, hP⟩ := hx
  cases r with
  | error v =>
    exact ⟨.error v, st₁, by rw [on_bind, hr], hst₁, hsound₁, fun _ h => nomatch h⟩
  | ok a =>
    obtain ⟨q, st₂, hq, hst₂, hsound₂, hQ⟩ := hf a st₁ hst₁ (hP a rfl)
    exact ⟨q, st₂, (on_bind_ok hr).trans hq, extends_trans hst₁ hst₂, hsound₂ ∘ hsound₁, hQ⟩

/-- A question leaves the store as it is. -/
theorem ensures_read {f : TermStore → Except Violation α} (h : ∀ a, f st = .ok a → P st a) :
    Ensures D (read f) st P := ⟨f st, st, rfl, extends_refl st, id, h⟩

/-- A question may come first, whatever it answers; if it is a broken
contract, nothing happens. -/
theorem Ensures.read_bind {f : TermStore → Except Violation α} {g : α → Build β}
    (h : ∀ a, f st = .ok a → Ensures D (g a) st Q) : Ensures D (read f >>= g) st Q := by
  cases ha : f st with
  | error v =>
    exact ⟨.error v, st, by rw [on_bind, on_read, ha], extends_refl st, id, fun _ h => nomatch h⟩
  | ok a =>
    obtain ⟨r, st', hr, hQ⟩ := h a ha
    exact ⟨r, st', (on_bind_ok (by rw [on_read, ha])).trans hr, hQ⟩

/-- A node over known terms may be interned, and is a known term then. -/
theorem ensures_intern {n : Node} (h : ∀ c ∈ n.children, D.known st c) :
    Ensures D (intern n) st D.known := by
  refine ⟨.ok (st.intern n).1, (st.intern n).2, rfl, extends_intern st n, D.sound_intern h, ?_⟩
  rintro _ ⟨⟩
  exact D.known_intern h

theorem ensures_leaf (l : Leaf) : Ensures D (intern (.leaf l)) st D.known :=
  ensures_intern fun _ hc => nomatch hc

/-! ## Makers -/

/-- Every maker that is given known terms answers a known term. -/
theorem ensures_maker (m : Maker) (h : ∀ c ∈ m.operands, D.known st c) :
    Ensures D m.build st D.known := by
  rcases m.on_eq st with ⟨n, hn, heq⟩ | ⟨-, v, hv⟩
  · have hchildren : ∀ c ∈ n.children, D.known st c := fun c hc =>
      h c (Maker.children_of_node? hn c hc)
    have hcount : ∀ {st' : TermStore} {i : Nat}, st'.Extends { st' with nextLeaf := i } :=
      id
    refine ⟨_, _, heq, extends_trans (extends_intern st n) hcount,
      fun hs => D.sound_count (D.sound_intern hchildren hs), ?_⟩
    rintro _ ⟨⟩
    exact D.known_of_extends (D.known_intern hchildren) hcount
  · exact ⟨_, _, hv, extends_refl st, id, fun _ h => nomatch h⟩

/-- The disjunction that stands for an implication is made of known terms.
-/
theorem ensures_implies {a b : TermId} (ha : D.known st a) (hb : D.known st b) :
    Ensures D (implies a b) st D.known := by
  have hnot : Ensures D (intern (.app .not a [])) st D.known :=
    ensures_intern (List.forall_mem_singleton.mpr ha)
  refine hnot.bind fun n st' hst hn => ?_
  exact ensures_intern (n := .app .or n [b]) (List.forall_mem_cons.mpr
    ⟨hn, List.forall_mem_singleton.mpr (D.known_of_extends hb hst)⟩)

/-- A node rebuilt over known children is a known term. -/
theorem ensures_remake {t : TermId} {cs : List TermId} (ht : D.known st t)
    (hcs : ∀ c ∈ cs, D.known st c) : Ensures D (remake t cs) st D.known := by
  refine .read_bind fun tag _ => ?_
  cases tag with
  | leaf l =>
    change Ensures D (if _ then _ else _) st D.known
    split
    · exact ensures_pure ht
    · exact ensures_throw _
  | operator op =>
    cases cs with
    | nil => exact ensures_throw _
    | cons c cs => exact ensures_intern hcs

/-- A position leads from known terms to known terms. -/
theorem ensures_splice {t r : TermId} {p : List Nat} (ht : D.known st t) (hr : D.known st r) :
    Ensures D (splice t p r) st D.known := by
  induction p generalizing t st with
  | nil => exact ensures_pure hr
  | cons i p ih =>
    refine .read_bind fun n hn => ?_
    have hchildren : ∀ c ∈ n.children, D.known st c := fun c hc =>
      D.known_child ht (node_eq_ok_iff.mp hn) hc
    cases hc : n.children[i]? with
    | none =>
      simp only
      exact ensures_throw _
    | some c =>
      simp only
      refine (ih (hchildren c (List.mem_of_getElem? hc)) hr).bind fun a st' hst ha => ?_
      refine ensures_remake (D.known_of_extends ht hst) fun x hx => ?_
      rcases List.mem_or_eq_of_mem_set hx with hx | rfl
      · exact D.known_of_extends (hchildren x hx) hst
      · exact ha

/-! ## Folding -/

/-- What a step answers, if anything, is a known term. -/
def KnownIfAny (D : Discipline) (st : TermStore) (o : Option TermId) : Prop :=
  ∀ t, o = some t → D.known st t

theorem ensures_none : Ensures D (pure none) st (KnownIfAny D) :=
  ensures_pure fun _ h => nomatch h

theorem ensures_known {t : TermId} (ht : D.known st t) :
    Ensures D (pure (some t)) st (KnownIfAny D) := ensures_pure fun _ h => Option.some.inj h ▸ ht

/-- A step that answers a known term may answer it as one that could be
missing. -/
theorem ensures_some {x : Build TermId} (h : Ensures D x st D.known) :
    Ensures D (do return some (← x)) st (KnownIfAny D) :=
  h.bind fun _ _ _ ht => ensures_known ht

theorem ensures_boolean? (b : Option Bool) : Ensures D (boolean? b) st (KnownIfAny D) := by
  cases b with
  | none => exact ensures_none
  | some b => exact ensures_some (ensures_leaf (.boolean b))

theorem ensures_numeral? (n : Option Numeral) : Ensures D (numeral? n) st (KnownIfAny D) := by
  cases n with
  | none => exact ensures_none
  | some n =>
    cases n with
    | integer n => exact ensures_some (ensures_leaf (.integer n))
    | fraction s q => exact ensures_some (ensures_leaf (.fraction s q))

/-- Reading two numerals makes nothing. -/
theorem ensures_numerals {γ : Type} {y z : TermId} {g : Numeral → Numeral → Option γ} :
    Ensures D (numerals y z g) st fun _ _ => True := by
  refine .read_bind fun a _ => ?_
  cases a with
  | none => exact ensures_pure trivial
  | some a =>
    refine .read_bind fun b _ => ?_
    cases b <;> exact ensures_pure trivial

/-- What an equation is folded to is a known term. -/
theorem ensures_foldEquals (y z : TermId) : Ensures D (foldEquals y z) st (KnownIfAny D) := by
  unfold foldEquals
  split
  · exact ensures_some (ensures_leaf _)
  · refine .read_bind fun b _ => ?_
    cases b with
    | false => exact ensures_none
    | true =>
      refine .read_bind fun b _ => ?_
      cases b with
      | false => exact ensures_none
      | true => exact ensures_some (ensures_leaf _)

theorem ensures_foldIntegers {y z : TermId} {op : Int → Int → Int} :
    Ensures D (foldIntegers y z op) st (KnownIfAny D) := by
  refine .read_bind fun a _ => ?_
  cases a with
  | none => exact ensures_none
  | some a =>
    refine .read_bind fun b _ => ?_
    cases b with
    | none => exact ensures_none
    | some b =>
      simp only
      split
      · exact ensures_none
      · exact ensures_some (ensures_leaf _)

/-- What a conversion to a fraction is folded to is a known term, made now
or given. -/
theorem ensures_foldToFraction {y : TermId} {s : FractionSort} (hy : D.known st y) :
    Ensures D (foldToFraction y s) st (KnownIfAny D) := by
  refine .read_bind fun A _ => ?_
  split
  · exact ensures_known hy
  · exact .read_bind fun n _ => ensures_numeral? _

/-- What a conversion to an integer is folded to is a known term, made now
or given. -/
theorem ensures_foldToInteger {y : TermId} (hy : D.known st y) :
    Ensures D (foldToInteger y) st (KnownIfAny D) := by
  refine .read_bind fun A _ => ?_
  split
  · exact ensures_known hy
  · exact .read_bind fun q _ => ensures_numeral? _

theorem ensures_foldRounding {y : TermId} {r : Rounding} :
    Ensures D (foldRounding y r) st (KnownIfAny D) := by
  refine .read_bind fun n _ => ?_
  split
  · exact ensures_some (ensures_leaf _)
  · exact ensures_none

theorem ensures_foldIsInteger {y : TermId} :
    Ensures D (foldIsInteger y) st (KnownIfAny D) := by
  refine .read_bind fun A _ => ?_
  split
  · exact ensures_some (ensures_leaf _)
  · exact .read_bind fun q _ => ensures_boolean? _

theorem ensures_foldIsRational {y : TermId} :
    Ensures D (foldIsRational y) st (KnownIfAny D) := by
  refine .read_bind fun A _ => ?_
  split
  · exact ensures_some (ensures_leaf _)
  · exact .read_bind fun q _ => ensures_boolean? _

/-- Folding a node answers its first child or a new literal, if anything. -/
theorem ensures_foldNode {t y : TermId} (op : Operator) (hy : D.known st y) :
    Ensures D (foldNode t op y) st (KnownIfAny D) := by
  cases op with
  | equals => exact .read_bind fun z _ => ensures_foldEquals y z
  | less | lessEquals =>
    exact .read_bind fun z _ => ensures_numerals.bind fun b _ _ _ => ensures_boolean? b
  | add | subtract | multiply =>
    exact .read_bind fun z _ => ensures_numerals.bind fun n _ _ _ => ensures_numeral? n
  | negate => exact .read_bind fun n _ => ensures_numeral? _
  | toInteger => exact ensures_foldToInteger hy
  | toRational | toReal => exact ensures_foldToFraction hy
  | rounding r => exact ensures_foldRounding
  | isInteger => exact ensures_foldIsInteger
  | isRational => exact ensures_foldIsRational
  | divide =>
    refine .read_bind fun q _ => ?_
    cases q with
    | none => exact ensures_none
    | some q =>
      exact .read_bind fun z _ => ensures_numerals.bind fun n _ _ _ => ensures_numeral? n
  | quotient c | remainder c => exact .read_bind fun z _ => ensures_foldIntegers
  | universal | existential | and | or | not | equivalent | call => exact ensures_none

/-- Whatever its operator, a known node is folded to a known term. -/
theorem ensures_fold {t : TermId} (ht : D.known st t) : Ensures D (fold t) st D.known := by
  refine .read_bind fun n hn => ?_
  cases n with
  | leaf l => exact ensures_pure ht
  | app op y rest =>
    have hy : D.known st y := D.known_child ht (node_eq_ok_iff.mp hn) List.mem_cons_self
    refine (ensures_foldNode op hy).bind fun o st' hst ho => ensures_pure ?_
    cases o with
    | none => exact D.known_of_extends ht hst
    | some r => exact ho r rfl

end Build

/-! ## Mapping -/

/-- The laws of steps that only add to a store, in a setting that can make
terms. -/
structure Setting (D : Discipline) (m : Type → Type) [Monad m] [MonadLiftT Build m] where
  ensures : {α : Type} → m α → TermStore → (TermStore → α → Prop) → Prop
  pure : ∀ {α : Type} {a : α} {st : TermStore} {P : TermStore → α → Prop}, P st a →
    ensures (pure a) st P
  bind : ∀ {α β : Type} {x : m α} {f : α → m β} {st : TermStore} {P : TermStore → α → Prop}
    {Q : TermStore → β → Prop}, ensures x st P →
    (∀ a st', st.Extends st' → P st' a → ensures (f a) st' Q) → ensures (x >>= f) st Q
  lift : ∀ {α : Type} {x : Build α} {st : TermStore} {P : TermStore → α → Prop},
    Build.Ensures D x st P → ensures (liftM x) st P

namespace Setting

open Build

variable {D : Discipline} {m : Type → Type} [Monad m] [MonadLiftT Build m]
  {st : TermStore} {f : TermId → m TermId} {t : TermId}

/-- A step, itself. -/
def build (D : Discipline) : Setting D Build where
  ensures := Ensures D
  pure := ensures_pure
  bind := Ensures.bind
  lift := id

/-- Steps with a state of their own, about which something holds that
stays true while the store grows. -/
def stateful (D : Discipline) {σ : Type} (J : TermStore → σ → Prop)
    (mono : ∀ {st st' w}, J st w → st.Extends st' → J st' w) : Setting D (StateT σ Build) where
  ensures x st P := ∀ w, J st w → Ensures D (x.run w) st fun st' p => P st' p.1 ∧ J st' p.2
  pure h w hw := ensures_pure ⟨h, hw⟩
  bind hx hf w hw := by
    rw [StateT.run_bind]
    exact (hx w hw).bind fun p st' hst hp => hf p.1 st' hst hp.1 p.2 hp.2
  lift hx w hw := hx.bind fun a st' hst ha => ensures_pure ⟨ha, mono hw hst⟩

variable (S : Setting D m)

/-- The step answers a known term whenever it is given one, from the store
on. -/
def Keeps (f : TermId → m TermId) (st : TermStore) : Prop :=
  ∀ t st', st.Extends st' → D.known st' t → S.ensures (f t) st' D.known

variable {S}

theorem Keeps.of_extends {st' : TermStore} (hf : S.Keeps f st) (hst : st.Extends st') :
    S.Keeps f st' := fun t _ hst' => hf t _ (extends_trans hst hst')

/-- Known terms are mapped to known terms, one after the other. -/
theorem Keeps.mapM [LawfulMonad m] (hf : S.Keeps f st) {ts : List TermId}
    (hts : ∀ t ∈ ts, D.known st t) :
    S.ensures (ts.mapM f) st fun st' rs => ∀ r ∈ rs, D.known st' r := by
  induction ts generalizing st with
  | nil =>
    rw [List.mapM_nil]
    exact S.pure fun _ h => nomatch h
  | cons t ts ih =>
    obtain ⟨ht, hts⟩ := List.forall_mem_cons.mp hts
    rw [List.mapM_cons]
    refine S.bind (hf t st (extends_refl st) ht) fun r st₁ hst₁ hr => ?_
    refine S.bind (ih (hf.of_extends hst₁) fun u hu => D.known_of_extends (hts u hu) hst₁)
      fun rs st₂ hst₂ hrs => S.pure ?_
    exact List.forall_mem_cons.mpr ⟨D.known_of_extends hr hst₂, hrs⟩

/-- A term over children that are mapped, or what is made of it if it has
none. -/
theorem Keeps.mapNode [LawfulMonad m] {onLeaf : m TermId} (hf : S.Keeps f st) (ht : D.known st t)
    (hleaf : ∀ st', st.Extends st' → D.known st' t → S.ensures onLeaf st' D.known) :
    S.ensures (do
      match ← liftM (read (·.children t)) with
      | [] => onLeaf
      | cs => liftM (remake t (← cs.mapM f))) st D.known := by
  have hread : Ensures D (read (·.children t)) st fun st' cs =>
      D.known st' t ∧ ∀ c ∈ cs, D.known st' c := by
    refine ensures_read fun cs hcs => ⟨ht, ?_⟩
    cases hn : st.node t with
    | error v =>
      rw [children, hn] at hcs
      cases hcs
    | ok n =>
      rw [children_of_node? (node_eq_ok_iff.mp hn)] at hcs
      cases hcs
      exact fun c hc => D.known_child ht (node_eq_ok_iff.mp hn) hc
  refine S.bind (S.lift hread) fun cs st' hst hcs => ?_
  obtain ⟨ht, hcs⟩ := hcs
  cases cs with
  | nil => exact hleaf st' hst ht
  | cons c cs =>
    exact S.bind ((hf.of_extends hst).mapM hcs) fun rs st'' hst' hrs =>
      S.lift (ensures_remake (D.known_of_extends ht hst') hrs)

/-- A node whose children are mapped to known terms is rebuilt as a known
term. -/
theorem Keeps.mapChildren [LawfulMonad m] (hf : S.Keeps f st) (ht : D.known st t) :
    S.ensures (Build.mapChildren f t) st D.known := hf.mapNode ht fun _ _ ht => S.pure ht

/-- Mapping leaves to known terms keeps to known terms, within any number of
levels. -/
theorem Keeps.mapLeavesWithin [LawfulMonad m] (hf : S.Keeps f st) (d : Nat) :
    S.Keeps (Build.mapLeavesWithin f d) st := by
  induction d with
  | zero => exact fun t st' _ _ => S.lift (ensures_throw _)
  | succ d ih =>
    exact fun t st' hst ht => (ih.of_extends hst).mapNode ht fun st'' hst' ht =>
      hf t st'' (extends_trans hst hst') ht

theorem Keeps.mapLeaves [LawfulMonad m] (hf : S.Keeps f st) :
    S.Keeps (Build.mapLeaves f) st := fun t _ hst ht =>
  S.bind (S.lift (ensures_read (P := fun _ _ => True) fun _ _ => trivial)) fun d st'' hst' _ =>
    hf.mapLeavesWithin d t st'' (extends_trans hst hst') (D.known_of_extends ht hst')

end Setting

namespace Build

variable {D : Discipline} {st : TermStore} {s : Subst} {t : TermId}

/-- Simplifying keeps to known terms, within any number of levels. -/
theorem keeps_simplifyWithin (D : Discipline) (st : TermStore) (d : Nat) :
    (Setting.build D).Keeps (simplifyWithin d) st := by
  induction d with
  | zero => exact fun t st' _ _ => ensures_throw _
  | succ d ih =>
    exact fun t _ hst ht => Ensures.bind ((ih.of_extends hst).mapChildren ht)
      fun _ _ _ hr => ensures_fold hr

/-- Simplifying a known term answers a known one, if it answers. -/
theorem ensures_simplify (ht : D.known st t) : Ensures D (simplify t) st D.known :=
  .read_bind fun d _ => keeps_simplifyWithin D st d t st (extends_refl st) ht

/-- Replacing by known values keeps to known terms, along any number of
bindings. -/
theorem keeps_replaceWithin (hs : ∀ x v, s.get? x = some v → D.known st v) (n : Nat) :
    (Setting.build D).Keeps (s.replaceWithin n) st := by
  induction n with
  | zero => exact fun t st' _ _ => ensures_throw _
  | succ n ih =>
    intro t st' hst ht
    rw [Subst.replaceWithin]
    split
    · exact ensures_pure ht
    · refine Setting.Keeps.mapLeaves (S := .build D) ?_ t st' (extends_refl st') ht
      intro x st'' hst' hx
      change Ensures D _ st'' D.known
      beta_reduce
      split
      · exact ensures_pure hx
      · next v hv =>
        have hst'' := extends_trans hst hst'
        split
        · exact ensures_throw _
        · exact ih v st'' hst'' (D.known_of_extends (hs x v hv) hst'')

/-- Replacing in a known term by known values answers a known term, if it
answers. -/
theorem ensures_replace (hs : ∀ x v, s.get? x = some v → D.known st v) (ht : D.known st t) :
    Ensures D (s.replace t) st D.known :=
  keeps_replaceWithin hs _ t st (extends_refl st) ht

/-- What every step of a run keeps holds at its end. -/
theorem invariant_of_foldlM {α β : Type} {g : β → α → Except Violation β} {I : β → Prop}
    {as : List α} (step : ∀ a ∈ as, ∀ b c, I b → g b a = .ok c → I c) {b c : β} (hb : I b)
    (h : as.foldlM g b = .ok c) : I c := by
  induction as generalizing b with
  | nil =>
    cases h
    exact hb
  | cons a as ih =>
    obtain ⟨ha, has⟩ := List.forall_mem_cons.mp step
    rw [List.foldlM_cons] at h
    cases hab : g b a with
    | error v =>
      rw [hab] at h
      cases h
    | ok b' =>
      rw [hab] at h
      exact ih has (ha b b' hb hab) h

/-- The free variables of a known term are known. -/
theorem known_of_freeVarsWithin {d : Nat} {bound found vars : List TermId} (ht : D.known st t)
    (hfound : ∀ v ∈ found, D.known st v) (h : st.freeVarsWithin d bound t found = .ok vars) :
    ∀ v ∈ vars, D.known st v := by
  induction d generalizing t bound found vars with
  | zero => cases h
  | succ d ih =>
    rw [freeVarsWithin] at h
    cases hn : st.node t with
    | error v =>
      rw [hn] at h
      cases h
    | ok n =>
      rw [hn] at h
      have hchild : ∀ c ∈ n.children, D.known st c := fun c hc =>
        D.known_child ht (node_eq_ok_iff.mp hn) hc
      cases n with
      | leaf l =>
        have hvars := Except.ok.inj h
        subst hvars
        split
        · exact List.forall_mem_append.mpr ⟨hfound, List.forall_mem_singleton.mpr ht⟩
        · exact hfound
      | app op first rest =>
        cases op with
        | universal | existential => exact ih (hchild first List.mem_cons_self) hfound h
        | _ =>
          exact invariant_of_foldlM (I := fun found => ∀ v ∈ found, D.known st v)
            (fun c hc _ _ hfound h => ih (hchild c hc) hfound h) hfound h

/-- Closing a known term answers a known one: the variables that it is
closed over stand in it. -/
theorem ensures_quantify (ht : D.known st t) : Ensures D (quantify t) st D.known := by
  refine .read_bind fun vars hvars => ?_
  have hknown := known_of_freeVarsWithin ht (List.forall_mem_nil _) hvars
  cases vars with
  | nil => exact ensures_pure ht
  | cons v vars => exact ensures_intern (List.forall_mem_cons.mpr ⟨ht, hknown⟩)

end Build

end TypedTerms
