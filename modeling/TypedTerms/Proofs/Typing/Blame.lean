import TypedTerms.Proofs.Typing.Passes
import TypedTerms.Term.Walk

/-!
# Type errors point at defects

A type error names a tag and says what is wrong at a node with this tag, but
not at which. `Blames` says of a term that it is such a node: it breaks the
rule of its tag, in the way that the error says. What the rule asks for is
said here tag by tag, apart from the table that the checker goes by:
`Operator.Requires` is the type that an operand must have, `Operator.Wants`
the number of operands, `Operator.Forbids` a type that the first operand may
not have. A term to blame is one that its rule does not fit
(`Blames.not_fits`).

An error of a check is the mismatch of the two types that it compares first,
or else a term inside is to blame for it (`check_error_blames`). Errors come
up unchanged from any depth, so this is an induction over the levels of the
check: what is a mismatch of types for the check of an operand is a broken
rule of the node above it. Nothing has to be known of the term; the check may
not even come to an end on it.
-/

namespace TypedTerms

/-! ## What a rule asks for -/

namespace Operator

/-- The rule asks for operands that are numbers. -/
def TakesNumbers : Operator → Prop
  | .toInteger | .toRational | .toReal | .isInteger | .isRational | .rounding _ | .negate
  | .less | .lessEquals | .add | .subtract | .multiply | .quotient _ | .remainder _ => True
  | _ => False

/-- By the rule the operand at the place must be of the type. A formula is
asked for, or a type like that of the first operand, or that of a
parameter. -/
def Requires (op : Operator) (xs : List Operand) (i : Nat) (A : Ty) : Prop :=
  match op with
  | .and | .or | .not | .equivalent => A = .bool
  | .universal | .existential => i = 0 ∧ A = .bool
  | .call => ∃ head args id name result params j, xs = head :: args ∧
      head.leaf? = some (.function id name result params) ∧ i = j + 1 ∧ params[j]? = some A
  | _ => ∃ first rest, xs = first :: rest ∧ first.ty = .ok A

/-- By the rule there must be this many operands, or, over this head,
arguments. -/
def Wants (op : Operator) (head? : Option Leaf) (n : Nat) : Prop :=
  match op with
  | .not | .toInteger | .toRational | .toReal | .isInteger | .isRational | .rounding _
  | .negate => n = 1
  | .equivalent | .equals | .less | .lessEquals | .add | .subtract | .multiply | .divide
  | .quotient _ | .remainder _ => n = 2
  | .call => ∃ id name result params,
      head? = some (.function id name result params) ∧ n = params.length
  | _ => False

/-- By the rule the first operand may not be of the type. -/
def Forbids (op : Operator) (A : Ty) : Prop :=
  match op with
  | .equals => A.kind = .bool ∨ A.kind = .func
  | .divide => A ≠ .rational ∧ A ≠ .real
  | _ => False

end Operator

namespace TermStore

/-- The term is at fault as the error says. -/
inductive Blames (st : TermStore) : TypeError → TermId → Prop where
  /-- An operand is not of the type that it must have. -/
  | mismatch {u c x : TermId} {op : Operator} {cs : List TermId} {i : Nat} {g : Tag} {A B : Ty}
    (node : st.node? u = some (.app op c cs)) (operand : (c :: cs)[i]? = some x)
    (tag : st.tag x = .ok g) (found : st.ty x = .ok A)
    (required : op.Requires ((c :: cs).map st.operand) i B) (ne : A ≠ B) :
    Blames st (.mismatch g A B) u
  /-- The first operand is not a number. -/
  | notNumeric {u c : TermId} {op : Operator} {cs : List TermId} {A : Ty}
    (node : st.node? u = some (.app op c cs)) (numbers : op.TakesNumbers)
    (found : st.ty c = .ok A) (ne : A.isNumeric = false) : Blames st (.notNumeric (.operator op) A) u
  /-- There is another number of operands, or arguments, than there must
  be. -/
  | arity {u c : TermId} {op : Operator} {cs : List TermId} {n : Nat}
    (node : st.node? u = some (.app op c cs)) (wanted : op.Wants (st.leaf? c) n)
    (ne : (countedChildren (.app op c cs)).length ≠ n) :
    Blames st (.arity (.operator op) (countedChildren (.app op c cs)).length n) u
  /-- The head of a call is not a function. -/
  | callHead {u c : TermId} {cs : List TermId} {head : Node}
    (node : st.node? u = some (.app .call c cs)) (known : st.node? c = some head)
    (ne : head.tag ≠ .leaf .function) :
    Blames st (.invalid (.operator .call) (.callHead head.tag)) u
  /-- A quantifier lists a term that is not a variable. -/
  | bound {u c v : TermId} {op : Operator} {vars : List TermId} {g : Tag}
    (node : st.node? u = some (.app op c vars)) (quantifier : op = .universal ∨ op = .existential)
    (listed : v ∈ vars) (tag : st.tag v = .ok g) (ne : g ≠ .leaf .var) :
    Blames st (.invalid (.operator op) (.bound g)) u
  /-- A variable or a global may not be of its type. -/
  | leafType {u : TermId} {l : Leaf} (node : st.node? u = some (.leaf l)) (forbidden : ¬ l.Fits) :
    Blames st (.invalid (.leaf l.tag) (.ty l.ty)) u
  /-- The first operand may not be of its type. -/
  | operandType {u c : TermId} {op : Operator} {cs : List TermId} {A : Ty}
    (node : st.node? u = some (.app op c cs)) (found : st.ty c = .ok A) (forbidden : op.Forbids A) :
    Blames st (.invalid (.operator op) (.ty A)) u

end TermStore

/-! ## A term to blame breaks its rule -/

namespace Operator

variable {op : Operator} {x : Operand} {xs : List Operand} {A : Ty} {i n : Nat}

/-- Where an operator fits, its operands are of the types they must have. -/
theorem Fits.ty_eq (fits : op.Fits xs) (required : op.Requires xs i A) (hx : xs[i]? = some x) :
    x.ty = .ok A := by
  have hmem := List.mem_of_getElem? hx
  cases op with
  | and | or =>
    cases required
    exact fits x hmem
  | not | equivalent =>
    obtain ⟨-, B, rfl, hall⟩ := fits
    cases required
    exact hall x hmem
  | universal | existential =>
    obtain ⟨rfl, rfl⟩ := required
    obtain ⟨body, vars, rfl, hbody, -⟩ := fits
    cases hx
    exact hbody
  | call =>
    obtain ⟨head, args, id, name, result, params, rfl, hleaf, hargs⟩ := fits
    obtain ⟨head', args', id', name', result', params', j, hxs, hleaf', rfl, hj⟩ := required
    cases hxs
    cases hleaf.symm.trans hleaf'
    have hplace := congrArg (·[j]?) hargs
    simp only [List.getElem?_map, hj, List.getElem?_cons_succ ▸ hx, Option.map_some] at hplace
    exact Option.some.inj hplace
  | _ =>
    obtain ⟨-, B, -, hall⟩ := fits
    obtain ⟨first, rest, rfl, hfirst⟩ := required
    rw [hall x hmem, ← hall first List.mem_cons_self, hfirst]

/-- Where an operator fits that takes numbers, its first operand is one. -/
theorem Fits.isNumeric (fits : op.Fits (x :: xs)) (numbers : op.TakesNumbers)
    (hx : x.ty = .ok A) : A.isNumeric = true := by
  have uniform : ∀ {count}, Uniform count (fun A => A = .integer ∨ A = .rational ∨ A = .real)
      (x :: xs) → A.isNumeric = true := by
    rintro count ⟨-, B, hB, hall⟩
    cases hx.symm.trans (hall x List.mem_cons_self)
    exact Ty.isNumeric_iff.mpr hB
  cases op with
  | toInteger | toRational | toReal | isInteger | isRational | rounding | negate
  | less | lessEquals | add | subtract | multiply | quotient | remainder => exact uniform fits
  | _ => cases numbers

/-- Where an operator fits, there are as many operands, or arguments, as it
wants. -/
theorem Fits.count_eq (fits : op.Fits (x :: xs)) (wanted : op.Wants x.leaf? n) :
    (if op = .call then xs.length else xs.length + 1) = n := by
  cases op with
  | call =>
    obtain ⟨head, args, id, name, result, params, hxs, hleaf, hargs⟩ := fits
    obtain ⟨id', name', result', params', hleaf', rfl⟩ := wanted
    cases hxs
    cases hleaf.symm.trans hleaf'
    simpa using congrArg List.length hargs
  | and | or | universal | existential => cases wanted
  | _ =>
    cases wanted
    exact fits.1

/-- Where an operator fits, its first operand is not of a type it forbids. -/
theorem Fits.not_forbids (fits : op.Fits (x :: xs)) (hx : x.ty = .ok A) : ¬ op.Forbids A := by
  cases op with
  | equals =>
    obtain ⟨-, B, hB, hall⟩ := fits
    cases hx.symm.trans (hall x List.mem_cons_self)
    exact not_or.mpr hB
  | divide =>
    obtain ⟨-, B, hB, hall⟩ := fits
    cases hx.symm.trans (hall x List.mem_cons_self)
    rintro ⟨hrational, hreal⟩
    exact hB.elim hrational hreal
  | _ => exact id

end Operator

namespace TermStore

variable {st : TermStore} {t u c : TermId} {cs : List TermId} {op : Operator} {e : TypeError}

/-- The head of a call is the one child that does not count. -/
theorem length_countedChildren (op : Operator) (c : TermId) (cs : List TermId) :
    (countedChildren (.app op c cs)).length = if op = .call then cs.length else cs.length + 1 := by
  cases op <;> rfl

theorem node?_of_leaf? {l : Leaf} (h : st.leaf? t = some l) : st.node? t = some (.leaf l) := by
  rw [leaf?] at h
  split at h
  · next hnode => rw [hnode, Option.some.inj h]
  · cases h

/-- The rule of its tag holds of a node when its operator may stand over the
children. -/
theorem fits_app_iff (h : st.node? u = some (.app op c cs)) :
    st.Fits u ↔ op.Fits (st.operand c :: cs.map st.operand) := by
  rw [Fits, h]
  rfl

/-- The rule of a term that is to blame does not hold of it. -/
theorem Blames.not_fits (h : st.Blames e u) : ¬ st.Fits u := by
  cases h with
  | mismatch node operand tag found required ne =>
    rw [fits_app_iff node]
    intro fits
    have hx := congrArg (Option.map st.operand) operand
    rw [← List.getElem?_map] at hx
    have hty := Operator.Fits.ty_eq fits required hx
    exact ne (Except.ok.inj (found.symm.trans hty))
  | notNumeric node numbers found ne =>
    rw [fits_app_iff node]
    intro fits
    exact absurd (fits.isNumeric numbers found) (ne ▸ Bool.false_ne_true)
  | arity node wanted ne =>
    rw [fits_app_iff node]
    intro fits
    rw [length_countedChildren] at ne
    apply ne
    simpa using fits.count_eq wanted
  | callHead node known ne =>
    rw [fits_app_iff node]
    rintro ⟨head, args, id, name, result, params, hxs, hleaf, -⟩
    cases hxs
    cases known.symm.trans (node?_of_leaf? hleaf)
    exact ne rfl
  | bound node quantifier listed tag ne =>
    rw [fits_app_iff node]
    intro fits
    have hvars := fits.exists_var quantifier
    obtain ⟨l, hl, hvar⟩ := hvars _ (List.mem_map_of_mem listed)
    rw [tag_of_node? (node?_of_leaf? hl)] at tag
    cases tag
    exact ne (congrArg Tag.leaf (l.isVar_iff.mp hvar))
  | leafType node forbidden =>
    rw [Fits, node]
    exact forbidden
  | operandType node found forbidden =>
    rw [fits_app_iff node]
    intro fits
    exact fits.not_forbids found forbidden

end TermStore

/-! ## The errors of a check -/

namespace Check

variable {α β : Type} {x : Check α} {f : α → Check β} {E E' : TypeError → Prop}

/-- Every type error that the check may find has the property. -/
def Errs (x : Check α) (E : TypeError → Prop) : Prop := ∀ e, x.run = .ok (.error e) → E e

theorem Errs.mono (h : Errs x E) (hE : ∀ e, E e → E' e) : Errs x E' := fun e he => hE e (h e he)

theorem errs_pure (a : α) : Errs (pure a) E := fun _ h => nomatch h

theorem errs_throw {e : TypeError} (h : E e) : Errs (throw e : Check α) E := by
  intro e' he
  cases he
  exact h

theorem errs_read (m : Except Violation α) : Errs (Check.read m) E := by
  intro e h
  cases m <;> cases h

/-- Two checks in a row: the second is made with what the first has
found. -/
theorem Errs.bind (hx : Errs x E) (hf : ∀ a, x.run = .ok (.ok a) → Errs (f a) E) :
    Errs (x >>= f) E := by
  intro e h
  match hr : x.run with
  | .ok (.ok a) => exact hf a hr e ((run_bind_of_ok hr).symm.trans h)
  | .ok (.error e') =>
    cases (run_bind_of_error hr).symm.trans h
    exact hx e hr
  | .error v => cases (run_bind_of_violation hr).symm.trans h

/-- A question may come first, whatever it answers. -/
theorem Errs.read_bind {m : Except Violation α} (hf : ∀ a, m = .ok a → Errs (f a) E) :
    Errs (Check.read m >>= f) E :=
  (errs_read m).bind fun a ha => hf a (eq_ok_of_read ha)

/-- A check behind a condition finds what it finds, or the error reported
where the condition fails. -/
theorem errs_guard {c : Prop} [Decidable c] {e : TypeError} (hx : c → Errs x E)
    (he : ¬ c → E e) : Errs (if c then x else throw e) E := by
  split
  · next hc => exact hx hc
  · next hc => exact errs_throw (he hc)

/-- A check behind an exception finds what it finds, or the error reported
where the exception holds. -/
theorem errs_unless {c : Prop} [Decidable c] {e : TypeError} (hx : ¬ c → Errs x E)
    (he : c → E e) : Errs (if c then throw e else x) E := by
  split
  · next hc => exact errs_throw (he hc)
  · next hc => exact hx hc

/-- An error found in one of many checks is found by one of them. -/
theorem errs_forM {check : α → Check Unit} {as : List α} (h : ∀ a ∈ as, Errs (check a) E) :
    Errs (as.forM check) E := by
  induction as with
  | nil => exact errs_pure ()
  | cons a as ih =>
    obtain ⟨ha, has⟩ := List.forall_mem_cons.mp h
    exact ha.bind fun _ _ => ih has

end Check

open Check

/-! ## What the rules ask for -/

namespace Operator

variable {op : Operator} {x : Operand} {xs : List Operand} {head? : Option Leaf} {A : Ty}
  {count : Option Nat} {i n : Nat}

/-- Operators on formulas require formulas at every place. -/
theorem requires_of_formulas (h : op.operandRule = .formulas count) : op.Requires xs i .bool := by
  cases op with
  | and | or | not | equivalent => exact rfl
  | _ => cases h

theorem requires_of_binding (h : op.operandRule = .binding) : op.Requires xs 0 .bool := by
  cases op with
  | universal | existential => exact ⟨rfl, rfl⟩
  | _ => cases h

/-- The rules that ask for operands of one type. -/
def IsUniform (op : Operator) : Prop :=
  op.operandRule = .comparable ∨ op.operandRule = .fractions ∨ ∃ n, op.operandRule = .numeric n

/-- Where operands of one type are asked for, the type of the first is
required at every place. -/
theorem IsUniform.requires (h : op.IsUniform) (hx : x.ty = .ok A) :
    op.Requires (x :: xs) i A := by
  cases op with
  | and | or | not | equivalent | universal | existential | call =>
    simp [IsUniform, operandRule] at h
  | _ => exact ⟨x, xs, rfl, hx⟩

theorem IsUniform.ne_call (h : op.IsUniform) : op ≠ .call := by
  rintro rfl
  simp [IsUniform, operandRule] at h

theorem wants_of_formulas (h : op.operandRule = .formulas (some n)) : op.Wants head? n := by
  cases op <;> cases h <;> rfl

theorem wants_of_numeric (h : op.operandRule = .numeric n) : op.Wants head? n := by
  cases op <;> cases h <;> rfl

theorem takesNumbers_of_numeric (h : op.operandRule = .numeric n) : op.TakesNumbers := by
  cases op <;> cases h <;> trivial

theorem eq_equals_of_comparable (h : op.operandRule = .comparable) : op = .equals := by
  cases op <;> cases h
  rfl

theorem eq_divide_of_fractions (h : op.operandRule = .fractions) : op = .divide := by
  cases op <;> cases h
  rfl

/-- Only a call has arguments. -/
theorem eq_call_of_arguments (h : op.operandRule = .arguments) : op = .call := by
  cases op <;> cases h
  rfl

end Operator

namespace TermStore

variable {st : TermStore} {t u c x : TermId} {cs : List TermId} {op : Operator} {A B : Ty}
  {e : TypeError} {d i : Nat}

/-! ## Every error has its cause -/

/-- A term inside is at fault as the error says. -/
def BlamesWithin (st : TermStore) (t : TermId) (e : TypeError) : Prop :=
  ∃ u, st.Subterm u t ∧ st.Blames e u

/-- The type of the term is not the expected one, and the error names the
two. -/
def Mismatches (st : TermStore) (t : TermId) (A : Ty) (e : TypeError) : Prop :=
  ∃ g B, e = .mismatch g B A ∧ st.tag t = .ok g ∧ st.ty t = .ok B ∧ B ≠ A

/-- What is blamed in a child is blamed within the term. -/
theorem BlamesWithin.of_child (h : st.BlamesWithin x e) (hx : st.IsChild x t) :
    st.BlamesWithin t e := by
  obtain ⟨u, hu, hblames⟩ := h
  exact ⟨u, hu.of_child hx, hblames⟩

/-- An error found while a type is derived blames a call within the term. -/
theorem errs_derive (st : TermStore) (t : TermId) : Errs (st.derive t) (st.BlamesWithin t) := by
  intro e he
  obtain ⟨g, hty, rfl⟩ := ofDerived_eq_error_iff.mp ((st.run_derive t).symm.trans he)
  obtain ⟨u, c, cs, head, hu, hnode, hhead, rfl, hother⟩ := (stuckAt_of_tyWithin hty).exists_call
  exact ⟨u, hu, .callHead hnode hhead hother⟩

/-- An error found at a leaf blames the leaf. -/
theorem errs_leafCheck {l : Leaf} (hn : st.node? t = some (.leaf l)) :
    Errs l.check (st.BlamesWithin t) := by
  have blames (hfits : ¬ l.Fits) : st.BlamesWithin t (.invalid (.leaf l.tag) (.ty l.ty)) :=
    ⟨t, .refl, .leafType hn hfits⟩
  cases l with
  | var id B =>
    refine errs_unless (fun _ => errs_pure ()) fun hB => blames ?_
    rw [Leaf.Fits, ← not_or]
    exact not_not_intro hB
  | global id name B =>
    refine errs_unless (fun _ => errs_pure ()) fun hB => blames ?_
    exact not_not_intro hB
  | _ => exact errs_pure ()

theorem tag_ne_var {v : TermId} {g : Tag} (hvar : st.isVar v = .ok false) (hg : st.tag v = .ok g) :
    g ≠ .leaf .var := by
  rintro rfl
  cases hn : st.node? v with
  | none =>
    rw [tag, node, hn] at hg
    cases hg
  | some n =>
    rw [tag_of_node? hn] at hg
    cases n with
    | app => cases hg
    | leaf l =>
      have htag : l.tag = .var := Tag.leaf.inj (Except.ok.inj hg)
      rw [isVar_of_leaf hn, l.isVar_iff.mpr htag] at hvar
      cases hvar

/-- An error about the number of operands names the number found and the
number expected. -/
theorem errs_checkArity {g : Tag} {found expected : Nat} {E : TypeError → Prop}
    (h : found ≠ expected → E (.arity g found expected)) :
    Errs (checkArity g found expected) E :=
  errs_guard (fun _ => errs_pure ()) h

section Operands

variable (hn : st.node? t = some (.app op c cs))
  (ih : ∀ x A, Errs (st.checkWithin d x A) fun e => st.Mismatches x A e ∨ st.BlamesWithin x e)

include hn

/-- Another number of operands than is wanted. -/
theorem errs_count {n : Nat} (hop : op ≠ .call) (wanted : op.Wants (st.leaf? c) n) :
    Errs (checkArity (.operator op) (cs.length + 1) n) (st.BlamesWithin t) := by
  have hcount := length_countedChildren op c cs
  rw [if_neg hop] at hcount
  rw [← hcount]
  exact errs_checkArity fun hne => ⟨t, .refl, .arity hn wanted hne⟩

include ih

/-- For what is found of an operand against the type it must have, the
node or a term inside the operand is to blame. -/
theorem errs_operand (hx : (c :: cs)[i]? = some x)
    (required : op.Requires ((c :: cs).map st.operand) i B) :
    Errs (st.checkWithin d x B) (st.BlamesWithin t) := by
  intro e he
  rcases ih x B e he with ⟨g, A, rfl, htag, hty, hne⟩ | hin
  · -- one level down it was a mismatch, here it is a broken rule
    exact ⟨t, .refl, .mismatch hn hx htag hty required hne⟩
  · exact hin.of_child ⟨_, hn, List.mem_of_getElem? hx⟩

/-- Checking operands that are all to be of one type blames within them, or
the operand that is not. -/
theorem errs_operands (required : ∀ i, op.Requires ((c :: cs).map st.operand) i B) :
    Errs ((c :: cs).forM (st.checkWithin d · B)) (st.BlamesWithin t) := by
  refine errs_forM fun x hx => ?_
  obtain ⟨i, hi⟩ := List.mem_iff_getElem?.mp hx
  exact errs_operand hn ih hi (required i)

/-- The checks for operands of one type, which is that of the first. -/
theorem errs_uniform {n : Nat} {body : Ty → Check Unit} (huniform : op.IsUniform)
    (wanted : op.Wants (st.leaf? c) n)
    (hbody : ∀ B, st.ty c = .ok B →
      Errs ((c :: cs).forM (st.checkWithin d · B)) (st.BlamesWithin t) →
      Errs (body B) (st.BlamesWithin t)) :
    Errs (checkArity (.operator op) (cs.length + 1) n >>= fun _ => st.derive c >>= body)
      (st.BlamesWithin t) := by
  refine (errs_count hn huniform.ne_call wanted).bind fun _ _ => .bind ?_ fun B hB => ?_
  · exact (st.errs_derive c).mono fun _ h => h.of_child ⟨_, hn, List.mem_cons_self⟩
  · have hty := ty_of_derive hB
    exact hbody B hty (errs_operands hn ih fun i => huniform.requires hty)

/-- The checks of a quantifier: the terms that it lists, each against its
own type, and the body. -/
theorem errs_binding (hop : op = .universal ∨ op = .existential) :
    Errs (do
      cs.forM fun v => do
        if ← Check.read (st.isVar v) then st.checkWithin d v (← Check.read (st.ty v))
        else throw (.invalid (.operator op) (.bound (← Check.read (st.tag v))))
      st.checkWithin d c .bool) (st.BlamesWithin t) := by
  refine .bind (errs_forM fun v hv => .read_bind fun b hb => ?_) fun _ _ => ?_
  · cases b with
    | true =>
      refine .read_bind fun B hB e he => ?_
      rcases ih v B e he with ⟨g, C, rfl, -, hC, hne⟩ | hin
      · -- what is listed is checked against its own type
        exact absurd (Except.ok.inj (hC.symm.trans hB)) hne
      · exact hin.of_child ⟨_, hn, List.mem_cons_of_mem _ hv⟩
    | false =>
      refine .read_bind fun g hg => errs_throw ⟨t, .refl, .bound hn hop hv hg ?_⟩
      exact tag_ne_var hb hg
  · exact errs_operand hn ih (i := 0) rfl
      (Operator.requires_of_binding (Operator.operandRule_eq_binding_iff.mpr hop))

/-- The checks of a call: a function, and arguments against its
parameters. -/
theorem errs_arguments (hop : op = .call) :
    Errs (do
      match ← Check.read (st.node c) with
      | .leaf (.function _ _ _ params) =>
        checkArity (.operator op) cs.length params.length
        (cs.zip params).forM fun (arg, param) => st.checkWithin d arg param
      | head => throw (.invalid (.operator op) (.callHead head.tag))) (st.BlamesWithin t) := by
  subst hop
  refine .read_bind fun head hhead => ?_
  rw [node_eq_ok_iff] at hhead
  split
  · next id name result params =>
    have hleaf : st.leaf? c = some (.function id name result params) := by
      rw [leaf?, hhead]
    refine .bind (errs_checkArity fun hne => ?_) fun _ _ => errs_forM fun p hmem => ?_
    · exact ⟨t, .refl, .arity hn ⟨id, name, result, params, hleaf, rfl⟩ hne⟩
    · obtain ⟨j, hj⟩ := List.mem_iff_getElem?.mp hmem
      obtain ⟨harg, hparam⟩ := List.getElem?_zip_eq_some.mp hj
      exact errs_operand hn ih (i := j + 1) harg
        ⟨_, _, id, name, result, params, j, rfl, hleaf, rfl, hparam⟩
  · next hnot =>
    refine errs_throw ⟨t, .refl, .callHead hn hhead fun htag => ?_⟩
    obtain ⟨id, name, result, params, rfl⟩ := Node.exists_function_of_tag htag
    exact hnot id name result params rfl

end Operands

/-- The levels of a check: for an error either the term has not the
expected type, or something inside is to blame. -/
theorem errs_checkWithin (st : TermStore) (d : Nat) (t : TermId) (A : Ty) :
    Errs (st.checkWithin d t A) fun e => st.Mismatches t A e ∨ st.BlamesWithin t e := by
  induction d generalizing t A with
  | zero => exact errs_read _
  | succ d ih =>
    rw [checkWithin]
    refine .read_bind fun n hn => ?_
    rw [node_eq_ok_iff] at hn
    refine .bind ((st.errs_derive t).mono fun _ => Or.inr) fun B hB => ?_
    refine errs_unless (fun _ => ?_) fun hne =>
      .inl ⟨n.tag, B, rfl, tag_of_node? hn, ty_of_derive hB, hne⟩
    refine Errs.mono (E := st.BlamesWithin t) ?_ fun _ => Or.inr
    cases n with
    | leaf l => exact errs_leafCheck hn
    | app op c cs =>
      simp only
      split
      · next hrule => exact errs_operands hn ih fun _ => Operator.requires_of_formulas hrule
      · next n hrule =>
        have hcall : op ≠ .call := by
          rintro rfl
          cases hrule
        refine .bind (errs_count hn hcall (Operator.wants_of_formulas hrule)) fun _ _ => ?_
        exact errs_operands hn ih fun _ => Operator.requires_of_formulas hrule
      · next hrule => exact errs_binding hn ih (Operator.operandRule_eq_binding_iff.mp hrule)
      · next hrule =>
        obtain rfl := Operator.eq_equals_of_comparable hrule
        refine errs_uniform hn ih (.inl hrule) rfl fun B hB all => ?_
        exact errs_unless (fun _ => all) fun hbad => ⟨t, .refl, .operandType hn hB hbad⟩
      · next n hrule =>
        have hnumbers := Operator.takesNumbers_of_numeric hrule
        refine errs_uniform hn ih (.inr (.inr ⟨n, hrule⟩)) (Operator.wants_of_numeric hrule)
          fun B hB all => ?_
        exact errs_guard (fun _ => all) fun hbad =>
          ⟨t, .refl, .notNumeric hn hnumbers hB (Bool.eq_false_iff.mpr hbad)⟩
      · next hrule =>
        obtain rfl := Operator.eq_divide_of_fractions hrule
        refine errs_uniform hn ih (.inr (.inl hrule)) rfl fun B hB all => ?_
        exact errs_guard (fun _ => all) fun hbad =>
          ⟨t, .refl, .operandType hn hB (not_or.mp hbad)⟩
      · next hrule => exact errs_arguments hn ih (Operator.eq_call_of_arguments hrule)

/-- Every type error points at a defect. A check of a term against a type
finds that the term has another type, and names the two; or there is a term
inside that is at fault as the error says, and that breaks the rule of its
tag. -/
theorem check_error_blames (he : (st.check t A).run = .ok (.error e)) :
    (∃ g B, e = .mismatch g B A ∧ st.tag t = .ok g ∧ st.ty t = .ok B ∧ B ≠ A) ∨
      ∃ u, st.Subterm u t ∧ st.Blames e u ∧ ¬ st.Fits u := by
  rcases st.errs_checkWithin st.depthLimit t A e he with hmismatch | ⟨u, hu, hblames⟩
  · exact .inl hmismatch
  · exact .inr ⟨u, hu, hblames, hblames.not_fits⟩

/-- In the formula `¬ x < -x(x)` the call is at fault. -/
theorem check_error_blames_stuckSample :
    (stuckSample.check ⟨4⟩ .bool).run =
      .ok (.error (.invalid (.operator .call) (.callHead (.leaf .var)))) ∧
    ∃ u, stuckSample.Subterm u ⟨4⟩ ∧
      stuckSample.Blames (.invalid (.operator .call) (.callHead (.leaf .var))) u ∧
      ¬ stuckSample.Fits u := by
  have herror : (stuckSample.check ⟨4⟩ .bool).run =
      .ok (.error (.invalid (.operator .call) (.callHead (.leaf .var)))) := rfl
  refine ⟨herror, ?_⟩
  rcases check_error_blames herror with ⟨g, B, hmismatch, -⟩ | hblamed
  · cases hmismatch
  · exact hblamed

end TermStore

end TypedTerms
