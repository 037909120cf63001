import TypedTerms.Store.Read

/-!
# Making terms

A `Build` is a step that may make terms. It runs on a store and leaves a
store behind, also when it stops at a broken contract: what was made
before stays.

The makers of leaves and compound nodes are the only way to new nodes.
A variable, a global and a function are fresh each time, so making one
always counts up, whether or not anything is done with it.
-/

namespace TypedTerms

/-- A step that may make terms, and may stop at a broken contract. -/
abbrev Build := ExceptT Violation (StateM TermStore)

namespace Build

/-- Runs a step on a store: what it answers, and the store it leaves. -/
def on {α : Type} (x : Build α) (st : TermStore) : Except Violation α × TermStore := x st

/-- A question about the store, which it leaves as it is. -/
def read {α : Type} (f : TermStore → Except Violation α) : Build α := fun st => (f st, st)

/-- The term with this node. -/
def intern (n : Node) : Build TermId := fun st =>
  let (t, st) := st.intern n
  (.ok t, st)

/-- The next number for a fresh leaf. -/
def freshLeaf : Build Nat := fun st =>
  (.ok st.nextLeaf, { st with nextLeaf := st.nextLeaf + 1 })

/-! ## Running a step

One equation for each way a step is put together; with them a step is
followed without looking at how it is represented. -/

@[simp] theorem on_pure {α : Type} (a : α) (st : TermStore) :
    (pure a : Build α).on st = (.ok a, st) := rfl

@[simp] theorem on_throw {α : Type} (v : Violation) (st : TermStore) :
    (throw v : Build α).on st = (.error v, st) := rfl

@[simp] theorem on_read {α : Type} (f : TermStore → Except Violation α) (st : TermStore) :
    (read f).on st = (f st, st) := rfl

@[simp] theorem on_intern (n : Node) (st : TermStore) :
    (intern n).on st = (.ok (st.intern n).1, (st.intern n).2) := rfl

/-- The second step runs on the store that the first leaves, unless the
first stops. -/
@[simp] theorem on_bind {α β : Type} (x : Build α) (f : α → Build β) (st : TermStore) :
    (x >>= f).on st =
      match x.on st with
      | (.ok a, st) => (f a).on st
      | (.error v, st) => (.error v, st) := by
  show (ExceptT.bind x f : Build β) st = _
  unfold ExceptT.bind ExceptT.mk on
  simp only [bind, StateT.bind]
  rcases x st with ⟨_ | _, st'⟩ <;> rfl

/-- A function of the answer leaves the store to the step. -/
@[simp] theorem on_map {α β : Type} (f : α → β) (x : Build α) (st : TermStore) :
    (f <$> x).on st = ((x.on st).1.map f, (x.on st).2) := by
  rw [map_eq_pure_bind, on_bind]
  rcases x.on st with ⟨_ | _, st'⟩ <;> rfl

/-! ## Leaves -/

/-- The truth value `b`. -/
def boolean (b : Bool) : Build TermId := intern (.leaf (.boolean b))

/-- The integer literal `n`. -/
def integer (n : Int) : Build TermId := intern (.leaf (.integer n))

/-- The fraction literal `q` of a sort. -/
def fraction (s : FractionSort) (q : Fraction) : Build TermId := intern (.leaf (.fraction s q))

/-- The fraction literal `q` of a type, which must be one that fractions
have. -/
def fractionOf (ty : Ty) (q : Fraction) : Build TermId :=
  match FractionSort.ofTy? ty with
  | some s => fraction s q
  | none => throw (.fractionOfType ty)

/-- The distinct object of a name; another name gives another object. -/
def object (name : Symbol) : Build TermId := intern (.leaf (.object name))

/-- A fresh variable. -/
def var (ty : Ty) : Build TermId := do
  intern (.leaf (.var (← freshLeaf) ty))

/-- A fresh global constant. -/
def global (name : Symbol) (ty : Ty) : Build TermId := do
  intern (.leaf (.global (← freshLeaf) name ty))

/-- A fresh function or predicate symbol. -/
def function (name : Symbol) (result : Ty) (params : List Ty) : Build TermId := do
  intern (.leaf (.function (← freshLeaf) name result params))

/-! ## Compound terms -/

/-- An operator over children, of which there must be one. -/
def apply (op : Operator) : List TermId → Build TermId
  | [] => throw (.noChildren op)
  | first :: rest => intern (.app op first rest)

/-- A compound node by its tag, which must be an operator. -/
def app (tag : Tag) (children : List TermId) : Build TermId :=
  match tag with
  | .leaf l => throw (.notOperator l)
  | .operator op => apply op children

/-- The call of `f` with arguments, of which there must be one. -/
def call (f : TermId) (args : List TermId) : Build TermId :=
  if args.isEmpty then throw .noArguments else intern (.app .call f args)

/-- The implication from `a` to `b`: not `a`, or `b`. -/
def implies (a b : TermId) : Build TermId := do
  intern (.app .or (← intern (.app .not a [])) [b])

end Build

end TypedTerms
