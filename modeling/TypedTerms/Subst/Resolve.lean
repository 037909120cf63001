import TypedTerms.Term.Map

/-!
# Substitutions

A substitution is a chain of bindings, the newest first. Binding puts a
new one in front and leaves the old chain as it was, so a failed attempt
costs nothing and alternatives can grow from one beginning. The newest
binding of a term hides the older ones; they still count as bindings.

Any term may be bound, to any term.
-/

namespace TypedTerms

/-- A chain of bindings, newest first. -/
structure Subst where
  bindings : List (TermId × TermId)
  deriving DecidableEq, Repr

namespace Subst

/-- The substitution without bindings. -/
def empty : Subst := ⟨[]⟩

/-- The chain with one more binding in front. -/
def bind (s : Subst) (key value : TermId) : Subst := ⟨(key, value) :: s.bindings⟩

/-- The newest value of a term, if it is bound. -/
def get? (s : Subst) (key : TermId) : Option TermId := s.bindings.lookup key

/-- Is the term bound? -/
def isBound (s : Subst) (key : TermId) : Bool := (s.get? key).isSome

/-- The number of bindings, hidden ones included. -/
def size (s : Subst) : Nat := s.bindings.length

/-- Are there no bindings? -/
def isEmpty (s : Subst) : Bool := s.bindings.isEmpty

/-- The bindings with terms by number, newest first. -/
def text (s : Subst) : String :=
  "\x7b" ++ ", ".intercalate (s.bindings.map fun b => b.1.text ++ ": " ++ b.2.text) ++ "\x7d"

/-! ## What binding does to `get?` -/

@[simp] theorem get?_empty (t : TermId) : empty.get? t = none := rfl

/-- The newest binding of a term is the one that is looked up. -/
theorem get?_bind (s : Subst) (key value t : TermId) :
    (s.bind key value).get? t = if t = key then some value else s.get? t := by
  by_cases h : t = key
  · simp [get?, bind, h]
  · have hb : (t == key) = false := beq_eq_false_iff_ne.mpr h
    simp [get?, bind, List.lookup_cons, h, hb]

/-!
## Terms under a substitution

`Subst.replace` builds a term with every bound leaf replaced by its
value, the value itself being replaced in turn, so that chains of
bindings are followed to their end. `TermStore.occurs` asks whether a
variable would stand in that term, without building it.

Both follow bindings for as long as they lead on. A leaf that is bound,
possibly over several bindings, to a term it stands in has no end; a
leaf bound to itself directly is reported as such.
-/

/-- `replace` through a number of bindings in a row. -/
def replaceWithin (s : Subst) : Nat → TermId → Build TermId
  | 0, _ => throw .endless
  | n + 1, t =>
    if s.isEmpty then return t
    else
      t |> Build.mapLeaves fun leaf =>
        match s.get? leaf with
        | none => return leaf
        | some value => if value = leaf then throw (.selfBound leaf) else s.replaceWithin n value

/-- The term with bound leaves replaced until none is left.

A row of bindings that comes to an end binds each leaf on it once, so it
is no longer than the chain. -/
def replace (s : Subst) (t : TermId) : Build TermId := s.replaceWithin (s.size + 1) t

end Subst

namespace TermStore

/-- `occurs` within a number of steps, to a child or along a binding. -/
def occursWithin (st : TermStore) (s : Subst) (v : TermId) : Nat → TermId → Except Violation Bool
  | 0, _ => .error .endless
  | d + 1, t =>
    if t = v then .ok true
    else do
      match ← st.node t with
      | .leaf l =>
        match if l.isVar then s.get? t else none with
        | some value => st.occursWithin s v d value
        | none => return false
      | n => n.children.reverse.anyM (st.occursWithin s v d)

/-- Does `v` stand in `t`, bound variables of `t` being read as their
values? The last child is looked into first. -/
def occurs (st : TermStore) (s : Subst) (v t : TermId) : Except Violation Bool :=
  st.occursWithin s v st.depthLimit t

end TermStore

end TypedTerms
