import TypedTerms.Proofs.Decompose
import TypedTerms.Proofs.Listed
import TypedTerms.Solve.Unify

/-!
# A rule applied by recursion

`Rule.solve` keeps the equations that are still open in one list, those
of many levels behind each other. The same rule can be applied by
recursion: the equations it leaves are solved in turn, one level down,
before the answer goes back up. Recursion that comes to an answer within
some depth and the list that comes to an answer within some number of
steps are the same thing, with the same answer (`recurse_iff_solve`). The
answer may be bindings, nothing, or a broken contract.

On the way from recursion to the list, the steps that an equation takes
do not depend on what stands behind it (`exists_solve_of_recurse`). On
the way back, a depth that is enough stays enough (`recurse_succ`).
-/

namespace TypedTerms

/-- Solves one equation under the bindings made so far. -/
abbrev Solver := Subst → TermId → TermId → Except Violation (Option Subst)

/-- Goes on with the bindings that were answered, if there are any. -/
def onward (r : Except Violation (Option Subst)) (f : Subst → Except Violation (Option Subst)) :
    Except Violation (Option Subst) :=
  match r with
  | .ok (some s) => f s
  | .ok none => .ok none
  | .error v => .error v

/-- Going on twice is going on with both, one after the other. -/
theorem onward_onward (r : Except Violation (Option Subst))
    (f g : Subst → Except Violation (Option Subst)) :
    onward (onward r f) g = onward r fun s => onward (f s) g := by
  rcases r with _ | _ | _ <;> rfl

/-- Going on with the bindings as they are changes nothing. -/
theorem onward_ok_some (r : Except Violation (Option Subst)) :
    onward r (fun s => .ok (some s)) = r := by
  rcases r with _ | _ | _ <;> rfl

/-- Where going on comes to an end, so does what one goes on from. -/
theorem ne_endless_of_onward {r : Except Violation (Option Subst)}
    {f : Subst → Except Violation (Option Subst)} (h : onward r f ≠ .error .endless) :
    r ≠ .error .endless := by
  rintro rfl
  exact h rfl

/-- The equations one after the other, each under the bindings that those
before it have made. The first that fails ends the search. -/
def Solver.inTurn (solver : Solver) : Subst → List Equation → Except Violation (Option Subst)
  | s, [] => .ok (some s)
  | s, (a, b) :: rest => onward (solver s a b) fun s => solver.inTurn s rest

/-- Solves in turn what a rule leaves of an equation. -/
def Solver.resume (solver : Solver) (r : Except Violation (Option (Subst × List Equation))) :
    Except Violation (Option Subst) :=
  match r with
  | .error v => .error v
  | .ok none => .ok none
  | .ok (some (s, new)) => solver.inTurn s new

namespace Solver

variable {f g : Solver} {s : Subst} {pending : List Equation}

@[simp] theorem resume_none : f.resume (.ok none) = .ok none := rfl

@[simp] theorem resume_some (s : Subst) (new : List Equation) :
    f.resume (.ok (some (s, new))) = f.inTurn s new := rfl

theorem inTurn_singleton (s : Subst) (a b : TermId) : f.inTurn s [(a, b)] = f s a b :=
  onward_ok_some _

/-- Equations are solved in turn by solving the first of them and going on
with the rest. -/
theorem inTurn_append (s : Subst) (first rest : List Equation) :
    f.inTurn s (first ++ rest) = onward (f.inTurn s first) fun s => f.inTurn s rest := by
  induction first generalizing s with
  | nil => rfl
  | cons e first ih =>
    obtain ⟨a, b⟩ := e
    rw [List.cons_append, inTurn, inTurn, onward_onward]
    congr 1
    funext s
    exact ih s

/-- A solver that answers wherever another does, and the same, solves in
turn whatever the other does. -/
theorem inTurn_eq_of_le (hfg : ∀ s a b, f s a b ≠ .error .endless → g s a b = f s a b)
    (h : f.inTurn s pending ≠ .error .endless) : g.inTurn s pending = f.inTurn s pending := by
  induction pending generalizing s with
  | nil => rfl
  | cons e rest ih =>
    obtain ⟨a, b⟩ := e
    rw [inTurn] at h
    rw [inTurn, inTurn, hfg s a b (ne_endless_of_onward h)]
    rcases hf : f s a b with _ | _ | s'
    · rfl
    · rfl
    · rw [hf] at h
      exact ih h

end Solver

namespace Rule

variable {rule : Rule} {s : Subst} {a b : TermId} {pending : List Equation} {d n : Nat}
  {r : Except Violation (Option Subst)}

/-- Applies a rule, and solves what it leaves in turn, through at most a
number of levels. -/
def recurse (rule : Rule) : Nat → Solver
  | 0, _, _, _ => .error .endless
  | d + 1, s, a, b => Solver.resume (rule.recurse d) (rule s a b)

/-- An answer that takes no more than some depth is the answer one level
deeper. -/
theorem recurse_succ (h : rule.recurse d s a b ≠ .error .endless) :
    rule.recurse (d + 1) s a b = rule.recurse d s a b := by
  induction d generalizing s a b with
  | zero => exact absurd rfl h
  | succ d ih =>
    rw [recurse] at h
    rw [recurse, recurse]
    rcases hr : rule s a b with _ | _ | ⟨s', new⟩
    · rfl
    · rfl
    · rw [hr] at h
      exact Solver.inTurn_eq_of_le (fun s a b hd => ih hd) h

/-! ## From recursion to the list -/

/-- What is true of single equations is true of equations in turn: they
take some number of steps, whatever stands behind them. -/
theorem exists_solve_of_inTurn {solver : Solver}
    (one : ∀ s a b, solver s a b ≠ .error .endless → ∃ N, ∀ n rest,
      rule.solve (n + N) s ((a, b) :: rest) = onward (solver s a b) (rule.solve n · rest))
    (h : solver.inTurn s pending ≠ .error .endless) :
    ∃ N, ∀ n rest, rule.solve (n + N) s (pending ++ rest) =
      onward (solver.inTurn s pending) (rule.solve n · rest) := by
  induction pending generalizing s with
  | nil => exact ⟨0, fun _ _ => rfl⟩
  | cons e pending ih =>
    obtain ⟨a, b⟩ := e
    rw [Solver.inTurn] at h ⊢
    obtain ⟨N, hN⟩ := one s a b (ne_endless_of_onward h)
    rcases hs : solver s a b with _ | _ | s'
    · exact ⟨N, fun n rest => by rw [List.cons_append, hN, hs]; rfl⟩
    · exact ⟨N, fun n rest => by rw [List.cons_append, hN, hs]; rfl⟩
    · rw [hs] at h
      obtain ⟨M, hM⟩ := ih h
      refine ⟨M + N, fun n rest => ?_⟩
      rw [List.cons_append, ← Nat.add_assoc, hN, hs]
      exact hM n rest

/-- An equation that recursion solves within some depth takes some number of
steps in the list, and the run goes on with what stands behind it. -/
theorem exists_solve_of_recurse (h : rule.recurse d s a b ≠ .error .endless) :
    ∃ N, ∀ n rest, rule.solve (n + N) s ((a, b) :: rest) =
      onward (rule.recurse d s a b) (rule.solve n · rest) := by
  induction d generalizing s a b with
  | zero => exact absurd rfl h
  | succ d ih =>
    rw [recurse] at h ⊢
    rcases hr : rule s a b with v | _ | ⟨s', new⟩
    · exact ⟨1, fun n rest => by rw [solve_cons, hr]; rfl⟩
    · exact ⟨1, fun n rest => by rw [solve_cons, hr]; rfl⟩
    · rw [hr] at h
      obtain ⟨N, hN⟩ := exists_solve_of_inTurn (fun s a b hd => ih hd) h
      refine ⟨N + 1, fun n rest => ?_⟩
      rw [← Nat.add_assoc, solve_cons, hr]
      exact hN n rest

/-! ## From the list to recursion -/

/-- A run of so many steps goes through no more levels than that. -/
theorem inTurn_of_solve (h : rule.solve n s pending = r) (hr : r ≠ .error .endless) (hd : n ≤ d) :
    Solver.inTurn (rule.recurse d) s pending = r := by
  induction n generalizing s pending d with
  | zero =>
    cases pending with
    | nil => exact h
    | cons => exact absurd h.symm hr
  | succ n ih =>
    cases pending with
    | nil => exact h
    | cons e rest =>
      obtain ⟨a, b⟩ := e
      obtain ⟨d, rfl⟩ := Nat.exists_eq_add_of_le' (Nat.le_of_add_left_le hd)
      rw [solve_cons] at h
      rw [Solver.inTurn, recurse]
      rcases hrule : rule s a b with v | _ | ⟨s', new⟩
      all_goals rw [hrule] at h
      · exact h
      · exact h
      · have hnew := ih h (Nat.le_of_succ_le_succ hd)
        rw [Solver.inTurn_append] at hnew
        rw [← hnew] at hr ⊢
        show onward (Solver.inTurn (rule.recurse d) s' new) _ = _
        rcases hin : Solver.inTurn (rule.recurse d) s' new with _ | _ | s''
        · rfl
        · rfl
        · -- the equations behind may go one level deeper now, which changes nothing
          rw [hin] at hr
          exact Solver.inTurn_eq_of_le (fun _ _ _ => recurse_succ) hr

/-- By recursion and over a list of open equations a rule comes to the
same end: one does where the other does, and with the same answer. -/
theorem recurse_iff_solve (hr : r ≠ .error .endless) :
    (∃ d, rule.recurse d s a b = r) ↔ ∃ N, ∀ n ≥ N, rule.solve n s [(a, b)] = r := by
  constructor
  · rintro ⟨d, rfl⟩
    obtain ⟨N, hN⟩ := exists_solve_of_recurse hr
    refine ⟨N, fun n hn => ?_⟩
    obtain ⟨n, rfl⟩ := Nat.exists_eq_add_of_le' hn
    have hend : (fun s => rule.solve n s []) = fun s => .ok (some s) := by
      funext s
      cases n <;> rfl
    rw [hN n [], hend, onward_ok_some]
  · rintro ⟨N, hN⟩
    have hturn := inTurn_of_solve (hN N le_rfl) hr le_rfl
    exact ⟨N, (Solver.inTurn_singleton s a b).symm.trans hturn⟩

end Rule

end TypedTerms

/-!
## Matching and unification by recursion

Matching and unification as they are first thought of: two terms are
compared from the root down, children from left to right, each pair under
the bindings that the pairs before it have made, and a bound variable is
left for its value by a call on the value.

The runs over a list of open equations come to the same (`solve_iff_recursive`):
bindings in the same order, nothing, or the same broken contract. The
chain to begin with may bind any term, to any term, and the terms need
not be well formed; where the recursion does not come to an end, neither
does the run.
-/

namespace TypedTerms.TermStore

variable {st : TermStore} {s : Subst} {a b : TermId} {d : Nat}
  {r : Except Violation (Option Subst)}

/-- Two compound terms of one tag, and of one arity, by their children
from left to right. -/
def childrenInTurn (st : TermStore) (solver : Solver) : Solver := fun s a b => do
  if (← st.tag a) ≠ (← st.tag b) then return none
  let cs ← st.children a
  let ds ← st.children b
  if cs = [] ∨ cs.length ≠ ds.length then return none
  solver.inTurn s (cs.zip ds)

/-- Matching by recursion, through at most a number of levels. -/
def matchRecursive (st : TermStore) : Nat → Solver
  | 0, _, _, _ => .error .endless
  | d + 1, s, a, b => do
    if a = b then return some s
    if (← st.ty a) ≠ (← st.ty b) then return none
    if ← st.isVar a then
      match s.get? a with
      | none => return some (s.bind a b)
      | some value => if value = b then return some s else return none
    else st.childrenInTurn (st.matchRecursive d) s a b

/-- A variable and another term: whichever is bound is left for its
value, and a free variable is bound unless it occurs in the other
term. -/
def variableInTurn (st : TermStore) (solver : Solver) : Solver := fun s x other =>
  match s.get? x with
  | some value => solver s value other
  | none =>
    match s.get? other with
    | some value => solver s x value
    | none => do
      if ← st.occurs s x other then return none
      return some (s.bind x other)

/-- Unification by recursion, through at most a number of levels. -/
def unifyRecursive (st : TermStore) : Nat → Solver
  | 0, _, _, _ => .error .endless
  | d + 1, s, a, b => do
    if a = b then return some s
    if (← st.ty a) ≠ (← st.ty b) then return none
    if ← st.isVar b then st.variableInTurn (st.unifyRecursive d) s b a
    else if ← st.isVar a then st.variableInTurn (st.unifyRecursive d) s a b
    else st.childrenInTurn (st.unifyRecursive d) s a b

/-! ### The recursion applies the rules -/

/-- To compare children in turn is to resume with what taking the equation
apart leaves. -/
theorem childrenInTurn_eq (solver : Solver) (s : Subst) (a b : TermId) :
    st.childrenInTurn solver s a b =
      solver.resume (do return (← st.decompose a b).map ((s, ·))) := by
  unfold childrenInTurn decompose tag children
  rcases st.node a with _ | m
  · rfl
  rcases st.node b with _ | n
  · rfl
  by_cases htag : m.tag = n.tag
  swap
  · simp [bind, Except.bind, pure, Except.pure, htag]
  by_cases hlen : m.children = [] ∨ m.children.length ≠ n.children.length
  · have hno : ¬ (m.children ≠ [] ∧ m.children.length = n.children.length) := by tauto
    simp [bind, Except.bind, pure, Except.pure, htag, hlen, hno]
  · obtain ⟨hne, heq⟩ := not_or.mp hlen
    have heq := not_not.mp heq
    simp [bind, Except.bind, pure, Except.pure, htag, hne, heq]

/-- To solve an equation at a variable by recursion is to resume with what
the rule makes of it. -/
theorem variableInTurn_eq (solver : Solver) (s : Subst) (x other : TermId) :
    st.variableInTurn solver s x other = solver.resume (st.solveVar s x other) := by
  unfold variableInTurn solveVar
  cases s.get? x with
  | some value => exact (Solver.inTurn_singleton s value other).symm
  | none =>
    cases s.get? other with
    | some value => exact (Solver.inTurn_singleton s x value).symm
    | none =>
      rcases st.occurs s x other with _ | _ | _ <;> rfl

/-- What both rules look at first: the same term on both sides, terms of
different types, and only then what `inner` makes of them. -/
theorem guarded_eq_resume {solver : Solver} {inner : Except Violation (Option Subst)}
    {innerRule : Except Violation (Option (Subst × List Equation))}
    (h : inner = solver.resume innerRule) :
    (do
      if a = b then return some s
      if (← st.ty a) ≠ (← st.ty b) then return none
      inner : Except Violation (Option Subst)) =
    solver.resume (do
      if a = b then return some (s, [])
      let ty ← st.ty a
      if ty ≠ (← st.ty b) then return none
      innerRule) := by
  by_cases hab : a = b
  · simp only [hab, if_true]
    rfl
  simp only [hab, if_false]
  rcases st.ty a with _ | A
  · rfl
  rcases st.ty b with _ | B
  · rfl
  by_cases hty : A = B
  · simpa [bind, Except.bind, hty] using h
  · simp [bind, Except.bind, pure, Except.pure, hty]

/-- Matching by recursion is its rule applied by recursion. -/
theorem matchRecursive_eq (d : Nat) : st.matchRecursive d = st.matchRule.recurse d := by
  induction d with
  | zero => rfl
  | succ d ih =>
    funext s a b
    rw [matchRecursive, Rule.recurse, matchRule, ← ih]
    apply guarded_eq_resume
    rcases st.isVar a with _ | _ | _
    · rfl
    · exact childrenInTurn_eq _ s a b
    · cases s.get? a with
      | none => rfl
      | some value => by_cases hv : value = b <;> simp [bind, Except.bind, hv] <;> rfl

/-- Unification by recursion is its rule applied by recursion. -/
theorem unifyRecursive_eq (d : Nat) : st.unifyRecursive d = st.unifyRule.recurse d := by
  induction d with
  | zero => rfl
  | succ d ih =>
    funext s a b
    rw [unifyRecursive, Rule.recurse, unifyRule, ← ih]
    apply guarded_eq_resume
    rcases st.isVar b with _ | _ | _
    · rfl
    · rcases st.isVar a with _ | _ | _
      · rfl
      · exact childrenInTurn_eq _ s a b
      · exact variableInTurn_eq _ s a b
    · exact variableInTurn_eq _ s b a

/-- Matching and unification answer what the recursion answers, if it
comes to an end: the same bindings in the same order, or nothing, or the
same broken contract. And they come to an end only where it does. -/
theorem solve_iff_recursive (hr : r ≠ .error .endless) :
    ((∃ d, st.matchRecursive d s a b = r) ↔ ∃ N, ∀ n ≥ N, st.matchWith n s a b = r) ∧
      ((∃ d, st.unifyRecursive d s a b = r) ↔ ∃ N, ∀ n ≥ N, st.unifyWith n s a b = r) := by
  simp only [matchRecursive_eq, unifyRecursive_eq]
  exact ⟨Rule.recurse_iff_solve hr, Rule.recurse_iff_solve hr⟩

/-- Under `g(a) ↦ a`, a chain that binds a compound term, matching makes
of `f(x, z)` and `f(g(a), x)` the bindings `x ↦ g(a)` and `z ↦ x`, and
unification, which looks through the chain, `x ↦ a` and `z ↦ a`. A term
that the store does not know is an answer as well. -/
theorem solve_iff_recursive_sample :
    (∃ N, ∀ n ≥ N, sample.matchWith n ⟨[(⟨7⟩, ⟨3⟩)]⟩ ⟨8⟩ ⟨9⟩ =
      .ok (some ⟨[(⟨2⟩, ⟨0⟩), (⟨0⟩, ⟨7⟩), (⟨7⟩, ⟨3⟩)]⟩)) ∧
    (∃ N, ∀ n ≥ N, sample.unifyWith n ⟨[(⟨7⟩, ⟨3⟩)]⟩ ⟨8⟩ ⟨9⟩ =
      .ok (some ⟨[(⟨2⟩, ⟨3⟩), (⟨0⟩, ⟨3⟩), (⟨7⟩, ⟨3⟩)]⟩)) ∧
    ∃ N, ∀ n ≥ N, sample.unifyWith n .empty ⟨0⟩ ⟨10⟩ = .error (.unknownTerm ⟨10⟩) :=
  ⟨(solve_iff_recursive (by decide)).1.mp ⟨2, rfl⟩,
    (solve_iff_recursive (by decide)).2.mp ⟨3, rfl⟩,
    (solve_iff_recursive (by decide)).2.mp ⟨1, rfl⟩⟩

end TypedTerms.TermStore
