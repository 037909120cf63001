import TypedTerms.Store.Read

/-!
# Typing terms

A term has a type, which is read off at its root, and it may or may not be
well typed, which the checker decides by looking at every node. The two
share the rule of each operator for its result and for its operands.
-/

/-!
## The type of a term

The type of a leaf is part of the leaf. An operator has a fixed result
type, or that of its first operand, or, for a call, the result type of
the called function. Nothing else about the operands is looked at: a
term has a type also when it is not well typed.
-/

namespace TypedTerms

/-- Where the type of a compound term comes from. -/
inductive ResultRule where
  /-- Always this type. -/
  | always (ty : Ty)
  /-- The type of the first operand. -/
  | firstOperand
  /-- The result type of the function at the head. -/
  | headResult
  deriving DecidableEq, Repr

/-- The result rule of an operator. -/
def Operator.resultRule : Operator → ResultRule
  | .universal | .existential | .and | .or | .not | .equivalent | .equals
  | .less | .lessEquals | .isInteger | .isRational => .always .bool
  | .rounding _ | .negate | .add | .subtract | .multiply | .divide
  | .quotient _ | .remainder _ => .firstOperand
  | .toInteger => .always .integer
  | .toRational => .always .rational
  | .toReal => .always .real
  | .call => .headResult

namespace TermStore

def tyWithin (st : TermStore) : Nat → TermId → Except Violation Ty
  | 0, _ => .error .endless
  | d + 1, t => do
    match ← st.node t with
    | .leaf l => return l.ty
    | .app op first _ =>
      match op.resultRule with
      | .always ty => return ty
      | .firstOperand => st.tyWithin d first
      | .headResult =>
        match ← st.node first with
        | .leaf (.function _ _ result _) => return result
        | head => throw (.callHead head.tag)

/-- The type of a term. A call whose head is not a function has none. -/
def ty (st : TermStore) (t : TermId) : Except Violation Ty := st.tyWithin st.depthLimit t

end TermStore

/-!
## Type errors

What the type checker says about a term that is not well typed: which
node breaks its rule, and how.
-/

/-- The thing that makes a node invalid. -/
inductive Defect where
  | ty (ty : Ty)
  | callHead (tag : Tag)
  | bound (tag : Tag)
  deriving DecidableEq

/-- Why a term is not well typed, at a node with the tag. -/
inductive TypeError where
  | mismatch (tag : Tag) (found expected : Ty)
  | notNumeric (tag : Tag) (found : Ty)
  | arity (tag : Tag) (found expected : Nat)
  | invalid (tag : Tag) (what : Defect)
  deriving DecidableEq

def Defect.text : Defect → String
  | .ty t => "type " ++ t.text
  | .callHead tag => "call head " ++ tag.name
  | .bound tag => "bound " ++ tag.name

def TypeError.message : TypeError → String
  | .mismatch tag found expected =>
    tag.name ++ ": type error: " ++ found.text ++ " != " ++ expected.text
  | .notNumeric tag found => tag.name ++ ": type error: " ++ found.text ++ " is not numeric"
  | .arity tag found expected =>
    tag.name ++ ": args count: " ++ toString found ++ " != " ++ toString expected
  | .invalid tag what => tag.name ++ ": invalid " ++ what.text

/-!
## Checking types

The checker decides whether a term is well typed at a type, and says of
the first offending node what is wrong with it. The type of the term
itself is compared first, then the rule of its tag is applied, then the
children are checked from left to right; a quantifier's variables come
before its body.

An answer is `ok`, a `TypeError`, or a broken contract (an unknown
term), and the three are kept apart.
-/

/-- What an operator asks of its operands. -/
inductive OperandRule where
  /-- Formulas, this many if a number is given. -/
  | formulas (count : Option Nat)
  /-- A body that is a formula, and variables. -/
  | binding
  /-- Two operands of one type, neither a formula nor a function. -/
  | comparable
  /-- This many operands of one numeric type. -/
  | numeric (count : Nat)
  /-- Two operands, both rational or both real. -/
  | fractions
  /-- A function and arguments of its parameter types. -/
  | arguments
  deriving DecidableEq, Repr

/-- The operand rule of an operator. -/
def Operator.operandRule : Operator → OperandRule
  | .not => .formulas (some 1)
  | .equivalent => .formulas (some 2)
  | .and | .or => .formulas none
  | .universal | .existential => .binding
  | .equals => .comparable
  | .toInteger | .toRational | .toReal | .isInteger | .isRational
  | .rounding _ | .negate => .numeric 1
  | .less | .lessEquals | .add | .subtract | .multiply
  | .quotient _ | .remainder _ => .numeric 2
  | .divide => .fractions
  | .call => .arguments

/-- A check: it may find a type error, and may stop at a broken
contract. -/
abbrev Check := ExceptT TypeError (Except Violation)

/-- A question about the store, as part of a check. -/
def Check.read {α : Type} (x : Except Violation α) : Check α := ExceptT.lift x

/-- A leaf of this kind may not be of this type: a variable stands for
neither a formula nor a function, a global for no function. -/
def Leaf.check : Leaf → Check Unit
  | .var id ty =>
    if ty.kind = .bool ∨ ty.kind = .func then
      throw (.invalid (.leaf (Leaf.var id ty).tag) (.ty ty))
    else pure ()
  | .global id name ty =>
    if ty.kind = .func then throw (.invalid (.leaf (Leaf.global id name ty).tag) (.ty ty))
    else pure ()
  | _ => pure ()

namespace TermStore

def deriveWithin (st : TermStore) : Nat → TermId → Check Ty
  | 0, _ => Check.read (.error .endless)
  | d + 1, t => do
    match ← Check.read (st.node t) with
    | .leaf l => return l.ty
    | .app op first _ =>
      match op.resultRule with
      | .always ty => return ty
      | .firstOperand => st.deriveWithin d first
      | .headResult =>
        match ← Check.read (st.node first) with
        | .leaf (.function _ _ result _) => return result
        | head => throw (.invalid (.operator op) (.callHead head.tag))

/-- The type of a term, as `ty` gives it, except that a call whose head
is not a function is a type error. -/
def derive (st : TermStore) (t : TermId) : Check Ty := st.deriveWithin st.depthLimit t

/-- Asks for `expected` operands where there are `found`. -/
def checkArity (tag : Tag) (found expected : Nat) : Check Unit :=
  if found = expected then pure () else throw (.arity tag found expected)

def checkWithin (st : TermStore) : Nat → TermId → Ty → Check Unit
  | 0, _, _ => Check.read (.error .endless)
  | d + 1, t, expected => do
    let n ← Check.read (st.node t)
    let found ← st.derive t
    if found ≠ expected then throw (.mismatch n.tag found expected)
    match n with
    | .leaf l => l.check
    | .app op first rest =>
      let all (ty : Ty) : Check Unit := (first :: rest).forM (st.checkWithin d · ty)
      match op.operandRule with
      | .formulas none => all .bool
      | .formulas (some count) =>
        checkArity n.tag (rest.length + 1) count
        all .bool
      | .binding =>
        rest.forM fun v => do
          if ← Check.read (st.isVar v) then st.checkWithin d v (← Check.read (st.ty v))
          else throw (.invalid n.tag (.bound (← Check.read (st.tag v))))
        st.checkWithin d first .bool
      | .comparable =>
        checkArity n.tag (rest.length + 1) 2
        let ty ← st.derive first
        if ty.kind = .bool ∨ ty.kind = .func then throw (.invalid n.tag (.ty ty))
        all ty
      | .numeric count =>
        checkArity n.tag (rest.length + 1) count
        let ty ← st.derive first
        if ty.isNumeric then all ty else throw (.notNumeric n.tag ty)
      | .fractions =>
        checkArity n.tag (rest.length + 1) 2
        let ty ← st.derive first
        if ty = .rational ∨ ty = .real then all ty else throw (.invalid n.tag (.ty ty))
      | .arguments =>
        match ← Check.read (st.node first) with
        | .leaf (.function _ _ _ params) =>
          checkArity n.tag rest.length params.length
          (rest.zip params).forM fun (arg, param) => st.checkWithin d arg param
        | head => throw (.invalid n.tag (.callHead head.tag))

/-- Is the term well typed, and of type `expected`? -/
def check (st : TermStore) (t : TermId) (expected : Ty) : Check Unit :=
  st.checkWithin st.depthLimit t expected

end TermStore

/-!
## Asking for a type with a guard

`TermStore.ty` stops at a broken contract where it comes to a call whose
head is not a function. A check may not stop there, so before it asks it
goes the way that `ty` will go, and finds a type error at such a call.

It tells by the tag where the way leads: into the head of a call, or on to
the first operand. The tags with the second property are listed here, apart
from `Operator.resultRule`. Every other term is left to `ty`.
-/

/-- Is the type of a compound asked of its first operand? -/
def Operator.asksFirst : Operator → Bool
  | .rounding _ | .negate | .add | .subtract | .multiply | .divide
  | .quotient _ | .remainder _ => true
  | _ => false

namespace TermStore

def guardedTyWithin (st : TermStore) : Nat → TermId → Check Ty
  | 0, _ => Check.read (.error .endless)
  | d + 1, t => do
    match ← Check.read (st.tag t) with
    | .operator .call =>
      let head ← Check.read (st.child t 0)
      match ← Check.read (st.tag head) with
      | .leaf .function => Check.read (do (← st.ty head).element 0)
      | tag => throw (.invalid (.operator .call) (.callHead tag))
    | .operator op =>
      if op.asksFirst then st.guardedTyWithin d (← Check.read (st.child t 0))
      else Check.read (st.ty t)
    | .leaf _ => Check.read (st.ty t)

/-- The type of a term, asked of `ty` only where `ty` has an answer: a call
whose head is not a function is a type error. -/
def guardedTy (st : TermStore) (t : TermId) : Check Ty := st.guardedTyWithin st.depthLimit t

end TermStore

end TypedTerms
