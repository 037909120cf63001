import TypedTerms.Store.Read

/-!
# The text of a term

A compound term is written as its operator with the children in
brackets, a call as the function with the arguments in parentheses.
Variables are written by number, `_3`, globals and functions by name,
distinct objects by name in double quotes, numbers by their value.

A term that the store does not know, and a name that the table does not
know, have no text. The first such part from left to right is reported.
-/

namespace TypedTerms

/-- Why a term has no text. -/
inductive TextError where
  | unknownTerm (t : TermId)
  | unknownSymbol (s : Symbol)
  | endless
  deriving DecidableEq

def TextError.message : TextError → String
  | .unknownTerm t => "Unknown term id " ++ toString t.raw
  | .unknownSymbol s => "Unknown symbol " ++ s.text
  | .endless => Violation.endless.message

/-- The name of a symbol, which the table must know. -/
def SymbolTable.name (symbols : SymbolTable) (s : Symbol) : Except TextError String :=
  match symbols.name? s with
  | some name => .ok name
  | none => .error (.unknownSymbol s)

def Leaf.text (symbols : SymbolTable) : Leaf → Except TextError String
  | .boolean b => .ok (if b then "true" else "false")
  | .integer n => .ok (toString n)
  | .fraction _ q => .ok q.text
  | .object name => do return "\"" ++ (← symbols.name name) ++ "\""
  | .var id _ => .ok ("_" ++ toString id)
  | .global _ name _ => symbols.name name
  | .function _ name _ _ => symbols.name name

namespace TermStore

def textWithin (st : TermStore) (symbols : SymbolTable) : Nat → TermId → Except TextError String
  | 0, _ => .error .endless
  | d + 1, t =>
    match st.node? t with
    | none => .error (.unknownTerm t)
    | some (.leaf l) => l.text symbols
    | some (.app .call f args) => do
      let f ← st.textWithin symbols d f
      let args ← args.mapM (st.textWithin symbols d)
      return f ++ "(" ++ ", ".intercalate args ++ ")"
    | some (.app op first rest) => do
      let children ← (first :: rest).mapM (st.textWithin symbols d)
      return op.name ++ "[" ++ ", ".intercalate children ++ "]"

def text (st : TermStore) (symbols : SymbolTable) (t : TermId) : Except TextError String :=
  st.textWithin symbols st.depthLimit t

end TermStore

end TypedTerms
