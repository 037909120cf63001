import TypedTerms.Division
import TypedTerms.Fraction.Order
import TypedTerms.Fraction.Rounding
import TypedTerms.Fraction.Text
import TypedTerms.Fraction.Decimal
import TypedTerms.Fraction.Pair
import TypedTerms.Fraction.Error
import TypedTerms.Double.Nearest
import TypedTerms.Double.Shortest
import TypedTerms.Text.CodePoint
import TypedTerms.Ty.Text
import TypedTerms.Ty.Order
import TypedTerms.Interner
import TypedTerms.Tag
import TypedTerms.Violation
import TypedTerms.Store.Read
import TypedTerms.Store.Build
import TypedTerms.Term.Node
import TypedTerms.Term.Walk
import TypedTerms.Term.Map
import TypedTerms.Term.FreeVars
import TypedTerms.Term.Text
import TypedTerms.Term.Tree
import TypedTerms.Typing.Check
import TypedTerms.Folding
import TypedTerms.Subst.Resolve
import TypedTerms.Solve.Match
import TypedTerms.Solve.Unify
import TypedTerms.Proofs.Reach
import TypedTerms.Proofs.Tree.Fold
import TypedTerms.Proofs.Tree.Typing
import TypedTerms.Proofs.Reading
import TypedTerms.Proofs.Bindings
import TypedTerms.Proofs.Occurs
import TypedTerms.Proofs.Listed
import TypedTerms.Proofs.Replace
import TypedTerms.Proofs.Renaming
import TypedTerms.Proofs.Becomes
import TypedTerms.Proofs.Decompose
import TypedTerms.Proofs.Unify.Correct
import TypedTerms.Proofs.Contains
import TypedTerms.Proofs.Unify.Reachable
import TypedTerms.Proofs.Unify.Refines
import TypedTerms.Proofs.Unify.InTurn
import TypedTerms.Proofs.Match.Sound
import TypedTerms.Proofs.Match.Complete
import TypedTerms.Proofs.Match.Ground
import TypedTerms.Proofs.Match.Unifies
import TypedTerms.Proofs.Match.Order
import TypedTerms.Proofs.Solve.Recursive
import TypedTerms.Proofs.Solve.Renamed
import TypedTerms.Proofs.Text.Digits
import TypedTerms.Proofs.Text.Utf8
import TypedTerms.Proofs.Fraction.Arithmetic
import TypedTerms.Proofs.Fraction.Scan
import TypedTerms.Proofs.Fraction.Text
import TypedTerms.Proofs.Fraction.Calculation
import TypedTerms.Proofs.Store.Run
import TypedTerms.Proofs.Store.Canonical
import TypedTerms.Proofs.Tree.WellTyped
import TypedTerms.Proofs.Typing.Derived
import TypedTerms.Proofs.Typing.Check
import TypedTerms.Proofs.Folding.Follows
import TypedTerms.Proofs.Folding.Typed
import TypedTerms.Proofs.Typing.Passes
import TypedTerms.Proofs.Unify.Checked
import TypedTerms.Proofs.Typing.Instance
import TypedTerms.Proofs.Folding.Instance
import TypedTerms.Proofs.Growth.Walks
import TypedTerms.Proofs.Growth.Solve
import TypedTerms.Proofs.Growth.Ensures
import TypedTerms.Proofs.Growth.Later
import TypedTerms.Proofs.Growth.Conserves
import TypedTerms.Proofs.Meaning.Interpretation
import TypedTerms.Proofs.Meaning.Typed
import TypedTerms.Proofs.Meaning.Folding
import TypedTerms.Proofs.Meaning.Simplify
import TypedTerms.Proofs.Folding.Reduced
import TypedTerms.Proofs.Fraction.Rounded
import TypedTerms.Proofs.Division
import TypedTerms.Proofs.Fraction.Quotient
import TypedTerms.Proofs.Folding.Outcome
import TypedTerms.Proofs.Ty.Order
import TypedTerms.Proofs.Ty.Text
import TypedTerms.Proofs.Fraction.RoundTrip
import TypedTerms.Proofs.Term.Position
import TypedTerms.Proofs.Term.Occurrence
import TypedTerms.Proofs.Term.FreeVars
import TypedTerms.Proofs.Term.Turns
import TypedTerms.Proofs.Term.LeafMap
import TypedTerms.Proofs.Typing.Spliced
import TypedTerms.Proofs.Typing.Blame
import TypedTerms.Proofs.Term.Operands
