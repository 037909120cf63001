import TypedTerms.Fraction.Decimal

/-!
# The text of a fraction

A fraction is written as numerator, slash and denominator, the
denominator always. It is read from that form or from a plain integer;
what is read need not be in lowest terms. The first slash divides the
two parts, so a second one makes the denominator malformed.
-/

namespace TypedTerms.Fraction

/-- The numerator, a slash, the denominator. -/
def text (q : Fraction) : String := toString q.num ++ "/" ++ toString q.den

/-- The same, with the two integers written by the writer. -/
def textBy (write : Int → String) (q : Fraction) : String := write q.num ++ "/" ++ write q.den

/-- Reads `n` or `n/d`. A part that is not an integer makes the whole
text malformed; only then is a zero denominator noticed. -/
def ofText? (s : String) : Except FractionError Fraction :=
  match s.toList.span (· != '/') with
  | (n, []) =>
    match Text.readInt? n with
    | some n => .ok (ofInt n)
    | none => .error (.malformed s)
  | (n, _ :: d) =>
    match Text.readInt? n, Text.readInt? d with
    | some n, some d => ofRatio? n d
    | _, _ => .error (.malformed s)

end TypedTerms.Fraction

/-!
## Fractions read behind a filter

`Fraction.ofText?` knows itself how an integer is spelled.
`Fraction.ofTextBy?` is given a reader of integers, and that reader may
know more spellings, such as separators between the digits. So the text is
looked at before it is handed over: behind a sign, if one stands in front,
there must be bytes that are digits, one at least, and nothing else.
-/

namespace TypedTerms

namespace Text

/-- What stands before and after the first such character, if there is
one. -/
def splitOnce? (c : Char) (cs : List Char) : Option (List Char × List Char) :=
  match cs.span (· != c) with
  | (_, []) => none
  | (before, _ :: after) => some (before, after)

/-- Is the text digits behind a sign, if one stands in front? -/
def isPlain (cs : List Char) : Bool :=
  let digits := (takeSign cs).2
  !digits.isEmpty && (digits.flatMap String.utf8EncodeChar).all ByteScan.isDigit

/-- What the reader makes of a text that passes the filter. -/
def readBy? (read : List Char → Option Int) (cs : List Char) : Option Int :=
  if isPlain cs then read cs else none

end Text

namespace Fraction

/-- Reads `n` or `n/d`, and has the integers read by the reader. The first
part that is not an integer makes the whole text malformed. -/
def ofTextBy? (read : List Char → Option Int) (s : String) : Except FractionError Fraction :=
  let part (cs : List Char) : Except FractionError Int :=
    match Text.readBy? read cs with
    | some n => .ok n
    | none => .error (.malformed s)
  match Text.splitOnce? '/' s.toList with
  | none => ofInt <$> part s.toList
  | some (n, d) => do
    let n ← part n
    let d ← part d
    ofRatio? n d

end Fraction

end TypedTerms
