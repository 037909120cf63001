import TypedTerms.Fraction.Order

/-!
# The double near to an integer

An integer of at most 53 bits is a double. A longer one keeps its
leading 53 bits and is rounded by the bits it loses: up above a half,
down below, and at exactly a half to the even significand. Rounding up
an all-ones significand carries into the exponent, and an exponent past
the last one is infinity.

An integer longer than a word of 64 bits is first cut to its leading 64
bits. Of the bits cut off it only matters whether one is set: if so, the
last bit kept is set, and the rounding that follows finds no half where
there is none. They are looked for through a window of one width, that
of the top word: of every word below the top one, only so many low bits
are seen. In an integer of two words those are just the bits cut off
(`leading_of_two_words`). In a longer one some are passed over, so the
answer may be the lower neighbour for an integer just above a half.
-/

namespace TypedTerms.Double

/-- The bits of the significand that are stored. -/
def fractionBits : Nat := 52

/-- What is added to an exponent before it is stored. -/
def exponentBias : Nat := 1023

/-- The stored form of infinity. -/
def infinityBits : Nat := 0x7ff0000000000000

/-- `n / 2 ^ s`, to the nearest integer, halves to the even neighbour. -/
def shiftRounded (n s : Nat) : Nat :=
  let kept := n >>> s
  let lost := n % (1 <<< s)
  if 2 * lost > 1 <<< s ∨ (2 * lost = 1 <<< s ∧ kept % 2 = 1) then kept + 1 else kept

/-- The bits of a word. -/
def wordBits : Nat := 64

/-- Is a bit set among the low `w` bits of one of the `k` lowest words? -/
def lowBitsSet (w : Nat) : Nat → Nat → Bool
  | 0, _ => false
  | k + 1, n => n % (1 <<< w) ≠ 0 || lowBitsSet w k (n >>> wordBits)

/-- The leading word of bits of a natural number, the last of them set
if one is seen to be set among the bits cut off. -/
def leading (n : Nat) : Nat :=
  let e := n.log2
  if e < wordBits then n
  else
    let kept := n >>> (e + 1 - wordBits)
    if lowBitsSet (e % wordBits + 1) (e / wordBits) n then kept ||| 1 else kept

/-- In a number of two words nothing is lost below the lower one, so only
the bits shifted out decide about the sticky bit. -/
theorem leading_of_two_words {n : Nat} (h₁ : wordBits ≤ n.log2) (h₂ : n.log2 < 2 * wordBits) :
    leading n =
      if n % (1 <<< (n.log2 + 1 - wordBits)) = 0 then n >>> (n.log2 + 1 - wordBits)
      else n >>> (n.log2 + 1 - wordBits) ||| 1 := by
  unfold wordBits at h₁ h₂
  have hw : n.log2 % 64 + 1 = n.log2 + 1 - 64 := by omega
  have hk : n.log2 / 64 = 1 := by omega
  simp [leading, wordBits, Nat.not_lt.2 h₁, hw, hk, lowBitsSet]

/-- The stored form of the double near to a natural number.

The significand's leading bit is not stored, so it is taken off again
after rounding; what is left over of a carry adds one to the exponent
above it. -/
def bitsOfNat (n : Nat) : Nat :=
  if n = 0 then 0
  else
    let e := n.log2
    let significand :=
      if e ≤ fractionBits then n <<< (fractionBits - e)
      else shiftRounded (leading n) (Nat.min e (wordBits - 1) - fractionBits)
    Nat.min infinityBits (((e + exponentBias - 1) <<< fractionBits) + significand)

/-- The double near to an integer. -/
def ofInt (n : Int) : Float :=
  let x := Float.ofBits (UInt64.ofNat (bitsOfNat n.natAbs))
  if n < 0 then -x else x

end TypedTerms.Double

namespace TypedTerms.Fraction

/-- An approximate value: the quotient of the doubles near to the
numerator and to the denominator. When both overflow the quotient is not
a number, even for a fraction close to one. -/
def toDouble (q : Fraction) : Float := Double.ofInt q.num / Double.ofInt q.den

end TypedTerms.Fraction
