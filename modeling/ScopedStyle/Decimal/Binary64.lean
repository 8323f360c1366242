import ScopedStyle.Decimal.Shortest

/-!
# Numbers of the binary64 format

A number is its 64 bits: a sign, eleven bits of exponent, and the fraction.
-/

namespace ScopedStyle.Decimal
open Text

structure Binary64 where
  bits : UInt64
  deriving DecidableEq

namespace Binary64

def unit : Nat := Nat.pow 2 52

def fraction (x : Binary64) : Nat := x.bits.toNat % unit

def biased (x : Binary64) : Nat := x.bits.toNat / unit % 2048

def isNegative (x : Binary64) : Bool := 2048 ≤ x.bits.toNat / unit

def isNaN (x : Binary64) : Bool := x.biased == 2047 && x.fraction != 0

def isInfinite (x : Binary64) : Bool := x.biased == 2047 && x.fraction == 0

def isZero (x : Binary64) : Bool := x.biased == 0 && x.fraction == 0

def magnitude (x : Binary64) : Dyadic :=
  if x.biased = 0 then ⟨x.fraction, -1074, false⟩
  else ⟨unit + x.fraction, x.biased - 1075, x.fraction == 0 && x.biased != 1⟩

def magnitudeText (x : Binary64) : Text :=
  if x.isInfinite then ['i', 'n', 'f']
  else if x.isZero then ['0']
  else (shortest x.magnitude).positional

/-- The shortest decimal without an exponent. A sign of zero is kept, one of a NaN is not. -/
def text (x : Binary64) : Text :=
  if x.isNaN then ['N', 'a', 'N']
  else if x.isNegative then '-' :: x.magnitudeText
  else x.magnitudeText

end Binary64
end ScopedStyle.Decimal
