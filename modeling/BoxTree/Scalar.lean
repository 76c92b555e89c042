/-!
# Scalars

Coordinates, areas and costs are binary32 numbers. This file holds the operations the
library builds on that are not plain arithmetic: the one-sided least and greatest of two
scalars, the rank that orders every scalar totally, and the passage between counts and
scalars.

Arithmetic and comparisons do not read the sign and the payload of a value that is not a number,
and a scalar does not keep them. The total order does read them: where it meets such a value its
encoding, a `Scalar.NaN`, is given beside it.
-/

namespace BoxTree

/-- A binary32 number; there is one value that is not a number. -/
abbrev Scalar := Float32

namespace Scalar

/-- Positive infinity. -/
def infinity : Scalar := Float32.ofBits 0x7F800000

/-- Negative infinity. -/
def negInfinity : Scalar := Float32.ofBits 0xFF800000

/-- The value that is not a number. -/
def nan : Scalar := Float32.ofBits 0x7FC00000

/-- The lesser of two scalars, decided for the first only when it is strictly below:
equal and incomparable pairs give the second. -/
def lesser (a b : Scalar) : Scalar := if a < b then a else b

/-- The greater of two scalars, decided for the first only when it is strictly above:
equal and incomparable pairs give the second. -/
def greater (a b : Scalar) : Scalar := if b < a then a else b

/-- A scalar cut off at zero from below; what is not a number becomes zero. -/
def cutAtZero (a : Scalar) : Scalar := if 0 < a then a else 0

/-- An encoding of the value that is not a number: all bits of the exponent are set, and some of
the payload. -/
structure NaN where
  bits : UInt32
  undefined : 0x7F800000 < bits &&& 0x7FFFFFFF
  deriving DecidableEq

namespace NaN

/-- The encoding with a clear sign that most sources of such values hand out. -/
def positive : NaN := ⟨0x7FC00000, by decide⟩

/-- The same with the sign set, which arithmetic without a result may leave. -/
def negative : NaN := ⟨0xFFC00000, by decide⟩

end NaN

/-- The place of an encoding in the total order: negative values by falling magnitude, `-0`
before `0`, positive values by rising magnitude. Encodings of the value that is not a number come
before all others or behind them, as their sign says. -/
def rankOf (bits : UInt32) : Nat :=
  let b := bits.toNat
  if b < 0x80000000 then 0x80000000 + b else 0xFFFFFFFF - b

/-- The place of a scalar in the total order, `nan` being how it is encoded if it is not a
number. -/
def rank (a : Scalar) (nan : NaN := .positive) : Nat :=
  rankOf (if a.isNaN then nan.bits else a.toBits)

/-- The scalar nearest to a count, ties to even. -/
def ofCount (n : Nat) : Scalar := n.toUInt64.toFloat32

/-- A scalar cut toward zero to a count. Negative values and the value that is not a number
give zero, and what exceeds 64 bits the greatest 64-bit count. -/
def toCount (a : Scalar) : Nat := a.toUInt64.toNat

end Scalar

end BoxTree
