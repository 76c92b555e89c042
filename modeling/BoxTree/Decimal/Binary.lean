import BoxTree.Scalar
/-!
# Exact values of floating-point numbers

A finite floating-point number is an integer times a power of two. This file reads that pair
off the bits of binary32 and binary64 numbers, and names the ways a number can fail to be
finite.
-/

namespace BoxTree

/-- A magnitude `mantissa * 2 ^ exponent`, with what its rounding interval depends on. -/
structure Binary where
  mantissa : Nat
  exponent : Int
  /-- The gap to the number below is half the gap to the number above. -/
  narrowBelow : Bool
  deriving DecidableEq

/-- What a floating-point number stands for, its sign apart. -/
inductive Magnitude where
  | nan
  | infinite
  | finite (value : Binary)
  deriving DecidableEq

namespace Magnitude

/-- The magnitude of a number with `width` fraction bits and the given exponent and fraction
fields; `top` is the exponent field of what is not finite, `least` the exponent of the least
subnormal number. -/
def ofFields (width top : Nat) (least : Int) (e f : Nat) : Magnitude :=
  if e = top then if f = 0 then infinite else nan
  else if e = 0 then finite ⟨f, least, false⟩
  else finite ⟨Nat.pow 2 width + f, least + (e - 1 : Nat), f == 0 && 1 < e⟩

/-- The magnitude of a binary32 number. -/
def ofSingle (a : Float32) : Magnitude :=
  let b := a.toBits.toNat
  ofFields 23 255 (-149) (b / 0x800000 % 256) (b % 0x800000)

/-- The magnitude of a binary64 number. -/
def ofDouble (a : Float) : Magnitude :=
  let b := a.toBits.toNat
  ofFields 52 2047 (-1074) (b / 0x10000000000000 % 2048) (b % 0x10000000000000)

end Magnitude

/-- Whether the sign bit of a binary32 number is set. -/
def Scalar.isNegative (a : Scalar) : Bool := 0x80000000 ≤ a.toBits.toNat

/-- Whether the sign bit of a binary64 number is set. -/
def Double.isNegative (a : Float) : Bool := 0x8000000000000000 ≤ a.toBits.toNat

/-- The binary32 number nearest to a binary64 number, ties to even. -/
def Scalar.ofDouble (a : Float) : Scalar :=
  let magnitude : Scalar :=
    match Magnitude.ofDouble a with
    | .nan => .nan
    | .infinite => .infinity
    | .finite v =>
      match v.exponent with
      | .ofNat k => Float32.ofScientific (v.mantissa * Nat.pow 2 k) false 0
      | .negSucc k => Float32.ofScientific (v.mantissa * Nat.pow 5 (k + 1)) true (k + 1)
  if Double.isNegative a then -magnitude else magnitude

/-- The binary64 number of the same value as a binary32 number. -/
def Scalar.toDouble (a : Scalar) : Float :=
  let magnitude : Float :=
    match Magnitude.ofSingle a with
    | .nan => Float.ofBits 0x7FF8000000000000
    | .infinite => Float.ofBits 0x7FF0000000000000
    | .finite v =>
      match v.exponent with
      | .ofNat k => Float.ofScientific (v.mantissa * Nat.pow 2 k) false 0
      | .negSucc k => Float.ofScientific (v.mantissa * Nat.pow 5 (k + 1)) true (k + 1)
  if a.isNegative then -magnitude else magnitude

end BoxTree
