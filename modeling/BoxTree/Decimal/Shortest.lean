import BoxTree.Decimal.Binary
/-!
# Shortest decimals

The decimal that identifies a floating-point number with the fewest digits: of the decimals
that round back to the number, those on the coarsest grid of powers of ten, and of these the
one nearest to the number. Everything is decided in exact integer arithmetic.
-/

namespace BoxTree

/-- A decimal magnitude, `digits * 10 ^ exponent`. -/
structure Decimal where
  digits : Nat
  exponent : Int
  deriving DecidableEq, Repr

/-- What becomes of a value midway between two candidates. -/
inductive Tie where
  | toEven
  | up
  deriving DecidableEq, Repr

/-- An integer quotient rounded to nearest. -/
def roundDiv (tie : Tie) (num den : Nat) : Nat :=
  let q := num / den
  let r := num % den
  if 2 * r < den then q
  else if den < 2 * r then q + 1
  else match tie with
    | .up => q + 1
    | .toEven => if q % 2 = 0 then q else q + 1

namespace Decimal

/-- Compares `a * 10 ^ i` with `b * 2 ^ j` exactly. -/
def compareScaled (a : Nat) (i : Int) (b : Nat) (j : Int) : Ordering :=
  compare (a * Nat.pow 10 i.toNat * Nat.pow 2 (-j).toNat)
    (b * Nat.pow 2 j.toNat * Nat.pow 10 (-i).toNat)

/-- Whether a decimal lies among the reals that round to a binary magnitude, to nearest with
ties to even. -/
def readsBack (x : Binary) (d : Decimal) : Bool :=
  let low := if x.narrowBelow then 4 * x.mantissa - 1 else 4 * x.mantissa - 2
  let closed := x.mantissa % 2 = 0
  let atLow := compareScaled d.digits d.exponent low (x.exponent - 2)
  let atHigh := compareScaled d.digits d.exponent (4 * x.mantissa + 2) (x.exponent - 2)
  (atLow == .gt || closed && atLow == .eq) && (atHigh == .lt || closed && atHigh == .eq)

/-- Lowers `k` while the magnitude stays below `10 ^ (k - 1)`, at most `fuel` times. -/
def lowerScale (x : Binary) : (fuel : Nat) → Int → Int
  | 0, k => k
  | fuel + 1, k =>
    if compareScaled 1 (k - 1) x.mantissa x.exponent == .gt then lowerScale x fuel (k - 1) else k

/-- The least `k` with the magnitude below `10 ^ k`: the count of digits before the point. The
binary logarithm gives an upper bound that is at most three too high. -/
def scale (x : Binary) : Int :=
  let bits := (x.mantissa.log2 : Int) + 1 + x.exponent
  lowerScale x 4 (bits * 30103 / 100000 + 2)

/-- A binary magnitude over a power of ten, as a quotient of naturals. -/
def overTenPow (x : Binary) (g : Int) : Nat × Nat :=
  (x.mantissa * Nat.pow 2 x.exponent.toNat * Nat.pow 10 (-g).toNat,
    Nat.pow 2 (-x.exponent).toNat * Nat.pow 10 g.toNat)

/-- The decimal on the grid `10 ^ g` nearest to the magnitude among its two neighbours there
that read back, if one of them does. -/
def onGrid (tie : Tie) (x : Binary) (g : Int) : Option Decimal :=
  let q := overTenPow x g
  let below : Decimal := ⟨q.1 / q.2, g⟩
  let above : Decimal := ⟨q.1 / q.2 + 1, g⟩
  match readsBack x below, readsBack x above with
  | true, true => some ⟨roundDiv tie q.1 q.2, g⟩
  | true, false => some below
  | false, true => some above
  | false, false => none

/-- Moves trailing zeros of the digits into the exponent, at most `fuel` of them. -/
def strip : (fuel : Nat) → Decimal → Decimal
  | 0, d => d
  | fuel + 1, d =>
    if d.digits % 10 = 0 then strip fuel ⟨d.digits / 10, d.exponent + 1⟩ else d

/-- The exact decimal of a binary magnitude. -/
def exact (x : Binary) : Decimal :=
  match x.exponent with
  | .ofNat k => ⟨x.mantissa * Nat.pow 2 k, 0⟩
  | .negSucc k => ⟨x.mantissa * Nat.pow 5 (k + 1), -((k : Int) + 1)⟩

/-- The shortest decimal of a magnitude other than zero. Seventeen digits always suffice, so
the exact decimal stands only for what cannot happen. -/
def shortest (tie : Tie) (x : Binary) : Decimal :=
  let k := scale x
  let found := (List.range 17).findSome? fun (n : Nat) => onGrid tie x (k - 1 - (n : Int))
  let d := found.getD (exact x)
  if d.digits = 0 then ⟨0, 0⟩ else strip 800 d

end Decimal

end BoxTree
