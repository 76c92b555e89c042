import BoxTree.Decimal.Shortest
/-!
# Number text

How numbers are written. A `Layout` collects the decisions of one output format: where
positional text ends, whether a fraction of zero is shown, and where a tie between two
shortest decimals goes. Numbers with a fixed count of places are rounded from the exact
value.
-/

namespace BoxTree

/-- The decisions of one number format. -/
structure Layout where
  /-- Where a value midway between two shortest decimals goes. -/
  tie : Tie
  /-- Whether a number whose leading digit stands for `10 ^ e` is written positionally. -/
  positional : (e : Int) → Bool
  /-- Whether a whole number is written with a fraction of zero. -/
  wholeFraction : Bool

namespace Layout

/-- Numbers in messages and box texts: positional whatever their size, whole numbers without
a fraction. -/
def plain : Layout where
  tie := .up
  positional _ := true
  wholeFraction := false

/-- Numbers in JSON text: positional from `10 ^ -6` up to but not including `10 ^ 13`, with a
fraction always; otherwise one digit before the point and a signed exponent. -/
def json : Layout where
  tie := .toEven
  positional e := -6 ≤ e && e ≤ 12
  wholeFraction := true

/-- The decimal digits of a natural number. -/
def digitsOf (n : Nat) : List Char := Nat.toDigits 10 n

/-- A run of zeros. -/
def zeros (n : Nat) : List Char := List.replicate n '0'

/-- The text of an exponent: its sign and its digits. -/
def signed (e : Int) : List Char := (if e < 0 then '-' else '+') :: digitsOf e.natAbs

/-- The text of a decimal magnitude. -/
def magnitude (l : Layout) (d : Decimal) : List Char :=
  let ds := digitsOf d.digits
  let leading := (ds.length : Int) + d.exponent - 1
  if l.positional leading then
    if 0 ≤ d.exponent then
      ds ++ zeros d.exponent.toNat ++ if l.wholeFraction then ['.', '0'] else []
    else if 0 ≤ leading then
      ds.take (leading.toNat + 1) ++ '.' :: ds.drop (leading.toNat + 1)
    else '0' :: '.' :: zeros (-leading - 1).toNat ++ ds
  else
    match ds with
    | [c] => c :: 'e' :: signed leading
    | c :: rest => c :: '.' :: rest ++ 'e' :: signed leading
    | [] => []

/-- The text of a finite magnitude: its shortest decimal, zero apart. -/
def finite (l : Layout) (x : Binary) : List Char :=
  if x.mantissa = 0 then if l.wholeFraction then ['0', '.', '0'] else ['0']
  else l.magnitude (Decimal.shortest l.tie x)

/-- A text with a sign in front if there is one to write. -/
def withSign (negative : Bool) (text : List Char) : String :=
  String.ofList (if negative then '-' :: text else text)

/-- The text of a number of given sign and magnitude. -/
def render (l : Layout) (negative : Bool) : Magnitude → String
  | .nan => "NaN"
  | .infinite => withSign negative ['i', 'n', 'f']
  | .finite x => withSign negative (l.finite x)

/-- The text of a scalar. -/
def scalar (l : Layout) (a : Scalar) : String := l.render a.isNegative (.ofSingle a)

/-- The text of a binary64 number. -/
def double (l : Layout) (a : Float) : String := l.render (Double.isNegative a) (.ofDouble a)

end Layout

/-- The text of a magnitude rounded to a fixed count of places, a tie to the even neighbour. -/
def fixedPlaces (places : Nat) (x : Binary) : List Char :=
  let q := Decimal.overTenPow x (-places)
  let ds := Layout.digitsOf (roundDiv .toEven q.1 q.2)
  let padded := Layout.zeros (places + 1 - ds.length) ++ ds
  let whole := padded.length - places
  padded.take whole ++ '.' :: padded.drop whole

/-- The text of a number of given sign and magnitude with a fixed count of places. -/
def renderFixed (places : Nat) (negative : Bool) : Magnitude → String
  | .nan => "NaN"
  | .infinite => Layout.withSign negative ['i', 'n', 'f']
  | .finite x => Layout.withSign negative (fixedPlaces places x)

end BoxTree
