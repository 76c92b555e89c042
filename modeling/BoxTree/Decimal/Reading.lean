import BoxTree.Decimal.Shortest
/-!
# Reading decimals

Decimal text as a sign, digits and a power of ten, and its nearest floating-point number.
Texts whose exponent is far outside the range of the formats are decided without computing
the power.
-/

namespace BoxTree

/-- A signed decimal, and whether it was written with digits alone. -/
structure DecimalText where
  negative : Bool
  value : Decimal
  whole : Bool
  deriving DecidableEq

namespace DecimalText

/-- The value of a list of decimal digits, read after the value `acc`. -/
def digitsValue (acc : Nat) (cs : List Char) : Nat :=
  cs.foldl (fun n c => 10 * n + (c.toNat - '0'.toNat)) acc

/-- The longest initial run of ASCII digits, and the rest. -/
def spanDigits (cs : List Char) : List Char × List Char :=
  (cs.takeWhile Char.isDigit, cs.dropWhile Char.isDigit)

/-- Nothing is lost between the digits and the rest. -/
theorem spanDigits_append (cs : List Char) : (spanDigits cs).1 ++ (spanDigits cs).2 = cs :=
  List.takeWhile_append_dropWhile

theorem isDigit_of_mem_spanDigits {cs : List Char} {c : Char} (h : c ∈ (spanDigits cs).1) :
    c.isDigit :=
  List.all_eq_true.mp List.all_takeWhile c h

/-- The sign in front of a text, if there is one, and the rest. -/
def spanSign : List Char → Option Char × List Char
  | '-' :: cs => (some '-', cs)
  | '+' :: cs => (some '+', cs)
  | cs => (none, cs)

/-- A fraction: what follows a point. -/
def spanFraction : List Char → Option (List Char) × List Char
  | '.' :: cs => let s := spanDigits cs; (some s.1, s.2)
  | cs => (none, cs)

/-- An exponent: a mark, an optional sign and at least one digit. Nothing is read from a text
that does not start with the mark; a mark without digits is no exponent at all. -/
def spanExponent? : List Char → Option (Option Int × List Char)
  | c :: cs =>
    if c = 'e' || c = 'E' then
      let s := spanSign cs
      let d := spanDigits s.2
      if d.1.isEmpty then none
      else
        let n : Int := digitsValue 0 d.1
        some (some (if s.1 = some '-' then -n else n), d.2)
    else some (none, c :: cs)
  | [] => some (none, [])

/-- Reads a decimal with an optional sign: digits, a fraction and an exponent, with at least
one digit before or after the point. The whole text has to be used up. -/
def read? (cs : List Char) : Option DecimalText := do
  let sign := spanSign cs
  let whole := spanDigits sign.2
  let fraction := spanFraction whole.2
  let places := fraction.1.getD []
  if whole.1.isEmpty && places.isEmpty then failure
  let (exponent, rest) ← spanExponent? fraction.2
  if rest.isEmpty then
    some ⟨sign.1 = some '-',
      ⟨digitsValue 0 (whole.1 ++ places), exponent.getD 0 - places.length⟩,
      fraction.1.isNone && exponent.isNone⟩
  else failure

/-- Rounds a decimal with the given reader of `m * 10 ^ e`. From a leading digit of `10 ^ 400`
on every number is beyond the formats, and below `10 ^ -400` it is closer to zero than to
their least number. -/
def nearest {α : Type} (zero infinity : α) (ofScientific : Nat → Bool → Nat → α)
    (d : Decimal) : α :=
  if d.digits = 0 then zero
  else
    let leading := (Nat.toDigits 10 d.digits).length + d.exponent - 1
    if 400 ≤ leading then infinity
    else if leading ≤ -400 then zero
    else ofScientific d.digits (d.exponent < 0) d.exponent.natAbs

/-- The nearest binary64 number. -/
def toDouble (t : DecimalText) : Float :=
  let a := nearest (Float.ofBits 0) (Float.ofBits 0x7FF0000000000000) Float.ofScientific t.value
  if t.negative then -a else a

/-- The nearest scalar. -/
def toScalar (t : DecimalText) : Scalar :=
  let a := nearest (Float32.ofBits 0) Scalar.infinity Float32.ofScientific t.value
  if t.negative then -a else a

end DecimalText

end BoxTree
