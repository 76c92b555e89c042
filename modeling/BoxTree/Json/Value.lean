import BoxTree.Decimal.Layout
import BoxTree.Decimal.Reading
import BoxTree.Fault
/-!
# JSON values

JSON values and their text. A number keeps the text it was written with, since a whole number
and a number with a fraction are told apart when they are read as counts or scalars.
-/

namespace BoxTree

/-- A JSON value. -/
inductive Json where
  | null
  | bool (b : Bool)
  | num (text : String)
  | str (s : String)
  | arr (items : List Json)
  | obj (fields : List (String × Json))

namespace Json

/-- A count as a number. -/
def ofNat (n : Nat) : Json := .num (toString n)

/-- A whole number. -/
def ofInt (n : Int) : Json := .num (toString n)

/-- A scalar as a number; what is not finite is null. -/
def ofScalar (a : Scalar) : Json := if a.isFinite then .num (Layout.json.scalar a) else .null

/-- A binary64 number as a number; what is not finite is null. -/
def ofDouble (a : Float) : Json := if a.isFinite then .num (Layout.json.double a) else .null

/-- The value of a field, the last one where the name occurs several times. -/
def field? (name : String) : Json → Option Json
  | .obj fields => (fields.reverse.find? fun f => f.1 = name).map Prod.snd
  | _ => none

/-- A decimal number, if the value is a number. -/
def decimal? : Json → Option DecimalText
  | .num text => DecimalText.read? text.toList
  | _ => none

/-- A count up to a limit. A number with a fraction or an exponent is no count, and neither is
a number with a sign. -/
def count? (limit : Nat) (j : Json) : Option Nat := do
  let d ← j.decimal?
  if d.whole && !d.negative && d.value.digits ≤ limit then some d.value.digits else none

/-- A scalar. Whole numbers of at most 64 bits are rounded once; all other numbers are read as
binary64 numbers first. -/
def scalar? (j : Json) : Option Scalar := do
  let d ← j.decimal?
  let n := d.value.digits
  if d.whole && !d.negative && n ≤ limit64 then some (Float32.ofNat n)
  else if d.whole && d.negative && 0 < n && n ≤ 0x8000000000000000 then some (-(Float32.ofNat n))
  else some (Scalar.ofDouble d.toDouble)

/-- A text. -/
def string? : Json → Option String
  | .str s => some s
  | _ => none

/-- The items of an array. -/
def items? : Json → Option (List Json)
  | .arr items => some items
  | _ => none

end Json

end BoxTree
