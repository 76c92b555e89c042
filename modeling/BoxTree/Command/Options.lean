import BoxTree.Command.Arguments
import BoxTree.Decimal.Reading
import BoxTree.Scene
import BoxTree.Settings
/-!
# Options of a run

What a run is asked to do: the scene to build over, the settings of the build and the form of
the report. Options that were not given keep their defaults; the first value that cannot be
read, in the order in which they are needed, refuses the run.
-/

namespace BoxTree

namespace Command

/-- The options of a run. -/
structure Options where
  count : Nat
  threads : Nat
  seed : Nat
  distribution : Distribution
  settings : Settings
  json : Bool

/-- A value that cannot be read. -/
structure Unreadable where
  parameter : Parameter
  text : String
  deriving DecidableEq, Repr

/-- The text of a value that cannot be read. -/
def Unreadable.message (u : Unreadable) : String :=
  s!"invalid value '{u.text}' for --{u.parameter.name}"

/-- Reads a count of 64 bits: digits, with a plus in front if need be. -/
def readCount? (text : String) : Option Nat :=
  let digits :=
    match text.toList with
    | '+' :: cs => cs
    | cs => cs
  if digits.isEmpty || !digits.all Char.isDigit then none
  else
    let n := DecimalText.digitsValue 0 digits
    if n ≤ limit64 then some n else none

/-- Reads a scalar: a decimal, or in letters of either case a name for what is not finite. -/
def readScalar? (text : String) : Option Scalar :=
  let sign := DecimalText.spanSign text.toList
  let word := String.ofList (sign.2.map Char.toLower)
  let named : Option Scalar :=
    if word = "inf" || word = "infinity" then some .infinity
    else if word = "nan" then some .nan
    else none
  match named with
  | some a => some (if sign.1 = some '-' then -a else a)
  | none => (DecimalText.read? text.toList).map DecimalText.toScalar

/-- The value of an option, or its default. -/
def Given.read {α : Type} (g : Given) (p : Parameter) (read : String → Option α) (default : α) :
    Except Unreadable α :=
  match g.value? p with
  | none => .ok default
  | some text =>
    match read text with
    | some a => .ok a
    | none => .error ⟨p, text⟩

namespace Options

/-- The number of boxes where none is given. -/
def usualCount : Nat := 1000000

/-- The options of a run on a machine with a number of processors, each of which gets a thread
unless a number of threads is given. -/
def ofGiven (processors : Nat) (g : Given) : Except Unreadable Options := do
  let usual : Settings := {}
  let count ← g.read .count readCount? usualCount
  let threads ← g.read .threads readCount? processors
  let seed ← g.read .seed readCount? 1
  let strategy ← g.read .strategy (fun text => (Strategy.parse text).toOption) usual.strategy
  let distribution ← g.read .distribution Distribution.ofName? .uniform
  let leafThreshold ← g.read .leafThreshold readCount? usual.leafThreshold
  let maxPerLeaf ← g.read .maxLeaf readCount? usual.maxPerLeaf
  let intersectionCost ← g.read .intersectionCost readScalar? usual.intersectionCost
  pure {
    count, threads, seed, distribution
    settings := { usual with leafThreshold, maxPerLeaf, intersectionCost, strategy }
    json := g.json ≠ 0 }

end Options

end Command

end BoxTree
