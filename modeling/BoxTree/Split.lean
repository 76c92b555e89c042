import BoxTree.Item
/-!
# Splits

A split of a group of items is a plane across an axis: the items whose centroid is at or below
its value go left, all others right.
-/

namespace BoxTree

/-- A plane that splits a group of items, with the cost factor
`N_L * halfArea L + N_R * halfArea R` it was found to have. -/
structure Split where
  axis : Axis
  value : Scalar
  cost : Scalar
  deriving DecidableEq

namespace Split

/-- The cheaper of two splits where there are two, the first of them on a tie. -/
def better : Option Split → Option Split → Option Split
  | some a, some b => if b.cost < a.cost then some b else some a
  | some a, none => some a
  | none, b => b

/-- The best of a list of splits. -/
def best (splits : List (Option Split)) : Option Split := splits.foldl better none

end Split

/-- Whether an item goes left of a plane. -/
def Item.goesLeft (a : Axis) (value : Scalar) (o : Item) : Bool := o.centroid a ≤ value

end BoxTree
