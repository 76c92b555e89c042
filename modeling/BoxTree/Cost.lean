import BoxTree.Scalar
/-!
# The surface area heuristic

What it costs to split a range of objects, and to keep it as a leaf, relative to one traversal
step.
-/

namespace BoxTree

/-- The cost of intersecting one object, relative to a traversal step. -/
structure Cost where
  intersection : Scalar

namespace Cost

/-- A traversal step is the unit of cost. -/
def traversal : Scalar := 1

/-- The cost of a split with a factor `N_L * halfArea L + N_R * halfArea R`, below a parent of
the given surface area. A parent without area is charged one traversal step. -/
def split (c : Cost) (factor parentArea : Scalar) : Scalar :=
  if parentArea ≤ 0 then traversal
  else 2 * c.intersection * factor / parentArea + traversal

/-- The cost of a leaf. -/
def leaf (c : Cost) (count : Nat) : Scalar := Scalar.ofCount count * c.intersection

/-- Whether a range is better kept as a leaf. A tie keeps it, but only a range that still fits
in a leaf is kept. -/
def prefersLeaf (c : Cost) (factor parentArea : Scalar) (count maxPerLeaf : Nat) : Bool :=
  c.leaf count ≤ c.split factor parentArea && count ≤ maxPerLeaf

end Cost

end BoxTree
