import BoxTree.Point
/-!
# Boxes

Axis-aligned bounding boxes: their union, their areas, and what they contain. The empty box
has its corners the wrong way round at infinity, which makes it the identity of the union.
-/

namespace BoxTree

/-- An axis-aligned box between a lower and an upper corner. -/
structure Box where
  lo : Point
  hi : Point
  deriving DecidableEq

namespace Box

/-- The box that contains nothing, the identity of the union. -/
def empty : Box := ⟨.splat .infinity, .splat .negInfinity⟩

/-- A box is empty when its corners are the wrong way round on some axis. -/
def isEmpty (b : Box) : Bool := Axis.all.any fun a => b.hi.get a < b.lo.get a

/-- Whether two boxes have equal corners. Zeros of either sign are equal, and a box with a
coordinate that is not a number is not even equal to itself. -/
def sameCorners (b c : Box) : Bool :=
  Axis.all.all fun a => b.lo.get a == c.lo.get a && b.hi.get a == c.hi.get a

/-- The least box around a box and a point. -/
def grow (b : Box) (p : Point) : Box := ⟨b.lo.lesser p, b.hi.greater p⟩

/-- The least box around two boxes. -/
def union (b c : Box) : Box := ⟨b.lo.lesser c.lo, b.hi.greater c.hi⟩

/-- Whether another box lies entirely inside this one; the empty boxes lie inside every box. -/
def contains (b c : Box) : Bool :=
  c.isEmpty || Axis.all.all fun a => b.lo.get a ≤ c.lo.get a && c.hi.get a ≤ b.hi.get a

/-- Whether a point lies in the box, its faces included. -/
def containsPoint (b : Box) (p : Point) : Bool :=
  Axis.all.all fun a => b.lo.get a ≤ p.get a && p.get a ≤ b.hi.get a

/-- The point midway between the corners. -/
def center (b : Box) : Point := (b.lo + b.hi).scale 0.5

/-- The coordinate of the center on one axis. -/
def centroid (b : Box) (a : Axis) : Scalar := (b.lo.get a + b.hi.get a) * 0.5

/-- The side lengths. -/
def lengths (b : Box) : Point := b.hi - b.lo

/-- The side length on one axis. -/
def extent (b : Box) (a : Axis) : Scalar := b.hi.get a - b.lo.get a

/-- Half of the surface area, zero for the empty boxes and where the area is not a number. -/
def halfArea (b : Box) : Scalar :=
  if b.isEmpty then 0
  else
    let e := b.lengths
    (e.x * e.y + e.x * e.z + e.y * e.z).cutAtZero

/-- The surface area. -/
def surfaceArea (b : Box) : Scalar := 2 * b.halfArea

/-- The axis of the longest side, the first of them where several are longest. -/
def longestAxis (b : Box) : Axis :=
  let a : Axis := if b.extent .x < b.extent .y then .y else .x
  if b.extent a < b.extent .z then .z else a

/-- The two definitions of the center agree on every axis. -/
theorem get_center (b : Box) (a : Axis) : b.center.get a = b.centroid a := by
  cases a <;> rfl

/-- The extents are the side lengths. -/
theorem get_lengths (b : Box) (a : Axis) : b.lengths.get a = b.extent a := by
  cases a <;> rfl

end Box

end BoxTree
