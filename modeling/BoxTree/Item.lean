import BoxTree.Box
import BoxTree.Grouping
/-!
# Items

What a tree is built over: boxes that remember their place in the caller's list, and the
summary (count, bounds, bounds of the centers) of a group of them.
-/

namespace BoxTree

/-- A box with its place in the caller's list. -/
structure Item where
  box : Box
  index : Nat
  deriving DecidableEq

namespace Item

/-- The coordinate of an item's center on one axis. -/
def centroid (o : Item) (a : Axis) : Scalar := o.box.centroid a

/-- The items of a list of boxes, numbered from zero. -/
def ofBoxes (boxes : List Box) : List Item := boxes.mapIdx fun i b => ⟨b, i⟩

/-- The order of items along an axis: by the rank of the centroid, then by place. How a centroid is
encoded that is not a number is up to `nans`. -/
def before (nans : Item → Axis → Scalar.NaN) (a : Axis) (o p : Item) : Bool :=
  let r := (o.centroid a).rank (nans o a)
  let s := (p.centroid a).rank (nans p a)
  r < s || (r == s && o.index ≤ p.index)

/-- How a centroid is encoded as a rule: a coordinate that is not a number hands its clear sign on,
and infinities that cancel leave a set one. -/
def usualNaN (o : Item) (a : Axis) : Scalar.NaN :=
  if (o.box.lo.get a).isNaN || (o.box.hi.get a).isNaN then .positive else .negative

/-- The items in their order along an axis. -/
def sortAlong (a : Axis) (items : List Item) (nans : Item → Axis → Scalar.NaN := usualNaN) :
    List Item :=
  items.mergeSort (before nans a)

end Item

/-- The box around a group of items and the box around their centers. -/
structure Extent where
  bounds : Box
  centers : Box
  deriving DecidableEq

namespace Extent

/-- The extent of no items. -/
def empty : Extent := ⟨.empty, .empty⟩

/-- The extent with one more box. -/
def add (e : Extent) (b : Box) : Extent := ⟨e.bounds.union b, e.centers.grow b.center⟩

/-- The extent of two groups together. -/
def union (e f : Extent) : Extent := ⟨e.bounds.union f.bounds, e.centers.union f.centers⟩

/-- The extent of a list of boxes, taken one after the other. -/
def ofBoxes (boxes : List Box) : Extent := boxes.foldl add empty

/-- The extent of boxes that are worked on in pieces. -/
def gather (g : Grouping Box) : Extent := g.reduce union empty ofBoxes

/-- The extent of a list of items. -/
def ofItems (items : List Item) : Extent := ofBoxes (items.map Item.box)

end Extent

end BoxTree
