import BoxTree.Item
/-!
# Platforms

What a build leaves to the machine it runs on. A thread pool cuts the work it is given where it
likes, and the arithmetic chooses how a value is encoded that is not a number. A `Platform` is what
came of these choices in one build; a result that is to hold on every machine holds for all of them.
-/

namespace BoxTree

/-- The choices that a machine makes in a build. -/
structure Platform where
  /-- How the extent of all boxes is gathered. -/
  boxes : (boxes : List Box) → { g : Grouping Box // g.pieces.flatten = boxes }
  /-- How the bins of the items of a range are put together, which are binned in pieces. A build
  searches a range at most once. -/
  bins : (first last : Nat) → Grouping.Way Item
  /-- How the centroid of an item is encoded where it is not a number. -/
  nans : Item → Axis → Scalar.NaN

namespace Platform

/-- A machine with a handful of threads that all come to their work in time. -/
def usual : Platform where
  boxes boxes := ⟨.halved 4 boxes, Grouping.flatten_halved 4 boxes⟩
  bins _ _ := Grouping.inOrder
  nans := Item.usualNaN

/-- The extent of all boxes of a build. -/
def extent (p : Platform) (boxes : List Box) : Extent := Extent.gather (p.boxes boxes).1

end Platform

end BoxTree
