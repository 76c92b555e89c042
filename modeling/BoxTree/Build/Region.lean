import BoxTree.Buffers
import BoxTree.Cancellation
import BoxTree.Cost
import BoxTree.Partition
import BoxTree.Platform
import BoxTree.Settings
import BoxTree.Split.Bins
import BoxTree.Split.Sweep
/-!
# Regions

A region is a range of the object buffers that is to become a subtree, with the box around its
objects and the depth of its root. This file holds what a build does to a region: searching
its split, and moving its objects to the two sides of one.
-/

namespace BoxTree

/-- A range of the object buffers that is to become a subtree. -/
structure Region where
  first : Nat
  last : Nat
  extent : Extent
  depth : Nat
  side : Side
  deriving DecidableEq

namespace Region

/-- The number of objects in a region. -/
def size (r : Region) : Nat := r.last - r.first

/-- The part of a region up to a place, one level down. -/
def before (r : Region) (mid : Nat) (extent : Extent) (side : Side) : Region :=
  ⟨r.first, mid, extent, r.depth + 1, side⟩

/-- The part of a region from a place on, one level down. -/
def after (r : Region) (mid : Nat) (extent : Extent) (side : Side) : Region :=
  ⟨mid, r.last, extent, r.depth + 1, side⟩

end Region

/-- What every task of a build knows. -/
structure Plan where
  settings : Settings
  search : Search
  /-- Whether there are nested threads. -/
  nested : Bool
  /-- The number of pieces that work on the nested threads is cut into. -/
  pieces : Nat
  platform : Platform
  /-- The extent of all boxes, which the build starts from and reports. -/
  extent : Extent

namespace Plan

/-- The depth at which every range becomes a leaf. -/
def maxDepth : Nat := 60

/-- The cost model of a build. -/
def cost (p : Plan) : Cost := ⟨p.settings.intersectionCost⟩

/-- Whether a range of a size is worked on by the nested threads, given the size they are for. -/
def usesNested (p : Plan) (size threshold : Nat) : Bool := p.nested && threshold ≤ size

/-- The number of nested threads that work on a range of a size, given the size they are for. -/
def threadsFor (p : Plan) (size threshold : Nat) : Nat :=
  if p.usesNested size threshold then p.settings.nestedThreads else 0

/-- The items of a region in one of the arrays. -/
def items (b : Buffers) (r : Region) (array : Nat) : Except Fault (List Item) :=
  (b.view r.side array r.first r.last).map Array.toList

/-- The items of a region in the three sorted arrays. -/
def sortedItems (b : Buffers) (r : Region) : Except Fault (PerAxis (List Item)) := do
  pure ⟨← items b r 0, ← items b r 1, ← items b r 2⟩

/-- The best split of a region. -/
def findSplit {σ : Type} (p : Plan) (stop : Asking σ Bool) (b : Buffers) (r : Region)
    (table : Array Scalar) : Asking σ (Option Split × Array Scalar) := do
  match p.search with
  | .exact =>
    let arrays ← Asking.ofFault (sortedItems b r)
    Sweep.find stop (p.threadsFor r.size p.settings.axisThreshold) arrays table
  | .binning =>
    let items ← Asking.ofFault (items b r 0)
    let nested := p.usesNested r.size p.settings.parallelBinning
    let group := p.platform.bins r.first r.last
    let found ← Bins.find stop nested p.pieces items r.extent.centers group
    pure (found, table)

/-- Partitions the three sorted arrays of a region into the other buffer. -/
def partitionSorted (b : Buffers) (r : Region) (s : Split) : Except Fault (Buffers × Halves) := do
  let src ← sortedItems b r
  let other := r.side.other
  let dst : PerAxis (Array Item) := ⟨← b.view other 0 r.first r.last,
    ← b.view other 1 r.first r.last, ← b.view other 2 r.first r.last⟩
  let (dst, halves) ← Partition.inStep s.axis s.value src dst
  let b ← b.put other 0 r.first dst.x.toList
  let b ← b.put other 1 r.first dst.y.toList
  let b ← b.put other 2 r.first dst.z.toList
  pure (b, halves)

/-- Partitions the single array of a region into the other buffer, in pieces. -/
def partitionPieces (p : Plan) (b : Buffers) (r : Region) (s : Split) :
    Except Fault (Buffers × Halves) := do
  let src ← items b r 0
  let dst ← b.view r.side.other 0 r.first r.last
  let (dst, halves) ← Partition.inPieces s.axis s.value p.pieces src dst
  pure (← b.put r.side.other 0 r.first dst.toList, halves)

/-- Partitions the single array of a region in place. -/
def partitionInPlace (b : Buffers) (r : Region) (s : Split) : Except Fault (Buffers × Halves) := do
  let (items, halves) := Partition.inPlace s.axis s.value (← items b r 0)
  pure (← b.put r.side 0 r.first items, halves)

/-- Moves the objects of a region to the two sides of a split. The result names the side the
two parts are on. -/
def partition (p : Plan) (b : Buffers) (r : Region) (s : Split) :
    Except Fault (Buffers × Halves × Side) := do
  match p.search with
  | .exact =>
    let (b, halves) ← partitionSorted b r s
    pure (b, halves, r.side.other)
  | .binning =>
    if p.usesNested r.size p.settings.parallelPartition && b.hasBack then
      let (b, halves) ← p.partitionPieces b r s
      pure (b, halves, r.side.other)
    else
      let (b, halves) ← partitionInPlace b r s
      pure (b, halves, r.side)

/-- The extent of a part of a region, computed anew. -/
def extentOf (b : Buffers) (s : Side) (first last : Nat) : Except Fault Extent :=
  (b.view s 0 first last).map fun items => Extent.ofItems items.toList

end Plan

end BoxTree
