import BoxTree.Asking
import BoxTree.Split
import BoxTree.Subranges
/-!
# The binned split search

The extent of the centroids along each axis is cut into bins of one width. Every item falls
into one bin of every axis, and the planes between neighbouring bins are the candidates.
-/

namespace BoxTree

/-- What has fallen into a bin. -/
structure Bin where
  bounds : Box
  count : Nat
  deriving DecidableEq

namespace Bin

/-- The bin with nothing in it. -/
def empty : Bin := ⟨.empty, 0⟩

/-- The bin with one more box. -/
def add (b : Bin) (box : Box) : Bin := ⟨b.bounds.union box, b.count + 1⟩

/-- Two bins together. -/
def union (b c : Bin) : Bin := ⟨b.bounds.union c.bounds, b.count + c.count⟩

/-- What a side made of this bin adds to the cost factor of a split. -/
def weight (b : Bin) : Scalar := Scalar.ofCount b.count * b.bounds.halfArea

/-- Entry `i` is the union of the bins up to and including `i`. -/
def fromLeft (bins : List Bin) : List Bin := (bins.scanl union empty).tail

/-- Entry `i` is the union of the bins from `i` on, gathered from the far end. -/
def fromRight (bins : List Bin) : List Bin :=
  bins.foldr (fun b later => (later.headD empty).union b :: later) []

end Bin

/-- The bins along one axis. -/
structure BinRow where
  /-- Where the first bin starts. -/
  origin : Scalar
  /-- Bins per unit of length. -/
  scale : Scalar
  /-- The length of a bin. -/
  width : Scalar
  /-- Whether the extent along the axis is positive and finite; other rows stay empty. -/
  valid : Bool
  bins : Array Bin
  deriving DecidableEq

namespace BinRow

/-- Empty bins over a stretch of an axis. -/
def empty (count : Nat) (origin extent : Scalar) : BinRow :=
  let valid := 0 < extent && extent.isFinite
  { origin := origin
    scale := if valid then Scalar.ofCount count / extent else 0
    width := if valid then extent / Scalar.ofCount count else 0
    valid := valid
    bins := Array.replicate count .empty }

/-- The bin of a centroid. What lies outside the extent, or is not a number, falls into the
first or the last bin. -/
def place (r : BinRow) (centroid : Scalar) : Nat :=
  min ((centroid - r.origin) * r.scale).toCount (r.bins.size - 1)

/-- Drops a box with the given centroid into its bin. -/
def add (r : BinRow) (centroid : Scalar) (box : Box) : BinRow :=
  if r.valid then { r with bins := r.bins.modify (r.place centroid) (·.add box) } else r

/-- Two rows over the same extent together. -/
def merge (r s : BinRow) : BinRow := { r with bins := r.bins.zipWith Bin.union s.bins }

/-- The splits at the boundaries between bins, in their order; a boundary with nothing on one
side is none. -/
def boundaries (a : Axis) (r : BinRow) : List (Option Split) :=
  let bins := r.bins.toList
  ((Bin.fromLeft bins).zip (Bin.fromRight bins).tail).mapIdx fun b (left, right) =>
    if left.count = 0 || right.count = 0 then none
    else some ⟨a, r.origin + r.width * Scalar.ofCount (b + 1), left.weight + right.weight⟩

/-- The splits of a row that can be used. -/
def splits (a : Axis) (r : BinRow) : List (Option Split) := if r.valid then r.boundaries a else []

end BinRow

/-- The bins along the three axes. -/
structure Bins where
  rows : PerAxis BinRow

namespace Bins

/-- The greatest number of bins along an axis. -/
def maxCount : Nat := 32

/-- The number of bins, at least one and at most the greatest. -/
def clamp (count : Nat) : Nat := min (max count 1) maxCount

/-- The number of bins for a number of items: four, and one more for every twenty items. -/
def countFor (items : Nat) : Nat :=
  clamp (4 + (0.05 : Scalar) * Scalar.ofCount items).toCount

/-- Empty bins over the extent of the centers. -/
def empty (count : Nat) (centers : Box) : Bins :=
  ⟨.tabulate fun a => .empty (clamp count) (centers.lo.get a) (centers.extent a)⟩

/-- Drops an item into its bin on every axis. -/
def add (b : Bins) (o : Item) : Bins :=
  let ⟨⟨x, y, z⟩⟩ := b
  ⟨⟨x.add (o.centroid .x) o.box, y.add (o.centroid .y) o.box, z.add (o.centroid .z) o.box⟩⟩

/-- Drops items into their bins. -/
def addAll (b : Bins) (items : List Item) : Bins := items.foldl add b

/-- Bins over the same extent together. -/
def merge (b c : Bins) : Bins := ⟨.tabulate fun a => (b.rows.get a).merge (c.rows.get a)⟩

/-- The cheapest boundary, the first one along the first axis where several are cheapest. -/
def cheapest (b : Bins) : Option Split :=
  Split.best (Axis.all.flatMap fun a => (b.rows.get a).splits a)

/-- The bins of items that were cut into pieces, each binned apart. -/
def ofPieces (count : Nat) (centers : Box) (g : Grouping Item) : Bins :=
  g.reduce merge (empty count centers) (addAll (empty count centers))

/-- The bins of the items, cut into pieces for a number of tasks where nested threads are there.
The threads put the bins of the pieces together in their own way. -/
def gather (group : Grouping.Way Item) (items : List Item) (centers : Box) (nested : Bool)
    (tasks : Nat) : Except Fault Bins := do
  let count := countFor items.length
  if nested && 1 < tasks then
    let size ← subrangeSize items.length tasks
    pure (ofPieces count centers (group (subranges size items)).1)
  else pure ((empty count centers).addAll items)

variable {σ : Type}

/-- The cheapest boundary between bins for a range of items, asking before and after the items
are binned whether to stop; a search that is stopped has no split. -/
def find (stop : Asking σ Bool) (nested : Bool) (tasks : Nat) (items : List Item) (centers : Box)
    (group : Grouping.Way Item := Grouping.inOrder) : Asking σ (Option Split) := do
  if items.length < 2 then pure none
  else if ← stop then pure none
  else
    let bins ← Asking.ofFault (gather group items centers nested tasks)
    if ← stop then pure none
    else pure bins.cheapest

end Bins

end BoxTree
