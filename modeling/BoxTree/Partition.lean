import BoxTree.Split
import BoxTree.Subranges
/-!
# Partitions

Moving the items of a range to the two sides of a plane. There are three ways: in place with
two pointers, which does not keep the order within a side; stably into another buffer, for the
three sorted arrays of a range at once; and stably in pieces that are counted first and then
placed independently. All of them summarise the two sides.
-/

namespace BoxTree

/-- The summary of one side of a partition. -/
structure Half where
  count : Nat
  extent : Extent
  deriving DecidableEq

namespace Half

/-- The summary of no items. -/
def empty : Half := ⟨0, .empty⟩

/-- The summary with one more item. -/
def add (h : Half) (o : Item) : Half := ⟨h.count + 1, h.extent.add o.box⟩

/-- The summary of two groups together. -/
def union (h k : Half) : Half := ⟨h.count + k.count, h.extent.union k.extent⟩

end Half

/-- The summaries of both sides. -/
structure Halves where
  left : Half
  right : Half
  deriving DecidableEq

namespace Halves

/-- The summary of no items. -/
def empty : Halves := ⟨.empty, .empty⟩

/-- The summary with one more item on its side of a plane. -/
def add (a : Axis) (value : Scalar) (h : Halves) (o : Item) : Halves :=
  if o.goesLeft a value then { h with left := h.left.add o } else { h with right := h.right.add o }

/-- The summary of two groups together. -/
def union (h k : Halves) : Halves := ⟨h.left.union k.left, h.right.union k.right⟩

/-- Whether one side received every item. -/
def isDegenerate (h : Halves) : Bool := h.left.count = 0 || h.right.count = 0

/-- The summary of a partition that has not moved anything yet. -/
def count (a : Axis) (value : Scalar) (items : List Item) : Halves :=
  items.foldl (add a value) empty

end Halves

namespace Partition

/-- Partitions in place the `k` items from place `i` on: an item that goes left stays, and one
that goes right changes places with the last one not examined. -/
def inPlaceFrom (a : Axis) (value : Scalar) :
    (k i : Nat) → Array Item → Halves → Array Item × Halves
  | 0, _, items, h => (items, h)
  | k + 1, i, items, h =>
    match items[i]? with
    | none => (items, h)
    | some o =>
      if o.goesLeft a value then inPlaceFrom a value k (i + 1) items (h.add a value o)
      else inPlaceFrom a value k i (items.swapIfInBounds i (i + k)) (h.add a value o)

/-- Partitions items in place. -/
def inPlace (a : Axis) (value : Scalar) (items : List Item) : List Item × Halves :=
  let r := inPlaceFrom a value items.length 0 items.toArray .empty
  (r.1.toList, r.2)

/-- Where the items of a piece go: the part of the destination for those that go left, and the
part for all others. -/
structure Slots where
  left : Nat
  leftCount : Nat
  right : Nat
  rightCount : Nat

/-- Places items one after the other into their part of the destination, `l` and `r` of them
being placed already. Each part has to be filled exactly. -/
def placeFrom (a : Axis) (value : Scalar) (s : Slots) :
    List Item → (l r : Nat) → Array Item → Except Fault (Array Item)
  | [], l, r, dst =>
    if l = s.leftCount && r = s.rightCount then .ok dst
    else .error (.assertion "a side of the destination was not filled")
  | o :: rest, l, r, dst =>
    if o.goesLeft a value then
      if l < s.leftCount then
        placeFrom a value s rest (l + 1) r (dst.setIfInBounds (s.left + l) o)
      else .error (.indexOutOfRange l s.leftCount)
    else
      if r < s.rightCount then
        placeFrom a value s rest l (r + 1) (dst.setIfInBounds (s.right + r) o)
      else .error (.indexOutOfRange r s.rightCount)

/-- A stable copy of items to the two sides of a destination of the same length, the left one
of a given length. -/
def place (a : Axis) (value : Scalar) (leftCount : Nat) (src : List Item) (dst : Array Item) :
    Except Fault (Array Item) :=
  if leftCount ≤ dst.size then
    placeFrom a value ⟨0, leftCount, leftCount, dst.size - leftCount⟩ src 0 0 dst
  else .error (.assertion "the left side is longer than the destination")

/-- Partitions the three sorted arrays of a range into another buffer, deciding each item by
its centroid on one axis, so that all three keep describing the same items on each side. The
length of the left side is counted on the array of that axis. -/
def inStep (a : Axis) (value : Scalar) (src : PerAxis (List Item)) (dst : PerAxis (Array Item)) :
    Except Fault (PerAxis (Array Item) × Halves) := do
  let halves := Halves.count a value (src.get a)
  let x ← place a value halves.left.count src.x dst.x
  let y ← place a value halves.left.count src.y dst.y
  let z ← place a value halves.left.count src.z dst.z
  pure (⟨x, y, z⟩, halves)

/-- A piece of the source with its summary and its part of the destination. -/
structure Placement where
  items : List Item
  slots : Slots

/-- Gives every piece its part of the destination: on both sides the parts follow one another
in the order of the pieces, from `left` and `right` on up to where the sides end. A part that
is longer than what is left of its side is a fault. -/
def placements (leftEnd rightEnd : Nat) :
    (left right : Nat) → List (List Item × Halves) → Except Fault (List Placement)
  | _, _, [] => .ok []
  | left, right, (items, h) :: rest =>
    if left + h.left.count ≤ leftEnd && right + h.right.count ≤ rightEnd then do
      let others ← placements leftEnd rightEnd (left + h.left.count) (right + h.right.count) rest
      pure (⟨items, left, h.left.count, right, h.right.count⟩ :: others)
    else .error (.assertion "a part is longer than what is left of its side")

/-- Carries out one placement. -/
def Placement.run (a : Axis) (value : Scalar) (dst : Array Item) (p : Placement) :
    Except Fault (Array Item) :=
  placeFrom a value p.slots p.items 0 0 dst

/-- The placements that partition items into a destination of a length, and what they count, when
the items are cut into pieces for a number of tasks. Nothing is moved yet: the pieces are counted,
which fixes where each of them goes. -/
def allot (a : Axis) (value : Scalar) (tasks : Nat) (src : List Item) (room : Nat) :
    Except Fault (List Placement × Halves) := do
  if src.length ≠ room then throw (.assertion "source and destination differ in length")
  let size ← subrangeSize src.length (max tasks 1)
  let pieces := (subranges size src).map fun piece => (piece, Halves.count a value piece)
  let halves := (pieces.map Prod.snd).foldl Halves.union .empty
  if room < halves.left.count then
    throw (.assertion "the left side is longer than the destination")
  pure (← placements halves.left.count room 0 halves.left.count pieces, halves)

/-- Partitions items into a destination of the same length in pieces for a number of tasks. The
pieces are counted first, which fixes where each of them goes, and then placed. -/
def inPieces (a : Axis) (value : Scalar) (tasks : Nat) (src : List Item) (dst : Array Item) :
    Except Fault (Array Item × Halves) := do
  let (jobs, halves) ← allot a value tasks src dst.size
  pure (← jobs.foldlM (Placement.run a value) dst, halves)

end Partition

end BoxTree
