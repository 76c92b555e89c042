import BoxTree.Asking
import BoxTree.Split
import BoxTree.Subranges
/-!
# The exact split search

The items of a range, sorted along an axis, can be split between any two neighbours with
different centroids. One pass computes the half areas on the left of every such place, a
second pass from the far end the half areas on the right, and the cheapest place is kept.
-/

namespace BoxTree

namespace Sweep

/-- The half areas of the unions of the first one, two, … boxes. -/
def leftAreas (items : List Item) : List Scalar :=
  ((items.map Item.box).scanl Box.union .empty).tail.map Box.halfArea

/-- The pass from the far end: what it has gathered of the items behind it. -/
structure Pass where
  /-- The box around the items passed. -/
  right : Box
  /-- The number of items passed. -/
  count : Nat
  /-- The centroid of the item passed last. -/
  last : Scalar
  best : Option Split

namespace Pass

/-- The pass that has only the last item behind it. -/
def start (a : Axis) (o : Item) : Pass := ⟨o.box, 1, o.centroid a, none⟩

/-- Passes one item, whose prefix has the given half area. The place between it and the item
passed before is kept if it is strictly cheaper than the best so far and the two centroids
differ, since no plane separates items with one centroid. -/
def step (a : Axis) (total : Nat) (p : Pass) (item : Item × Scalar) : Pass :=
  let value := item.1.centroid a
  let cost := Scalar.ofCount (total - p.count) * item.2 + Scalar.ofCount p.count * p.right.halfArea
  let limit := (p.best.map Split.cost).getD .infinity
  { right := p.right.union item.1.box
    count := p.count + 1
    last := value
    best := if cost < limit && value != p.last then some ⟨a, value, cost⟩ else p.best }

end Pass

/-- The cheapest split of items sorted along an axis, the one furthest along the axis where
several are cheapest. -/
def cheapest (a : Axis) (items : List Item) : Option Split :=
  match (items.zip (leftAreas items)).reverse with
  | [] => none
  | last :: others => (others.foldl (Pass.step a items.length) (Pass.start a last.1)).best

/-- Searches one axis, leaving the half areas of the prefixes in a table that has to be long
enough. Fewer than two items have no split, and leave the table alone. -/
def search (a : Axis) (items : List Item) (table : Array Scalar) :
    Except Fault (Option Split × Array Scalar) :=
  if items.length < 2 then .ok (none, table)
  else if table.size < items.length then
    .error (.assertion "the table is too short for the range")
  else .ok (cheapest a items, overwrite table 0 (leftAreas items))

/-- The length of a table after room for `count` entries was asked for: a table is never
shortened. -/
def grownLength (length count : Nat) : Except BuildError Nat :=
  if length < count then (reserve "split search scratch" 4 count).map fun _ => count
  else .ok length

/-- A table with room for `count` entries. -/
def grow (table : Array Scalar) (count : Nat) : Except BuildError (Array Scalar) :=
  (grownLength table.size count).map fun n => table ++ Array.replicate (n - table.size) 0

variable {σ : Type}

/-- Searches axes one after the other with one table, asking before each whether to stop; a
search that is stopped has no split. -/
def searchAxes (stop : Asking σ Bool) (arrays : PerAxis (List Item)) :
    List Axis → Option Split → Array Scalar → Asking σ (Option Split × Array Scalar)
  | [], best, table => pure (best, table)
  | a :: rest, best, table => do
    if ← stop then pure (none, table)
    else
      let (found, table) ← Asking.ofFault (search a (arrays.get a) table)
      searchAxes stop arrays rest (Split.better best found) table

/-- Searches one axis with a table of its own, unless asked to stop. -/
def searchAlone (stop : Asking σ Bool) (count : Nat) (a : Axis) (items : List Item) :
    Asking σ (Option Split) := do
  if ← stop then pure none
  else
    let table ← Asking.ofError (grow #[] count)
    let (found, _) ← Asking.ofFault (search a items table)
    pure found

/-- Searches the axes apart, each with a table of its own. A single thread is handed the first
axis and the other two, which it takes in turn; of more threads each is handed one axis. -/
def searchApart (stop : Asking σ Bool) (threads : Nat) (arrays : PerAxis (List Item)) :
    Asking σ (Option Split) := do
  let alone := fun a => searchAlone stop arrays.x.length a (arrays.get a)
  let others : Asking σ (Option Split × Option Split) :=
    if threads = 1 then do pure (← alone .y, ← alone .z) else Asking.both (alone .y) (alone .z)
  let (x, y, z) ← Asking.both (alone .x) others
  pure (Split.best [x, y, z])

/-- The cheapest split of a range over the three axes; `arrays` holds the range sorted along
each of them. With nested threads the axes are searched apart, and the given table stays as it
is. -/
def find (stop : Asking σ Bool) (threads : Nat) (arrays : PerAxis (List Item))
    (table : Array Scalar) : Asking σ (Option Split × Array Scalar) := do
  if threads = 0 then
    let table ← Asking.ofError (grow table arrays.x.length)
    searchAxes stop arrays Axis.all none table
  else
    pure (← searchApart stop threads arrays, table)

end Sweep

end BoxTree
