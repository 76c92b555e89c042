import BoxTree.Decimal.Layout
import BoxTree.Fault
import BoxTree.Item
/-!
# Nodes

The nodes of a finished tree. An interior node names its children by their places in the node
array, a leaf a range of places in the order of the objects. The cost of a tree weighs every
node by its area relative to the root.
-/

namespace BoxTree

/-- What a node holds: two children, or the objects from `first` up to but not including
`last` in the order of the tree. -/
inductive NodeKind where
  | interior (left right : Nat)
  | leaf (first last : Nat)
  deriving DecidableEq, Repr

/-- A node of a tree. -/
structure Node where
  bounds : Box
  kind : NodeKind
  depth : Nat
  deriving DecidableEq

/-- The text of a point. -/
def Point.text (p : Point) : String :=
  let c (a : Axis) : String := Layout.plain.scalar (p.get a)
  s!"({c .x}, {c .y}, {c .z})"

/-- The text of a box. -/
def Box.text (b : Box) : String := s!"(min: {b.lo.text},  max: {b.hi.text})"

namespace Node

/-- Whether a node is a leaf. -/
def isLeaf (n : Node) : Bool :=
  match n.kind with
  | .leaf .. => true
  | .interior .. => false

/-- The children of an interior node. -/
def children? (n : Node) : Option (Nat × Nat) :=
  match n.kind with
  | .interior l r => some (l, r)
  | .leaf .. => none

/-- The range of a leaf. -/
def range? (n : Node) : Option (Nat × Nat) :=
  match n.kind with
  | .leaf a b => some (a, b)
  | .interior .. => none

/-- The number of objects in a leaf, none for an interior node. -/
def count (n : Node) : Except Fault Nat :=
  match n.kind with
  | .leaf a b => subWithin b a
  | .interior .. => .ok 0

/-- The text of a node. -/
def text (n : Node) : String :=
  match n.kind with
  | .interior l r => s!"interior {n.bounds.text} -> ({l}, {r})"
  | .leaf a b => s!"leaf {n.bounds.text} [{a}, {b})"

/-- What a node adds to the cost of a tree whose root has the given area. Where the root has
no area every interior node costs one step and every leaf its objects. -/
def cost (rootArea intersection : Scalar) (n : Node) : Except Fault Scalar := do
  if rootArea ≤ 0 then
    match n.kind with
    | .interior .. => pure 1
    | .leaf .. => pure (intersection * Scalar.ofCount (← n.count))
  else
    let weight := n.bounds.surfaceArea / rootArea
    match n.kind with
    | .interior .. => pure weight
    | .leaf .. => pure (weight * intersection * Scalar.ofCount (← n.count))

/-- The expected cost of a tree relative to its root, summed in the order of the nodes; a sum
starts from negative zero, and no nodes cost nothing. -/
def totalCost (nodes : List Node) (intersection : Scalar) : Except Fault Scalar :=
  match nodes with
  | [] => .ok 0
  | root :: _ =>
    let rootArea := root.bounds.surfaceArea
    nodes.foldlM (fun sum n => (sum + ·) <$> n.cost rootArea intersection) (-0)

end Node

end BoxTree
