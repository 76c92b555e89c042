import BoxTree.Node
/-!
# Trees

A finished tree: its nodes, the root first, and the order of the objects that its leaves are
ranges of.
-/

namespace BoxTree

/-- A bounding volume hierarchy over a list of objects. -/
structure Tree where
  nodes : Array Node
  order : Array Nat
  deriving DecidableEq

namespace Tree

/-- The tree over no objects: a single empty leaf. -/
def empty : Tree := ⟨#[⟨.empty, .leaf 0 0, 0⟩], #[]⟩

/-- The number of objects. -/
def objectCount (t : Tree) : Nat := t.order.size

/-- The bounds of the root, empty where there is no node. -/
def rootBounds (t : Tree) : Box := (t.nodes[0]?.map Node.bounds).getD .empty

/-- The leaves in the order of the nodes. -/
def leaves (t : Tree) : List Node := t.nodes.toList.filter Node.isLeaf

/-- The objects of a leaf, and none of an interior node. -/
def objects (t : Tree) (n : Node) : Except Fault (List Nat) :=
  match n.range? with
  | none => .ok []
  | some (a, b) =>
    if a ≤ b && b ≤ t.order.size then .ok (t.order.extract a b).toList
    else .error (.rangeOutOfRange a b t.order.size)

/-- The greatest depth of a node. -/
def depth (t : Tree) : Nat := (t.nodes.toList.map Node.depth).foldl max 0

/-- The expected cost of the tree under the surface area heuristic. -/
def cost (t : Tree) (intersection : Scalar) : Except Fault Scalar :=
  Node.totalCost t.nodes.toList intersection

/-- Visits the nodes in depth first order, left before right, from a stack of nodes still to be
visited. A tree is done after as many steps as it has nodes. -/
def visit (nodes : Array Node) : (fuel : Nat) → List Nat → List Nat
  | 0, _ => []
  | _, [] => []
  | fuel + 1, i :: stack =>
    match nodes[i]?.bind Node.children? with
    | some (l, r) => i :: visit nodes fuel (l :: r :: stack)
    | none => i :: visit nodes fuel stack

/-- The places of the nodes in depth first order. -/
def preorderPlaces (t : Tree) : List Nat := visit t.nodes t.nodes.size [0]

/-- The tree with its nodes in depth first order, left before right, and the children renamed
to match. -/
def preorder (t : Tree) : Tree :=
  let places := t.preorderPlaces
  let rank := places.zipIdx.foldl (fun (a : Array Nat) (i, k) => a.setIfInBounds i k)
    (Array.replicate t.nodes.size 0)
  let rename (n : Node) : Node :=
    match n.kind with
    | .leaf .. => n
    | .interior l r => { n with kind := .interior (rank.getD l 0) (rank.getD r 0) }
  { t with nodes := (places.filterMap fun i => t.nodes[i]?.map rename).toArray }

end Tree

end BoxTree
