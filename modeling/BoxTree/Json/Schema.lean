import BoxTree.Json.Value
import BoxTree.Settings
import BoxTree.Statistics
import BoxTree.Tree
/-!
# JSON forms of the domain

How boxes, nodes, trees, settings and statistics are written as JSON values, and how they are
read. A record is written as an object with its fields in order; it is read from an object,
whose unknown fields are ignored, or from an array of its fields. A choice is written as its
name, or as an object with the name as its only field where it carries something.
-/

namespace BoxTree

namespace Json

/-- The fields of a record by their names: from an object, by name, or from an array, by place.
An array may not be longer than the record; of a shorter one the last fields are absent. -/
def record? (names : List String) : Json → Option (List (Option Json))
  | .obj fields => some (names.map fun name => (Json.obj fields).field? name)
  | .arr items =>
    if items.length ≤ names.length then
      some ((List.range names.length).map fun i => items[i]?)
    else none
  | _ => none

/-- A field that has to be given. -/
def required {α : Type} (read : Json → Option α) (field : Option Json) : Option α :=
  field.bind read

/-- A field with a default: it may be absent, but not unreadable. -/
def optional {α : Type} (read : Json → Option α) (default : α) : Option Json → Option α
  | none => some default
  | some j => read j

/-- The content of a choice: its name, and what it carries if it is written as an object. -/
def variant? : Json → Option (String × Option Json)
  | .str name => some (name, none)
  | .obj [(name, content)] => some (name, some content)
  | _ => none

/-- A number of 32 bits. -/
def count32? (j : Json) : Option Nat := j.count? limit32

/-- A number of 64 bits. -/
def count64? (j : Json) : Option Nat := j.count? limit64

/-- A list of readable items. -/
def list? {α : Type} (read : Json → Option α) (j : Json) : Option (List α) := do
  (← j.items?).mapM read

end Json

open Json

namespace Point

/-- A point as an array of its coordinates. -/
def toJson (p : Point) : Json := .arr [ofScalar p.x, ofScalar p.y, ofScalar p.z]

/-- Reads a point. -/
def ofJson? : Json → Option Point
  | .arr [x, y, z] => do some ⟨← x.scalar?, ← y.scalar?, ← z.scalar?⟩
  | _ => none

end Point

namespace Box

/-- A box as a record of its corners. -/
def toJson (b : Box) : Json := .obj [("min", b.lo.toJson), ("max", b.hi.toJson)]

/-- Reads a box. -/
def ofJson? (j : Json) : Option Box := do
  match ← record? ["min", "max"] j with
  | [lo, hi] => some ⟨← required Point.ofJson? lo, ← required Point.ofJson? hi⟩
  | _ => none

end Box

namespace NodeKind

/-- The kind of a node as a choice. -/
def toJson : NodeKind → Json
  | interior l r => .obj [("Interior", .obj [("left", ofNat l), ("right", ofNat r)])]
  | leaf a b => .obj [("Leaf", .obj [("begin", ofNat a), ("end", ofNat b)])]

/-- Two numbers by their names; they cannot be given by their places. -/
def pair? (first second : String) : Json → Option (Nat × Nat)
  | .obj fields => do
    let j := Json.obj fields
    some (← required count32? (j.field? first), ← required count32? (j.field? second))
  | _ => none

/-- Reads the kind of a node. -/
def ofJson? (j : Json) : Option NodeKind := do
  match ← variant? j with
  | ("Interior", some content) => (pair? "left" "right" content).map fun (l, r) => interior l r
  | ("Leaf", some content) => (pair? "begin" "end" content).map fun (a, b) => leaf a b
  | _ => none

end NodeKind

namespace Node

/-- A node as a record. -/
def toJson (n : Node) : Json :=
  .obj [("bounds", n.bounds.toJson), ("kind", n.kind.toJson), ("depth", ofNat n.depth)]

/-- Reads a node. -/
def ofJson? (j : Json) : Option Node := do
  match ← record? ["bounds", "kind", "depth"] j with
  | [bounds, kind, depth] =>
    let bounds ← required Box.ofJson? bounds
    let kind ← required NodeKind.ofJson? kind
    some ⟨bounds, kind, ← required count32? depth⟩
  | _ => none

end Node

namespace Tree

/-- A tree as a record. -/
def toJson (t : Tree) : Json :=
  .obj [("nodes", .arr (t.nodes.toList.map Node.toJson)),
    ("prim_indices", .arr (t.order.toList.map ofNat))]

/-- Reads a tree. -/
def ofJson? (j : Json) : Option Tree := do
  match ← record? ["nodes", "prim_indices"] j with
  | [nodes, order] =>
    let nodes ← required (list? Node.ofJson?) nodes
    let order ← required (list? count32?) order
    some ⟨nodes.toArray, order.toArray⟩
  | _ => none

end Tree

namespace Strategy

/-- A strategy as its name. -/
def toJson (s : Strategy) : Json := .str s.name

/-- Reads a strategy. Written as an object it carries null. -/
def ofJson? (j : Json) : Option Strategy := do
  let (name, content) ← variant? j
  match content with
  | none | some .null => all.find? fun s => s.name = name
  | some _ => none

/-- A strategy reads back as itself. -/
theorem ofJson?_toJson (s : Strategy) : ofJson? s.toJson = some s := by
  cases s <;> decide

end Strategy

namespace Settings

/-- The names of the settings in their order. -/
def fieldNames : List String :=
  ["leaf_object_threshold", "max_objects_per_leaf", "intersection_cost", "strategy",
    "binning_threshold", "new_task_threshold", "axis_parallel_threshold",
    "parallel_binning_threshold", "parallel_partition_threshold", "nested_worker_threads"]

/-- The settings as values in their order, given how scalars are written. -/
def values (s : Settings) (scalar : Scalar → Json) : List Json :=
  [ofNat s.leafThreshold, ofNat s.maxPerLeaf, scalar s.intersectionCost, s.strategy.toJson,
    ofNat s.binningThreshold, ofNat s.taskThreshold, ofNat s.axisThreshold,
    ofNat s.parallelBinning, ofNat s.parallelPartition, ofNat s.nestedThreads]

/-- The settings as a record, given how scalars are written. -/
def toJsonWith (scalar : Scalar → Json) (s : Settings) : Json :=
  .obj (fieldNames.zip (s.values scalar))

/-- The settings as a record. -/
def toJson (s : Settings) : Json := s.toJsonWith ofScalar

/-- Reads settings. What is not given keeps its default. -/
def ofJson? (j : Json) : Option Settings := do
  let d : Settings := {}
  match ← record? fieldNames j with
  | [leafThreshold, maxPerLeaf, cost, strategy, binning, task, axis, parallelBinning,
      parallelPartition, nested] =>
    some {
      leafThreshold := ← optional count64? d.leafThreshold leafThreshold
      maxPerLeaf := ← optional count64? d.maxPerLeaf maxPerLeaf
      intersectionCost := ← optional scalar? d.intersectionCost cost
      strategy := ← optional Strategy.ofJson? d.strategy strategy
      binningThreshold := ← optional count64? d.binningThreshold binning
      taskThreshold := ← optional count64? d.taskThreshold task
      axisThreshold := ← optional count64? d.axisThreshold axis
      parallelBinning := ← optional count64? d.parallelBinning parallelBinning
      parallelPartition := ← optional count64? d.parallelPartition parallelPartition
      nestedThreads := ← optional count64? d.nestedThreads nested }
  | _ => none

end Settings

namespace Statistics

/-- The names of the counters in their order. -/
def fieldNames : List String :=
  ["num_maxdepth_leaves", "num_under_thresh_leaves", "num_cheaper_nosplit_leaves",
    "num_arbitrary_split_leaves", "num_leaves", "max_objects_per_leaf", "leaf_depth_sum",
    "max_leaf_depth", "num_interior_nodes", "num_chunks"]

/-- The counters in their order. -/
def counters (s : Statistics) : List Nat :=
  [s.maxDepthLeaves, s.underThresholdLeaves, s.cheaperLeaves, s.arbitraryLeaves, s.leaves,
    s.largestLeaf, s.leafDepthSum, s.maxLeafDepth, s.interiorNodes, s.chunks]

/-- The counters as a record. -/
def toJson (s : Statistics) : Json := .obj (fieldNames.zip (s.counters.map ofNat))

/-- Reads counters. All of them have to be given. -/
def ofJson? (j : Json) : Option Statistics := do
  match ← record? fieldNames j with
  | [maxDepth, under, cheaper, arbitrary, leaves, largest, sum, depth, interior, chunks] =>
    some {
      maxDepthLeaves := ← required count64? maxDepth
      underThresholdLeaves := ← required count64? under
      cheaperLeaves := ← required count64? cheaper
      arbitraryLeaves := ← required count64? arbitrary
      leaves := ← required count64? leaves
      largestLeaf := ← required count64? largest
      leafDepthSum := ← required count64? sum
      maxLeafDepth := ← required count32? depth
      interiorNodes := ← required count64? interior
      chunks := ← required count64? chunks }
  | _ => none

end Statistics

end BoxTree
