import BoxTree.Build.Builder
import BoxTree.Command.Options
import BoxTree.Json.Schema
/-!
# Reports

A run builds a tree over a scene and reports on it, as lines of text or as a JSON record with
its fields in alphabetical order.
-/

namespace BoxTree

namespace Command

/-- What a run reports, the time it took apart. -/
structure Report where
  objects : Nat
  threads : Nat
  nodes : Nat
  cost : Scalar
  settings : Settings
  statistics : Statistics

namespace Report

/-- The lines of a report on a build that took a number of milliseconds. -/
def lines (r : Report) (milliseconds : Nat) : List String :=
  let cost := renderFixed 3 r.cost.isNegative (.ofSingle r.cost)
  [s!"built BVH over {r.objects} objects in {milliseconds} ms",
   s!"nodes:                      {r.nodes}",
   s!"SAH cost:                   {cost}"] ++ r.statistics.lines

/-- A record with its fields in alphabetical order. -/
def sorted : Json → Json
  | .obj fields => .obj (fields.mergeSort fun f g => f.1 ≤ g.1)
  | j => j

/-- A report as a JSON record. Scalars are written with the digits of the binary64 numbers of
the same value; a cost beyond all finite scalars is null. -/
def toJson (r : Report) (milliseconds : Float) : Json :=
  let scalar (a : Scalar) : Json := .ofDouble a.toDouble
  .obj [("build_ms", .ofDouble milliseconds),
    ("nodes", .ofNat r.nodes),
    ("objects", .ofNat r.objects),
    ("sah_cost", scalar r.cost),
    ("settings", sorted (r.settings.toJsonWith scalar)),
    ("statistics", sorted r.statistics.toJson),
    ("threads", .ofNat r.threads)]

end Report

/-- Why a run has no report. -/
inductive RunError where
  | unreadable (u : Unreadable)
  | build (e : BuildError)
  | fault (f : Fault)
  /-- The build was told to stop. -/
  | cancelled
  deriving DecidableEq, Repr

namespace RunError

/-- The text of an error. -/
def message : RunError → String
  | unreadable u => u.message
  | build e => e.message
  | fault f => f.message
  | cancelled => "build was cancelled"

end RunError

namespace Options

/-- Builds a tree over the scene that is asked for and reports on it. -/
def run (o : Options) : Except RunError Report := do
  let builder ← (Builder.ofSettings o.settings).mapError .build
  let boxes := Scene.boxes o.distribution o.count o.seed.toUInt64
  let result := builder.build boxes .fifo .never {}
  match result.outcome with
  | .error (.fault f) => throw (.fault f)
  | .error (.error e) => throw (.build e)
  | .ok .cancelled => throw .cancelled
  | .ok (.complete tree) =>
    let cost ← (tree.cost o.settings.intersectionCost).mapError .fault
    pure {
      objects := boxes.length
      threads := o.threads
      nodes := tree.nodes.size
      cost
      settings := o.settings
      statistics := result.builder.stats }

end Options

end Command

end BoxTree
