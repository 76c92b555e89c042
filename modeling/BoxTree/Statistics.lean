import BoxTree.Decimal.Layout
import BoxTree.Fault
/-!
# Build statistics

Counters of a build. Every task keeps its own, and they are summed once all tasks are done.
The counters have fixed widths: an update that would pass the width of a counter is a fault,
and leaves the counters before it in their order updated.
-/

namespace BoxTree

/-- Why a range became a leaf. -/
inductive LeafReason where
  | underThreshold
  | maxDepth
  | cheaperNotToSplit
  | arbitrarySplit
  deriving DecidableEq, Repr

/-- The counters of a build. -/
structure Statistics where
  maxDepthLeaves : Nat := 0
  underThresholdLeaves : Nat := 0
  cheaperLeaves : Nat := 0
  arbitraryLeaves : Nat := 0
  leaves : Nat := 0
  largestLeaf : Nat := 0
  leafDepthSum : Nat := 0
  maxLeafDepth : Nat := 0
  interiorNodes : Nat := 0
  chunks : Nat := 0
  deriving DecidableEq, Repr

namespace Statistics

/-- One update of a counter. -/
abbrev Update := Statistics → Except Fault Statistics

/-- Updates in order, up to the first that fails; what it left and whether all were made. -/
def run : List Update → Statistics → Statistics × Except Fault Unit
  | [], s => (s, .ok ())
  | u :: us, s =>
    match u s with
    | .ok s' => run us s'
    | .error f => (s, .error f)

/-- A sum within the width of the counters. -/
def plus (a b : Nat) : Except Fault Nat := addWithin limit64 a b

/-- Counts a leaf by its reason. -/
def countReason : LeafReason → Update
  | .underThreshold, s =>
    (plus s.underThresholdLeaves 1).map fun n => { s with underThresholdLeaves := n }
  | .maxDepth, s => (plus s.maxDepthLeaves 1).map fun n => { s with maxDepthLeaves := n }
  | .cheaperNotToSplit, s => (plus s.cheaperLeaves 1).map fun n => { s with cheaperLeaves := n }
  | .arbitrarySplit, s => (plus s.arbitraryLeaves 1).map fun n => { s with arbitraryLeaves := n }

/-- Counts a leaf of a depth and a number of objects. -/
def recordLeaf (s : Statistics) (reason : LeafReason) (depth count : Nat) :
    Statistics × Except Fault Unit :=
  run [
    countReason reason,
    fun s => (plus s.leaves 1).map fun n => { s with leaves := n },
    fun s => .ok { s with largestLeaf := max s.largestLeaf count },
    fun s => (plus s.leafDepthSum depth).map fun n => { s with leafDepthSum := n },
    fun s => .ok { s with maxLeafDepth := max s.maxLeafDepth depth }] s

/-- Counts an interior node. -/
def recordInterior (s : Statistics) : Statistics × Except Fault Unit :=
  run [fun s => (plus s.interiorNodes 1).map fun n => { s with interiorNodes := n }] s

/-- Adds the counters of another part of the build. -/
def accumulate (sum t : Statistics) : Statistics × Except Fault Unit :=
  run [
    fun s => (plus s.maxDepthLeaves t.maxDepthLeaves).map fun n => { s with maxDepthLeaves := n },
    fun s => (plus s.underThresholdLeaves t.underThresholdLeaves).map fun n =>
      { s with underThresholdLeaves := n },
    fun s => (plus s.cheaperLeaves t.cheaperLeaves).map fun n => { s with cheaperLeaves := n },
    fun s => (plus s.arbitraryLeaves t.arbitraryLeaves).map fun n =>
      { s with arbitraryLeaves := n },
    fun s => (plus s.leaves t.leaves).map fun n => { s with leaves := n },
    fun s => .ok { s with largestLeaf := max s.largestLeaf t.largestLeaf },
    fun s => (plus s.leafDepthSum t.leafDepthSum).map fun n => { s with leafDepthSum := n },
    fun s => .ok { s with maxLeafDepth := max s.maxLeafDepth t.maxLeafDepth },
    fun s => (plus s.interiorNodes t.interiorNodes).map fun n => { s with interiorNodes := n },
    fun s => (plus s.chunks t.chunks).map fun n => { s with chunks := n }] sum

/-- The number of nodes. -/
def nodes (s : Statistics) : Except Fault Nat := plus s.leaves s.interiorNodes

/-- A total over the number of leaves, zero where there is no leaf. -/
def perLeaf (s : Statistics) (total : Nat) : Float :=
  if s.leaves = 0 then 0 else total.toUInt64.toFloat / s.leaves.toUInt64.toFloat

/-- The mean depth of the leaves. -/
def averageLeafDepth (s : Statistics) : Float := s.perLeaf s.leafDepthSum

/-- The mean number of objects in a leaf, for a number of objects in all. -/
def averageObjectsPerLeaf (s : Statistics) (count : Nat) : Float := s.perLeaf count

/-- The lines of the report on a build. -/
def lines (s : Statistics) : List String :=
  let depth := renderFixed 2 (Double.isNegative s.averageLeafDepth) (.ofDouble s.averageLeafDepth)
  [s!"interior nodes:             {s.interiorNodes}",
   s!"leaves:                     {s.leaves}",
   s!"  under threshold:          {s.underThresholdLeaves}",
   s!"  max depth:                {s.maxDepthLeaves}",
   s!"  cheaper not to split:     {s.cheaperLeaves}",
   s!"  arbitrary split:          {s.arbitraryLeaves}",
   s!"max objects per leaf:       {s.largestLeaf}",
   s!"average leaf depth:         {depth}",
   s!"max leaf depth:             {s.maxLeafDepth}",
   s!"chunks:                     {s.chunks}"]

/-- The report on a build. -/
def text (s : Statistics) : String := "\n".intercalate s.lines

end Statistics

end BoxTree
