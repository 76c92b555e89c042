import BoxTree.Decimal.Layout
import BoxTree.Fault
/-!
# Build settings

The parameters of a build, the condition they have to meet, and the decisions taken from them
once the number of objects is known: the split strategy and whether nested threads are worth
having.
-/

namespace BoxTree

/-- How splits are searched. -/
inductive Strategy where
  /-- Every plane between two objects, on arrays sorted along the axes. -/
  | exact
  /-- The boundaries of a fixed number of bins along each axis. -/
  | binning
  /-- Binning from a threshold on, exact below it. -/
  | auto
  deriving DecidableEq, Repr

/-- The strategy of a build whose number of objects is known. -/
inductive Search where
  | exact
  | binning
  deriving DecidableEq, Repr

namespace Strategy

/-- The name of a strategy in reports and JSON text. -/
def name : Strategy → String
  | exact => "Exact"
  | binning => "Binning"
  | auto => "Auto"

/-- Every strategy. -/
def all : List Strategy := [exact, binning, auto]

/-- Reads a strategy from a word, whatever the case of its ASCII letters. -/
def parse (text : String) : Except BuildError Strategy :=
  let word := text.map Char.toLower
  if word = "exact" || word = "sorted" then .ok exact
  else if word = "binning" || word = "binned" then .ok binning
  else if word = "auto" then .ok auto
  else .error (.invalidSettings s!"unknown split strategy '{word}'")

end Strategy

/-- The name of a resolved strategy. -/
def Search.name : Search → String
  | exact => "Exact"
  | binning => "Binning"

/-- The parameters of a build. -/
structure Settings where
  /-- Ranges of at most this many objects always become leaves. -/
  leafThreshold : Nat := 4
  /-- Ranges larger than this are split even where a leaf would be cheaper. -/
  maxPerLeaf : Nat := 8
  /-- The cost of intersecting an object, relative to a traversal step. -/
  intersectionCost : Scalar := 1
  strategy : Strategy := .auto
  /-- The automatic strategy is binning from this many objects on. -/
  binningThreshold : Nat := 1048576
  /-- The right child gets a task of its own when both children hold at least this many. -/
  taskThreshold : Nat := 512
  /-- Exact search: ranges at least this large use the nested threads. -/
  axisThreshold : Nat := 1048576
  /-- Binning: ranges at least this large are binned on the nested threads. -/
  parallelBinning : Nat := 65536
  /-- Binning: ranges at least this large are partitioned into the second buffer. -/
  parallelPartition : Nat := 524288
  /-- The number of nested threads; zero for none. -/
  nestedThreads : Nat := 3
  deriving DecidableEq

namespace Settings

/-- The first condition on the settings that does not hold, as a text. -/
def problem? (s : Settings) : Option String :=
  if s.leafThreshold < 1 then some "leaf_object_threshold must be at least 1"
  else if s.maxPerLeaf < s.leafThreshold then
    let wanted := s!"leaf_object_threshold ({s.leafThreshold})"
    some s!"max_objects_per_leaf ({s.maxPerLeaf}) must be >= {wanted}"
  else if !(s.intersectionCost.isFinite && 0 < s.intersectionCost) then
    let cost := Layout.plain.scalar s.intersectionCost
    some s!"intersection_cost must be a positive finite number, got {cost}"
  else if s.taskThreshold < 1 then some "new_task_threshold must be at least 1"
  else none

/-- Checks the settings. -/
def validate (s : Settings) : Except BuildError Unit :=
  match s.problem? with
  | none => .ok ()
  | some text => .error (.invalidSettings text)

/-- The strategy for a number of objects. -/
def search (s : Settings) (count : Nat) : Search :=
  match s.strategy with
  | .exact => .exact
  | .binning => .binning
  | .auto => if s.binningThreshold ≤ count then .binning else .exact

/-- Whether a build over a number of objects has a range large enough for nested threads. -/
def wantsNested (s : Settings) (search : Search) (count : Nat) : Bool :=
  s.nestedThreads != 0 &&
    match search with
    | .exact => s.axisThreshold ≤ count
    | .binning => min s.parallelBinning s.parallelPartition ≤ count

end Settings

end BoxTree
