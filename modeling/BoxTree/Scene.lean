import BoxTree.Box
import BoxTree.Scene.Generator
/-!
# Scenes

Synthetic boxes to build trees over, in three distributions. A scene is fixed by its
distribution, the number of its boxes and a seed.
-/

namespace BoxTree

/-- How the boxes of a scene are spread. -/
inductive Distribution where
  /-- Small boxes anywhere in a cube. -/
  | uniform
  /-- Small boxes around a few centers. -/
  | clustered
  /-- One and the same box throughout. -/
  | coincident
  deriving DecidableEq, Repr

namespace Distribution

/-- The name of a distribution. -/
def name : Distribution → String
  | uniform => "uniform"
  | clustered => "clustered"
  | coincident => "coincident"

/-- Every distribution. -/
def all : List Distribution := [uniform, clustered, coincident]

/-- The distribution of a name, if there is one. -/
def ofName? (text : String) : Option Distribution := all.find? fun d => d.name = text

/-- The names tell the distributions apart. -/
theorem ofName?_name (d : Distribution) : ofName? d.name = some d := by
  cases d <;> decide

end Distribution

namespace Scene

/-- Draws a box anywhere in a cube, with sides between `0.01` and `1.01`. -/
def uniformBox : Draw Box := do
  let corner := (← Generator.point).scale 1000
  let sides := (← Generator.point) + .splat 0.01
  pure ⟨corner, corner + sides⟩

/-- Draws a box of one size near a center. -/
def clusteredBox (center : Point) : Draw Box := do
  let corner := center + (← Generator.point).scale 10
  pure ⟨corner, corner + .splat 0.25⟩

/-- The number of centers of a clustered scene. -/
def centerCount : Nat := 32

/-- Draws the centers of a clustered scene. -/
def centers : Draw (List Point) :=
  (List.range centerCount).mapM fun _ => do pure ((← Generator.point).scale 1000)

/-- Draws a clustered scene. Its boxes go around the centers in turn. -/
def clusteredBoxes (count : Nat) : Draw (List Box) := do
  let around := (← centers).toArray
  (List.range count).mapM fun i => clusteredBox (around.getD (i % centerCount) (.splat 0))

/-- The boxes of a scene. -/
def boxes (d : Distribution) (count : Nat) (seed : UInt64) : List Box :=
  match d with
  | .uniform => (((List.range count).mapM fun _ => uniformBox).run (.ofSeed seed)).1
  | .clustered => ((clusteredBoxes count).run (.ofSeed seed)).1
  | .coincident => List.replicate count ⟨.splat 0, .splat 1⟩

end Scene

end BoxTree
