import BoxTree.Axis
import BoxTree.Scalar
/-!
# Points

Points and displacements in space, with the arithmetic of their components.
-/

namespace BoxTree

/-- A point, or the displacement between two points. -/
structure Point where
  x : Scalar
  y : Scalar
  z : Scalar
  deriving DecidableEq

namespace Point

/-- The point with the same coordinate on every axis. -/
def splat (a : Scalar) : Point := ⟨a, a, a⟩

/-- The coordinate on an axis. -/
def get (p : Point) : Axis → Scalar
  | .x => p.x
  | .y => p.y
  | .z => p.z

/-- The point of three coordinates given by axis. -/
def tabulate (f : Axis → Scalar) : Point := ⟨f .x, f .y, f .z⟩

/-- An operation on each pair of coordinates. -/
@[inline] def zipWith (f : Scalar → Scalar → Scalar) (p q : Point) : Point :=
  ⟨f p.x q.x, f p.y q.y, f p.z q.z⟩

/-- The coordinatewise sum. -/
def add (p q : Point) : Point := zipWith (· + ·) p q

/-- The coordinatewise difference. -/
def sub (p q : Point) : Point := zipWith (· - ·) p q

/-- Every coordinate times a factor. -/
def scale (p : Point) (a : Scalar) : Point := ⟨p.x * a, p.y * a, p.z * a⟩

/-- The lesser coordinate on every axis. -/
def lesser (p q : Point) : Point := zipWith Scalar.lesser p q

/-- The greater coordinate on every axis. -/
def greater (p q : Point) : Point := zipWith Scalar.greater p q

instance : Add Point := ⟨add⟩
instance : Sub Point := ⟨sub⟩

@[simp] theorem get_tabulate (f : Axis → Scalar) (a : Axis) : (tabulate f).get a = f a := by
  cases a <;> rfl

@[simp] theorem get_zipWith (f : Scalar → Scalar → Scalar) (p q : Point) (a : Axis) :
    (zipWith f p q).get a = f (p.get a) (q.get a) := by
  cases a <;> rfl

end Point

end BoxTree
