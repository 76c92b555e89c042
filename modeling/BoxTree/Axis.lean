/-!
# Axes

The three coordinate axes, and a value for each of them.
-/

namespace BoxTree

/-- A coordinate axis. -/
inductive Axis where
  | x
  | y
  | z
  deriving DecidableEq, Repr

namespace Axis

/-- The axes in their order. -/
def all : List Axis := [x, y, z]

/-- The number of an axis. -/
def index : Axis → Nat
  | x => 0
  | y => 1
  | z => 2

/-- The axis of a number, if there is one. -/
def ofIndex? : Nat → Option Axis
  | 0 => some x
  | 1 => some y
  | 2 => some z
  | _ => none

@[simp] theorem ofIndex?_index (a : Axis) : ofIndex? a.index = some a := by cases a <;> rfl

/-- What holds of all the axes holds of each of them. -/
theorem all_all_iff {f : Axis → Bool} : all.all f = true ↔ ∀ a, f a = true := by
  rw [List.all_eq_true]
  exact ⟨fun h a => h a (by cases a <;> decide), fun h a _ => h a⟩

end Axis

/-- One value for each axis. -/
structure PerAxis (α : Type) where
  x : α
  y : α
  z : α
  deriving Repr

namespace PerAxis

variable {α β : Type}

/-- The value of an axis. -/
def get (v : PerAxis α) : Axis → α
  | .x => v.x
  | .y => v.y
  | .z => v.z

/-- A value for each axis, computed from the axis. -/
def tabulate (f : Axis → α) : PerAxis α := ⟨f .x, f .y, f .z⟩

/-- A function applied on every axis. -/
def map (f : α → β) (v : PerAxis α) : PerAxis β := ⟨f v.x, f v.y, f v.z⟩

/-- The values in the order of the axes. -/
def toList (v : PerAxis α) : List α := [v.x, v.y, v.z]

@[simp] theorem get_tabulate (f : Axis → α) (a : Axis) : (tabulate f).get a = f a := by
  cases a <;> rfl

@[simp] theorem get_map (f : α → β) (v : PerAxis α) (a : Axis) :
    (v.map f).get a = f (v.get a) := by
  cases a <;> rfl

end PerAxis

end BoxTree
