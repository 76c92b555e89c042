import BoxTree.Fault
import BoxTree.Item
import BoxTree.Subranges
/-!
# Object buffers

The arrays a build reorders: one array for every sorted axis of an exact build, a single one
for a binned build, and a second buffer of each that partitions may write into. A range of the
build lies on one of the two sides.
-/

namespace BoxTree

/-- Which of the two buffers holds a range. -/
inductive Side where
  | front
  | back
  deriving DecidableEq, Repr

namespace Side

/-- The side a partition writes to. -/
def other : Side → Side
  | front => back
  | back => front

@[simp] theorem other_other (s : Side) : s.other.other = s := by cases s <;> rfl

end Side

/-- The object arrays of a build. The back side has no array at all when there is no second
buffer. -/
structure Buffers where
  front : Array (Array Item)
  back : Array (Array Item)

namespace Buffers

/-- The buffers of a build that has failed: nothing is read from them again. -/
def released : Buffers := ⟨#[], #[]⟩

/-- Buffers over arrays of one length, with or without the second buffer. -/
def ofArrays (arrays : List (List Item)) (second : Bool) : Except Fault Buffers :=
  let length := (arrays.head?.map List.length).getD 0
  if arrays.all fun a => a.length = length then
    let arrays := (arrays.map List.toArray).toArray
    .ok ⟨arrays, if second then arrays else #[]⟩
  else .error (.assertion "the arrays differ in length")

/-- Whether there is a second buffer. -/
def hasBack (b : Buffers) : Bool := !b.back.isEmpty

/-- The arrays of a side; the back side cannot be asked for without a second buffer. -/
def side (b : Buffers) : Side → Except Fault (Array (Array Item))
  | .front => .ok b.front
  | .back =>
    if b.hasBack then .ok b.back else .error (.assertion "second buffer was not allocated")

/-- An element of a list of arrays. -/
def arrayAt (arrays : Array (Array Item)) (array : Nat) : Except Fault (Array Item) :=
  match arrays[array]? with
  | some items => .ok items
  | none => .error (.indexOutOfRange array arrays.size)

/-- Checks that a range lies inside an array. -/
def checkRange (items : Array Item) (first last : Nat) : Except Fault Unit :=
  if first ≤ last && last ≤ items.size then .ok ()
  else .error (.rangeOutOfRange first last items.size)

/-- The items of a range. -/
def view (b : Buffers) (s : Side) (array first last : Nat) : Except Fault (Array Item) := do
  let items ← arrayAt (← b.side s) array
  checkRange items first last
  pure (items.extract first last)

/-- The buffers with the items of a range replaced. -/
def put (b : Buffers) (s : Side) (array first : Nat) (items : List Item) :
    Except Fault Buffers := do
  let target ← arrayAt (← b.side s) array
  checkRange target first (first + items.length)
  let change (arrays : Array (Array Item)) : Array (Array Item) :=
    arrays.modify array fun old => overwrite old first items
  match b, s with
  | ⟨front, back⟩, .front => pure ⟨change front, back⟩
  | ⟨front, back⟩, .back => pure ⟨front, change back⟩

/-- Brings the final order of a range to the front side: the first array is copied over if the
range lies on the back. -/
def settle (b : Buffers) (s : Side) (first last : Nat) : Except Fault Buffers :=
  match s with
  | .front => .ok b
  | .back => do
    let source ← arrayAt b.back 0
    checkRange source first last
    b.put .front 0 first (source.extract first last).toList

end Buffers

end BoxTree
