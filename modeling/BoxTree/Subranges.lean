import BoxTree.Fault
/-!
# Subranges

Cutting a list into consecutive pieces of one size, the last of which may be shorter, and
writing a list over consecutive entries of an array. Put together in their order, the pieces
are the list again.
-/

namespace BoxTree

variable {α : Type}

/-- The first `k` consecutive pieces of a size. -/
def pieces (size : Nat) : (k : Nat) → List α → List (List α)
  | 0, _ => []
  | k + 1, items => items.take size :: pieces size k (items.drop size)

/-- The consecutive pieces of a size. -/
def subranges (size : Nat) (items : List α) : List (List α) :=
  pieces size ((items.length + size - 1) / size) items

/-- The size of the pieces when a number of items is cut for a number of tasks: the quotient
rounded up, and at least one. Computing it is a fault where the numbers are too large. -/
def subrangeSize (count tasks : Nat) : Except Fault Nat := do
  let sum ← addWithin limit64 count tasks
  pure (max ((sum - 1) / tasks) 1)

/-- An array with a list written over its entries from a place on. What lies behind the end of
the array is dropped. -/
def overwrite (target : Array α) (first : Nat) : List α → Array α
  | [] => target
  | v :: vs => overwrite (target.setIfInBounds first v) (first + 1) vs

theorem flatten_pieces (size k : Nat) (items : List α) :
    (pieces size k items).flatten = items.take (k * size) := by
  induction k generalizing items with
  | zero => simp [pieces]
  | succ k ih =>
    rw [pieces, List.flatten_cons, ih, Nat.succ_mul, Nat.add_comm, List.take_add]

/-- **The pieces are the list.** Nothing is lost, doubled or moved by cutting it. -/
theorem flatten_subranges {size : Nat} (h : 0 < size) (items : List α) :
    (subranges size items).flatten = items := by
  have hle : items.length ≤ (items.length + size - 1) / size * size := by
    have := Nat.lt_div_mul_add (a := items.length + size - 1) h
    omega
  rw [subranges, flatten_pieces, List.take_of_length_le hle]

@[simp] theorem size_overwrite (target : Array α) (first : Nat) (items : List α) :
    (overwrite target first items).size = target.size := by
  induction items generalizing target first with
  | nil => rfl
  | cons v vs ih => rw [overwrite, ih, Array.size_setIfInBounds]

/-- **What an overwritten array holds.** An entry keeps its value where nothing was written
over it. -/
theorem getElem?_overwrite (target : Array α) (first : Nat) (items : List α) (i : Nat) :
    (overwrite target first items)[i]? =
      if i < first then target[i]?
      else if i < target.size then items[i - first]?.or target[i]?
      else none := by
  induction items generalizing target first with
  | nil => rw [overwrite]; grind
  | cons v vs ih => rw [overwrite, ih]; grind

end BoxTree
