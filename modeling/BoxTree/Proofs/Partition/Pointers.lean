import BoxTree.Proofs.Partition.InPlace
import BoxTree.Proofs.Partition.Pieces
/-!
# The two pointers

A partition in place is a loop over two places that close in on each other, with two reads and an
exchange that each need their places to be there (`Partition.closeIn`). They always are, and the
loop does what `Partition.inPlaceFrom` does (`Partition.closeIn_eq`): the item at the right pointer
that is counted after the exchange is the one that was found to go right.
-/

namespace BoxTree

/-- Extents whose boxes have equal corners. -/
structure Extent.Same (e f : Extent) : Prop where
  bounds : e.bounds.sameCorners f.bounds = true
  centers : e.centers.sameCorners f.centers = true

/-- **What spans some boxes is their extent**, up to the sign of zeros. -/
theorem Extent.Spans.same {e : Extent} {boxes : List Box} (h : e.Spans boxes)
    (hdefined : ∀ b ∈ boxes, b.Defined) : e.Same (.ofBoxes boxes) where
  bounds := by
    have hboxes : ∀ b ∈ boxes, b.Numeric := fun b hb => (hdefined b hb).numeric
    obtain ⟨hnumeric, hfaces⟩ := h.bounds hboxes
    obtain ⟨hnumeric', hfaces'⟩ := (Extent.spans_ofBoxes boxes).bounds hboxes
    exact (Box.sameCorners_iff_faces hnumeric hnumeric').2 (hfaces.trans hfaces'.symm)
  centers := by
    have hspots : ∀ b ∈ boxes, b.spot.Numeric := fun b hb => (hdefined b hb).spot
    obtain ⟨hnumeric, hfaces⟩ := h.centers hspots
    obtain ⟨hnumeric', hfaces'⟩ := (Extent.spans_ofBoxes boxes).centers hspots
    exact (Box.sameCorners_iff_faces hnumeric hnumeric').2 (hfaces.trans hfaces'.symm)

namespace Partition

variable {a : Axis} {value : Scalar} {items : Array Item} {i j : Nat}

/-- The item at a place that has to be there. -/
def itemAt (items : Array Item) (i : Nat) : Except Fault Item :=
  match items[i]? with
  | some o => .ok o
  | none => .error (.indexOutOfRange i items.size)

/-- The items at two places that have to be there change places. -/
def exchange (items : Array Item) (i j : Nat) : Except Fault (Array Item) := do
  let _ ← itemAt items i
  let _ ← itemAt items j
  pure (items.swapIfInBounds i j)

/-- Partitions in place what lies between two places. The left pointer passes an item that goes
left. One that goes right is exchanged for the item before the right pointer, which passes it. -/
def closeIn (a : Axis) (value : Scalar) (i j : Nat) (items : Array Item) (h : Halves) :
    Except Fault (Array Item × Halves) := do
  if i < j then
    let o ← itemAt items i
    if o.goesLeft a value then
      closeIn a value (i + 1) j items { h with left := h.left.add o }
    else
      let exchanged ← exchange items i (j - 1)
      let moved ← itemAt exchanged (j - 1)
      closeIn a value i (j - 1) exchanged { h with right := h.right.add moved }
  else pure (items, h)
termination_by j - i

theorem itemAt_eq (h : i < items.size) : itemAt items i = .ok items[i] := by
  rw [itemAt, Array.getElem?_eq_getElem h]

theorem exchange_eq (hi : i < items.size) (hj : j < items.size) :
    exchange items i j = .ok (items.swapIfInBounds i j) := by
  rw [exchange, itemAt_eq hi, itemAt_eq hj]
  rfl

/-- What was found at the left pointer is at the right one after the exchange. -/
theorem itemAt_exchanged (hi : i < items.size) (hj : j < items.size) :
    itemAt (items.swapIfInBounds i j) j = .ok items[i] := by
  have hsize : j < (items.swapIfInBounds i j).size := by rwa [Array.size_swapIfInBounds]
  rw [itemAt_eq hsize, Array.getElem_swapIfInBounds]
  grind

/-- **The two pointers never leave the items**, and close in on each other until they meet. -/
theorem closeIn_eq (k : Nat) (h : Halves) (hroom : i + k ≤ items.size) :
    closeIn a value i (i + k) items h = .ok (inPlaceFrom a value k i items h) := by
  induction k generalizing i items h with
  | zero =>
    rw [closeIn, if_neg (by omega)]
    rfl
  | succ k ih =>
    have hi : i < items.size := by omega
    have hj : i + k < items.size := by omega
    rw [closeIn, if_pos (by omega), itemAt_eq hi, ok_bind, inPlaceFrom,
      Array.getElem?_eq_getElem hi]
    by_cases hgoes : items[i].goesLeft a value = true
    · have hnext : i + (k + 1) = i + 1 + k := by omega
      rw [if_pos hgoes, hnext, ih _ (by omega)]
      simp only [hgoes, if_true, Halves.add]
    · have hlast : i + (k + 1) - 1 = i + k := by omega
      rw [if_neg hgoes, hlast, exchange_eq hi hj, ok_bind, itemAt_exchanged hi hj, ok_bind,
        ih _ (by rw [Array.size_swapIfInBounds]; omega)]
      simp only [hgoes, Halves.add]
      rfl

/-- **A partition in place** meets every item between its two pointers without leaving the items. It
keeps all of them, puts those whose centroid is at most the value in front of all others, counts
both sides, and summarises each by the boxes it then holds, up to the sign of zeros, unless some box
has an undefined coordinate or centroid. -/
theorem inPlace_separated (a : Axis) (value : Scalar) (items : List Item) :
    ∃ ordered halves, closeIn a value 0 items.length items.toArray .empty =
        .ok (ordered.toArray, halves) ∧
      inPlace a value items = (ordered, halves) ∧ ordered.Perm items ∧
      halves.left.count + halves.right.count = items.length ∧
      (∀ o ∈ ordered.take halves.left.count, o.centroid a ≤ value) ∧
      (∀ o ∈ ordered.drop halves.left.count, ¬ o.centroid a ≤ value) ∧
      ((∀ o ∈ items, o.box.Defined) →
        halves.left.extent.Same (.ofItems (ordered.take halves.left.count)) ∧
        halves.right.extent.Same (.ofItems (ordered.drop halves.left.count))) := by
  have hloop := @closeIn_eq a value items.toArray 0 items.length .empty (by simp)
  rw [Nat.zero_add] at hloop
  obtain ⟨l, r, hperm, hl, hr, hordered, hleft, hright⟩ := inPlace_eq a value items
  have htake : (l ++ r).take (inPlace a value items).2.left.count = l := by
    rw [hleft.count, List.take_left]
  have hdrop : (l ++ r).drop (inPlace a value items).2.left.count = r := by
    rw [hleft.count, List.drop_left]
  refine ⟨l ++ r, (inPlace a value items).2, ?_, ?_, hperm, ?_, ?_, ?_, fun hdefined => ?_⟩
  · rw [hloop, ← hordered]
    rfl
  · rw [← hordered]
  · rw [hleft.count, hright.count, ← List.length_append, hperm.length_eq]
  · rw [htake]
    exact fun o ho => of_decide_eq_true (hl o ho)
  · rw [hdrop]
    exact fun o ho hle => hr o ho (decide_eq_true hle)
  · have hboxes : ∀ o ∈ l ++ r, o.box.Defined := fun o ho => hdefined o (hperm.mem_iff.1 ho)
    rw [List.forall_mem_append] at hboxes
    rw [htake, hdrop]
    exact ⟨hleft.extent.same (List.forall_mem_map.2 hboxes.1),
      hright.extent.same (List.forall_mem_map.2 hboxes.2)⟩

/-- The first of the scattered boxes goes right, and is exchanged for the last one. -/
theorem scattered_separated :
    (∀ o ∈ Item.scattered, o.box.Defined) ∧
      ∃ ordered halves, inPlace .x 4 Item.scattered = (ordered, halves) ∧
        ordered.map Item.index = [2, 1, 0] ∧ halves.left.count = 2 ∧
        halves.left.extent.Same (.ofItems (ordered.take halves.left.count)) := by
  obtain ⟨ordered, halves, -, hplace, -, -, -, -, hsame⟩ := inPlace_separated .x 4 Item.scattered
  have hrun : (inPlace .x 4 Item.scattered).1.map Item.index = [2, 1, 0] ∧
      (inPlace .x 4 Item.scattered).2.left.count = 2 := by decide +kernel
  rw [hplace] at hrun
  exact ⟨Item.scattered_defined, ordered, halves, hplace, hrun.1, hrun.2,
    (hsame Item.scattered_defined).1⟩

end Partition

end BoxTree
