import BoxTree.Proofs.Box.Union
import BoxTree.Proofs.Groupings
import BoxTree.Proofs.Partition.Stable
/-!
# Pieces that are placed at once

Once the pieces of a range are counted, every one of them has its own entries of the destination,
and every entry has one piece that writes it (`Partition.places_inRow`). So it does not matter in
which order the pieces are placed, nor how their writes follow one another
(`Partition.foldl_write_perm`). The summaries of the pieces are put together from the first to the
last, which gives those of a single count, bit for bit (`Halves.foldl_union_count`).
-/

namespace BoxTree

/-! ## Summaries of lists together -/

theorem Extent.ofBoxes_eq (boxes : List Box) :
    ofBoxes boxes = ⟨.around boxes, .around (boxes.map Box.spot)⟩ := by
  rw [← bounds_ofBoxes, ← centers_ofBoxes]

/-- **The extents of two lists** together are the extent of the lists one behind the other. -/
theorem Extent.union_ofBoxes {boxes boxes' : List Box} (h : ∀ b ∈ boxes, b.Defined)
    (h' : ∀ b ∈ boxes', b.Defined) :
    (ofBoxes boxes).union (ofBoxes boxes') = ofBoxes (boxes ++ boxes') := by
  have hspots : ∀ {boxes : List Box}, (∀ b ∈ boxes, b.Defined) →
      ∀ b ∈ boxes.map Box.spot, b.Numeric :=
    fun h => List.forall_mem_map.2 fun b hb => (h b hb).spot
  simp only [ofBoxes_eq, Extent.union]
  rw [Box.union_around (fun b hb => (h b hb).numeric) fun b hb => (h' b hb).numeric,
    Box.union_around (hspots h) (hspots h'), List.map_append]

/-- **No grouping makes a difference** to the extent. -/
theorem Extent.gather_eq {g : Grouping Box} (h : ∀ b ∈ g.pieces.flatten, b.Defined) :
    gather g = ofBoxes g.pieces.flatten :=
  Grouping.reduce_eq rfl (fun _ _ => union_ofBoxes) g h

/-- On every platform the extent is that of one pass. -/
theorem Platform.extent_eq {boxes : List Box} (platform : Platform) (h : ∀ b ∈ boxes, b.Defined) :
    platform.extent boxes = .ofBoxes boxes := by
  have hpieces := (platform.boxes boxes).2
  rw [extent, Extent.gather_eq (by rwa [hpieces]), hpieces]

/-- The bounds are those of one pass even where centroids are not numbers. -/
theorem Extent.bounds_gather {g : Grouping Box} (h : ∀ b ∈ g.pieces.flatten, b.Numeric) :
    (gather g).bounds = .around g.pieces.flatten := by
  have hreduce : ∀ g : Grouping Box, (gather g).bounds = g.reduce Box.union .empty .around := by
    intro g
    induction g with
    | nothing => rfl
    | piece boxes => exact bounds_ofBoxes boxes
    | both first second ih ih' => exact congrArg₂ Box.union ih ih'
  rw [hreduce]
  exact Grouping.reduce_eq rfl (fun _ _ => Box.union_around) g h

theorem Platform.bounds_extent_eq {boxes : List Box} (platform : Platform)
    (h : ∀ b ∈ boxes, b.Numeric) : (platform.extent boxes).bounds = .around boxes := by
  have hpieces := (platform.boxes boxes).2
  rw [extent, Extent.bounds_gather (by rwa [hpieces]), hpieces]

theorem Platform.bounds_extent_nil (platform : Platform) :
    (platform.extent []).bounds = .empty :=
  platform.bounds_extent_eq fun _ hb => absurd hb List.not_mem_nil

theorem Half.union_ofItems {items items' : List Item} (h : ∀ o ∈ items, o.box.Defined)
    (h' : ∀ o ∈ items', o.box.Defined) :
    (ofItems items).union (ofItems items') = ofItems (items ++ items') := by
  simp only [Half.union, ofItems, Extent.ofItems, List.length_append, List.map_append]
  rw [Extent.union_ofBoxes (List.forall_mem_map.2 h) (List.forall_mem_map.2 h')]

namespace Halves

variable {a : Axis} {value : Scalar} {items items' : List Item} {pieces : List (List Item)}

/-- **The counts of two lists** together are the count of the lists one behind the other. -/
theorem union_count (h : ∀ o ∈ items, o.box.Defined) (h' : ∀ o ∈ items', o.box.Defined) :
    (count a value items).union (count a value items') = count a value (items ++ items') := by
  have hleft : ∀ {items : List Item}, (∀ o ∈ items, o.box.Defined) →
      ∀ o ∈ Partition.lefts a value items, o.box.Defined :=
    fun h o ho => h o (List.mem_of_mem_filter ho)
  have hright : ∀ {items : List Item}, (∀ o ∈ items, o.box.Defined) →
      ∀ o ∈ Partition.rights a value items, o.box.Defined :=
    fun h o ho => h o (List.mem_of_mem_filter ho)
  simp only [Partition.count_eq, Halves.union, Partition.lefts_append, Partition.rights_append]
  rw [Half.union_ofItems (hleft h) (hleft h'), Half.union_ofItems (hright h) (hright h')]

/-- **The counts of the pieces**, put together from the first to the last, are the count of all
items. -/
theorem foldl_union_count (h : ∀ o ∈ pieces.flatten, o.box.Defined) :
    (pieces.map (count a value)).foldl Halves.union .empty = count a value pieces.flatten := by
  have hpieces := Grouping.pieces_leftToRight pieces
  have hreduce : (Grouping.leftToRight pieces).reduce Halves.union .empty (count a value) =
      count a value (Grouping.leftToRight pieces).pieces.flatten :=
    Grouping.reduce_eq rfl (fun _ _ => union_count) _ (by rwa [hpieces])
  rw [← Grouping.reduce_leftToRight, hreduce, hpieces]

end Halves

namespace Partition

variable {a : Axis} {value : Scalar} {pieces : List (List Item)} {l r : Nat} {dst : Array Item}

/-! ## Single writes -/

/-- Writes an item to a place of the destination. -/
def write (dst : Array Item) (w : Item × Nat) : Array Item := dst.setIfInBounds w.2 w.1

theorem overwrite_eq_foldl (dst : Array Item) (first : Nat) (items : List Item) :
    overwrite dst first items = (items.zipIdx first).foldl write dst := by
  induction items generalizing dst first with
  | nil => rfl
  | cons o rest ih => exact ih _ _

/-- **Writes to different places may be made in any order.** -/
theorem foldl_write_perm {writes writes' : List (Item × Nat)}
    (hnodup : (writes.map Prod.snd).Nodup) (hp : writes.Perm writes') :
    writes.foldl write dst = writes'.foldl write dst := by
  refine hp.foldl_eq' (fun v hv w hw dst => ?_) dst
  by_cases hplace : v.2 = w.2
  · rw [List.inj_on_of_nodup_map hnodup hv hw hplace]
  · exact Array.setIfInBounds_comm v.1 w.1 hplace

/-- The writes of a placement: its items that go left from the start of its left part on, and all
others from the start of its right part on. -/
def Placement.writes (a : Axis) (value : Scalar) (p : Placement) : List (Item × Nat) :=
  (lefts a value p.items).zipIdx p.slots.left ++ (rights a value p.items).zipIdx p.slots.right

/-- A placement whose parts have the lengths of what goes there, the left one in front. -/
structure Placement.Suits (a : Axis) (value : Scalar) (p : Placement) : Prop where
  left : (lefts a value p.items).length = p.slots.leftCount
  right : (rights a value p.items).length = p.slots.rightCount
  apart : p.slots.left + p.slots.leftCount ≤ p.slots.right

/-- A placement makes its writes. -/
theorem Placement.Suits.run_eq {p : Placement} (h : p.Suits a value) (dst : Array Item) :
    p.run a value dst = .ok ((p.writes a value).foldl write dst) := by
  rw [Placement.run, placeFrom_eq (by simpa using h.left) (by simpa using h.right) h.apart,
    Placement.writes, List.foldl_append, overwrite_eq_foldl, overwrite_eq_foldl]
  rfl

/-- Placements one after the other make their writes one after the other. -/
theorem foldlM_run_eq {order : List Placement} (h : ∀ p ∈ order, p.Suits a value)
    (dst : Array Item) : order.foldlM (Placement.run a value) dst =
      .ok ((order.flatMap (Placement.writes a value)).foldl write dst) := by
  induction order generalizing dst with
  | nil => rfl
  | cons p rest ih =>
    rw [List.forall_mem_cons] at h
    rw [List.foldlM_cons, h.1.run_eq, List.flatMap_cons, List.foldl_append]
    exact ih h.2 _

/-! ## Parts in a row -/

theorem suits_of_mem_inRow (h : l + (lefts a value pieces.flatten).length ≤ r) :
    ∀ p ∈ inRow a value l r pieces, p.Suits a value := by
  induction pieces generalizing l r with
  | nil => exact fun p hp => absurd hp List.not_mem_nil
  | cons items rest ih =>
    rw [List.flatten_cons, lefts_append, List.length_append] at h
    rw [inRow, List.forall_mem_cons]
    refine ⟨⟨rfl, rfl, ?_⟩, ih ?_⟩
    · change l + (lefts a value items).length ≤ r
      omega
    · omega

/-- **Every entry is written once**: those of the left side from its start on, and those of the
right side from its. -/
theorem places_inRow (a : Axis) (value : Scalar) (l r : Nat) (pieces : List (List Item)) :
    (((inRow a value l r pieces).flatMap (Placement.writes a value)).map Prod.snd).Perm
      (List.range' l (lefts a value pieces.flatten).length ++
        List.range' r (rights a value pieces.flatten).length) := by
  induction pieces generalizing l r with
  | nil => exact .refl _
  | cons items rest ih =>
    have hleft := @List.range'_append l (lefts a value items).length
      (lefts a value rest.flatten).length 1
    have hright := @List.range'_append r (rights a value items).length
      (rights a value rest.flatten).length 1
    rw [Nat.one_mul] at hleft hright
    rw [inRow, List.flatMap_cons, List.map_append, Placement.writes, List.map_append,
      List.zipIdx_map_snd, List.zipIdx_map_snd, List.flatten_cons, lefts_append, rights_append,
      List.length_append, List.length_append, ← hleft, ← hright, List.append_assoc,
      List.append_assoc]
    refine ((ih _ _).append_left _).append_left _ |>.trans ?_
    exact List.perm_append_comm_assoc _ _ _ |>.append_left _

/-- **The writes of all pieces lead to the stable partition**, in whatever order they are made. -/
theorem foldl_writes_eq {src : List Item} {size : Nat} {writes : List (Item × Nat)}
    (hsize : 0 < size) (hs : src.length = dst.size)
    (hp : writes.Perm ((inRow a value 0 (lefts a value src).length (subranges size src)).flatMap
      (Placement.writes a value))) :
    writes.foldl write dst = (stable a value src).toArray := by
  have hflat := flatten_subranges hsize src
  have hroom : 0 + (lefts a value (subranges size src).flatten).length ≤
      (lefts a value src).length := by rw [hflat, Nat.zero_add]
  have hplaces := places_inRow a value 0 (lefts a value src).length (subranges size src)
  have hrange := @List.range'_append 0 (lefts a value src).length (rights a value src).length 1
  rw [Nat.one_mul, Nat.zero_add] at hrange
  rw [hflat, hrange] at hplaces
  have hnodup : (writes.map Prod.snd).Nodup :=
    ((hp.map Prod.snd).trans hplaces).nodup_iff.2 List.nodup_range'
  -- in the order of the pieces they are known to do so
  have hrun := @foldlM_run_inRow a value (subranges size src) 0 (lefts a value src).length dst hroom
  rw [foldlM_run_eq (suits_of_mem_inRow hroom), hflat, overwrite_stable hs] at hrun
  rw [foldl_write_perm hnodup hp]
  exact Except.ok.inj hrun

/-- **A partition in pieces is the stable partition**, for any number of tasks that can be counted
together with the items, whatever the destination held before, and whatever order the pieces are
placed in or their single writes are made in. It counts on either side what a single count does, and
finds the same boxes bit for bit unless some box has an undefined coordinate or centroid. -/
theorem inPieces_placed {tasks : Nat} {src : List Item} (hs : src.length = dst.size)
    (htasks : src.length + max tasks 1 ≤ limit64) :
    ∃ jobs halves, allot a value tasks src dst.size = .ok (jobs, halves) ∧
      inPieces a value tasks src dst = .ok ((stable a value src).toArray, halves) ∧
      (∀ order : List Placement, order.Perm jobs →
        order.foldlM (Placement.run a value) dst = .ok (stable a value src).toArray) ∧
      (∀ writes : List (Item × Nat), writes.Perm (jobs.flatMap (Placement.writes a value)) →
        writes.foldl write dst = (stable a value src).toArray) ∧
      halves.left.count = (Halves.count a value src).left.count ∧
      halves.right.count = (Halves.count a value src).right.count ∧
      ((∀ o ∈ src, o.box.Defined) → halves = Halves.count a value src) := by
  obtain ⟨size, hsize⟩ := subrangeSize_ok_iff.2 htasks
  have hpos := pos_of_subrangeSize hsize
  have hflat := flatten_subranges hpos src
  obtain ⟨hleft, hright⟩ := sides_foldl_union a value (subranges size src)
  obtain ⟨hleft', hright'⟩ := sides_count a value src
  rw [hflat] at hleft hright
  refine ⟨_, _, allot_eq hsize hs, inPieces_eq hsize hs, fun order horder => ?_,
    fun writes hwrites => foldl_writes_eq hpos hs hwrites, hleft.count.trans hleft'.count.symm,
    hright.count.trans hright'.count.symm, fun hdefined => ?_⟩
  · have hsuits := @suits_of_mem_inRow a value (subranges size src) 0 (lefts a value src).length
      (by rw [hflat, Nat.zero_add])
    rw [foldlM_run_eq fun p hp => hsuits p (horder.mem_iff.1 hp),
      foldl_writes_eq hpos hs (horder.flatMap_right _)]
  · rw [Halves.foldl_union_count (by rwa [hflat]), hflat]

end Partition

/-- Three boxes in no order, the first of them apart. -/
def Item.scattered : List Item :=
  ofBoxes [⟨⟨8, 0, 0⟩, ⟨9, 1, 1⟩⟩, ⟨⟨0, 0, 0⟩, ⟨1, 1, 1⟩⟩, ⟨⟨2, 0, 0⟩, ⟨3, 1, 1⟩⟩]

theorem Item.scattered_defined : ∀ o ∈ scattered, o.box.Defined := by
  intro o ho
  constructor <;> intro a <;> cases a <;> revert o <;> decide

/-- The scattered boxes in two pieces, the second of which is placed first. -/
theorem Partition.scattered_placed :
    Item.scattered.length = Item.scattered.toArray.size ∧ 3 + max 2 1 ≤ limit64 ∧
      (∀ o ∈ Item.scattered, o.box.Defined) ∧
      ∃ jobs halves, allot .x 4 2 Item.scattered 3 = .ok (jobs, halves) ∧
        jobs.reverse.foldlM (Placement.run .x 4) Item.scattered.toArray =
          .ok (stable .x 4 Item.scattered).toArray ∧
        (stable .x 4 Item.scattered).map Item.index = [1, 2, 0] ∧
        halves = Halves.count .x 4 Item.scattered := by
  have hfew : 3 + max 2 1 ≤ limit64 := by decide
  obtain ⟨jobs, halves, hallot, -, horder, -, -, -, hhalves⟩ :=
    @inPieces_placed .x 4 Item.scattered.toArray 2 Item.scattered rfl hfew
  exact ⟨rfl, hfew, Item.scattered_defined, jobs, halves, hallot, horder _ jobs.reverse_perm,
    by decide +kernel, hhalves Item.scattered_defined⟩

end BoxTree
