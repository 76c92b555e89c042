import BoxTree.Proofs.Asking.Heeds
import BoxTree.Proofs.Box.Union
import BoxTree.Proofs.Groupings
import BoxTree.Proofs.Partition.Stable
import BoxTree.Split.Bins
/-!
# Bins of pieces

Items may be binned in pieces, and the bins of neighbouring pieces merged in whatever order a
runtime comes to them. Bins are unions and counts, so that **merging the bins of two lists is
binning the lists one behind the other**, bit for bit (`Bins.merge_addAll`). Every way to gather the
bins of a range gives those of a single pass over it (`Bins.gather_eq`), and the search with nested
threads is the search without them (`Bins.find_grouped`).
-/

namespace BoxTree

namespace Bin

variable {b c d : Bin}

theorem union_assoc (hb : b.bounds.Numeric) (hc : c.bounds.Numeric) (hd : d.bounds.Numeric) :
    (b.union c).union d = b.union (c.union d) := by
  simp only [union, Box.union_assoc hb hc hd, Nat.add_assoc]

theorem union_empty (hb : b.bounds.Numeric) : b.union empty = b := by
  simp only [union, empty, Box.union_empty hb, Nat.add_zero]

end Bin

/-! ## Rows -/

namespace BinRow

variable {r s start : BinRow} {a : Axis} {c : Scalar} {box : Box} {items items' : List Item}

/-- A row all of whose bins have numbers for coordinates. -/
def Numeric (r : BinRow) : Prop := ∀ b ∈ r.bins, b.bounds.Numeric

/-- Rows that cut the same stretch into as many bins. -/
structure Beside (r s : BinRow) : Prop where
  origin : r.origin = s.origin
  scale : r.scale = s.scale
  width : r.width = s.width
  valid : r.valid = s.valid
  size : r.bins.size = s.bins.size

theorem Beside.refl (r : BinRow) : r.Beside r := ⟨rfl, rfl, rfl, rfl, rfl⟩

theorem Beside.symm (h : r.Beside s) : s.Beside r :=
  ⟨h.origin.symm, h.scale.symm, h.width.symm, h.valid.symm, h.size.symm⟩

theorem Beside.trans (h : r.Beside s) (h' : s.Beside start) : r.Beside start :=
  ⟨h.origin.trans h'.origin, h.scale.trans h'.scale, h.width.trans h'.width,
    h.valid.trans h'.valid, h.size.trans h'.size⟩

theorem Beside.place_eq (h : r.Beside s) : r.place = s.place := by
  funext c
  rw [place, place, h.origin, h.scale, h.size]

theorem add_of_valid (h : r.valid = true) :
    r.add c box = { r with bins := r.bins.modify (r.place c) (·.add box) } := if_pos h

theorem add_of_not_valid (h : r.valid = false) : r.add c box = r := by
  rw [add, h, if_neg Bool.false_ne_true]

/-- Dropping a box changes nothing but the bins. -/
theorem beside_add (r : BinRow) (c : Scalar) (box : Box) : (r.add c box).Beside r := by
  unfold add
  split
  · exact ⟨rfl, rfl, rfl, rfl, Array.size_modify⟩
  · exact .refl r

theorem Numeric.add (hr : r.Numeric) (hbox : box.Numeric) : (r.add c box).Numeric := by
  cases h : r.valid with
  | false => rwa [add_of_not_valid h]
  | true =>
    rw [add_of_valid h]
    intro b hb
    obtain ⟨i, hi, rfl⟩ := Array.mem_iff_getElem.1 hb
    have hin : i < r.bins.size := by simpa using hi
    have hmem := hr _ (Array.getElem_mem hin)
    simp only [Array.getElem_modify]
    split
    · exact hmem.union hbox
    · exact hmem

theorem numeric_empty (count : Nat) (origin extent : Scalar) :
    (empty count origin extent).Numeric := by
  intro b hb
  obtain ⟨-, rfl⟩ := Array.mem_replicate.1 hb
  exact Box.numeric_empty

/-- Items dropped into a row, one after the other. -/
def addAll (a : Axis) (r : BinRow) (items : List Item) : BinRow :=
  items.foldl (fun r o => r.add (o.centroid a) o.box) r

theorem addAll_concat (a : Axis) (r : BinRow) (items : List Item) (o : Item) :
    r.addAll a (items ++ [o]) = (r.addAll a items).add (o.centroid a) o.box := by
  rw [addAll, List.foldl_append]
  rfl

theorem beside_addAll (a : Axis) (r : BinRow) (items : List Item) : (r.addAll a items).Beside r := by
  induction items generalizing r with
  | nil => exact .refl r
  | cons o rest ih => exact (ih _).trans (beside_add r _ _)

theorem Numeric.addAll (hr : r.Numeric) (hn : ∀ o ∈ items, o.box.Numeric) :
    (r.addAll a items).Numeric := by
  induction items generalizing r with
  | nil => exact hr
  | cons o rest ih =>
    rw [List.forall_mem_cons] at hn
    exact ih (hr.add hn.1) hn.2

/-- A row that nothing has fallen into adds nothing. -/
theorem merge_empty {count : Nat} {origin extent : Scalar} (hr : r.Numeric)
    (h : r.bins.size = count) : r.merge (empty count origin extent) = r := by
  have hbins : r.bins.zipWith Bin.union (Array.replicate count .empty) = r.bins := by
    refine Array.ext (by simp [h]) fun i hi hi' => ?_
    rw [Array.getElem_zipWith, Array.getElem_replicate]
    exact Bin.union_empty (hr _ (Array.getElem_mem hi'))
  exact congrArg (fun bins => { r with bins := bins }) hbins

/-- **A box dropped into the second of two rows** might as well be dropped into both together. -/
theorem merge_add (h : r.Beside s) (hr : r.Numeric) (hs : s.Numeric) (hbox : box.Numeric) :
    r.merge (s.add c box) = (r.merge s).add c box := by
  cases hv : s.valid with
  | false =>
    have hvalid : (r.merge s).valid = false := h.valid.trans hv
    rw [add_of_not_valid hv, add_of_not_valid hvalid]
  | true =>
    have hvalid : (r.merge s).valid = true := h.valid.trans hv
    have hplace : (r.merge s).place c = s.place c := by
      rw [← h.place_eq, place, place]
      simp only [merge, Array.size_zipWith, h.size, Nat.min_self]
    rw [add_of_valid hv, add_of_valid hvalid, hplace]
    have hbins : r.bins.zipWith Bin.union (s.bins.modify (s.place c) (·.add box)) =
        (r.bins.zipWith Bin.union s.bins).modify (s.place c) (·.add box) := by
      refine Array.ext (by simp) fun i hi hi' => ?_
      have hsize : i < r.bins.size ∧ i < s.bins.size := by simpa using hi
      have hone : (⟨box, 1⟩ : Bin).bounds.Numeric := hbox
      simp only [Array.getElem_zipWith, Array.getElem_modify]
      split
      · exact (Bin.union_assoc (hr _ (Array.getElem_mem hsize.1))
          (hs _ (Array.getElem_mem hsize.2)) hone).symm
      · rfl
    exact congrArg (fun bins => { r with bins := bins }) hbins

/-- **Rows of two lists together** are the row of the lists one behind the other. -/
theorem merge_addAll {count : Nat} {origin extent : Scalar} (hn : ∀ o ∈ items, o.box.Numeric)
    (hn' : ∀ o ∈ items', o.box.Numeric) :
    ((empty count origin extent).addAll a items).merge
        ((empty count origin extent).addAll a items') =
      (empty count origin extent).addAll a (items ++ items') := by
  have hstart := numeric_empty count origin extent
  have hfirst := beside_addAll a (empty count origin extent) items
  induction items' using List.reverseRecOn with
  | nil =>
    rw [List.append_nil]
    exact merge_empty (hstart.addAll hn) (hfirst.size.trans (by simp [empty]))
  | append_singleton rest o ih =>
    rw [List.forall_mem_append, List.forall_mem_singleton] at hn'
    rw [addAll_concat, merge_add (hfirst.trans (beside_addAll a _ rest).symm) (hstart.addAll hn)
      (hstart.addAll hn'.1) hn'.2, ih hn'.1, ← addAll_concat, List.append_assoc]

end BinRow

/-! ## All axes -/

namespace Bins

variable {σ : Type} {items items' : List Item} {centers : Box} {nested : Bool} {tasks count : Nat}
  {bins : Bins} {group : Grouping.Way Item}

/-- Bins with the same rows are the same. -/
theorem eq_of_rows {b c : Bins} (h : ∀ a, b.rows.get a = c.rows.get a) : b = c := by
  obtain ⟨⟨x, y, z⟩⟩ := b
  obtain ⟨⟨x', y', z'⟩⟩ := c
  obtain ⟨hx, hy, hz⟩ : x = x' ∧ y = y' ∧ z = z' := ⟨h .x, h .y, h .z⟩
  rw [hx, hy, hz]

@[simp] theorem get_empty (count : Nat) (centers : Box) (a : Axis) :
    (empty count centers).rows.get a =
      .empty (clamp count) (centers.lo.get a) (centers.extent a) := PerAxis.get_tabulate _ a

@[simp] theorem get_merge (b c : Bins) (a : Axis) :
    (b.merge c).rows.get a = (b.rows.get a).merge (c.rows.get a) := PerAxis.get_tabulate _ a

@[simp] theorem get_add (b : Bins) (o : Item) (a : Axis) :
    (b.add o).rows.get a = (b.rows.get a).add (o.centroid a) o.box := by
  cases a <;> rfl

@[simp] theorem get_addAll (b : Bins) (items : List Item) (a : Axis) :
    (b.addAll items).rows.get a = (b.rows.get a).addAll a items := by
  induction items generalizing b with
  | nil => rfl
  | cons o rest ih =>
    change ((b.add o).addAll rest).rows.get a = _
    rw [ih, get_add]
    rfl

/-- **Bins of two lists together** are the bins of the lists one behind the other. -/
theorem merge_addAll (hn : ∀ o ∈ items, o.box.Numeric) (hn' : ∀ o ∈ items', o.box.Numeric) :
    ((empty count centers).addAll items).merge ((empty count centers).addAll items') =
      (empty count centers).addAll (items ++ items') := by
  refine eq_of_rows fun a => ?_
  simp only [get_merge, get_addAll, get_empty]
  exact BinRow.merge_addAll hn hn'

/-- **However the pieces are grouped**, their bins are those of all items. -/
theorem ofPieces_eq (g : Grouping Item) (hn : ∀ o ∈ g.pieces.flatten, o.box.Numeric) :
    ofPieces count centers g = (empty count centers).addAll g.pieces.flatten :=
  Grouping.reduce_eq rfl (fun _ _ => merge_addAll) g hn

/-- The pieces of a range are grouped in some way, and all of its items are in them. -/
theorem ofPieces_subranges {size : Nat} (hn : ∀ o ∈ items, o.box.Numeric)
    (hsize : subrangeSize items.length tasks = .ok size) (group : Grouping.Way Item) :
    ofPieces count centers (group (subranges size items)).1 =
      (empty count centers).addAll items := by
  have hpieces := (group (subranges size items)).2
  have hflatten := flatten_subranges (Partition.pos_of_subrangeSize hsize) items
  rw [ofPieces_eq _ (by rwa [hpieces, hflatten]), hpieces, hflatten]

/-- **Every way of gathering gives the bins of a single pass.** -/
theorem gather_eq (hn : ∀ o ∈ items, o.box.Numeric)
    (h : gather group items centers nested tasks = .ok bins) :
    bins = (empty (countFor items.length) centers).addAll items := by
  simp only [gather] at h
  split at h
  · obtain ⟨size, hsize, heq⟩ := bind_eq_ok_iff.1 h
    cases heq
    exact ofPieces_subranges hn hsize group
  · cases h
    rfl

/-- The way of gathering tells nothing about the outcome. -/
theorem gather_congr (hn : ∀ o ∈ items, o.box.Numeric) (group group' : Grouping.Way Item) :
    gather group items centers nested tasks = gather group' items centers nested tasks := by
  simp only [gather]
  split
  · cases hsize : subrangeSize items.length tasks with
    | error f => rfl
    | ok size => rw [ok_bind, ok_bind, ofPieces_subranges hn hsize, ofPieces_subranges hn hsize]
  · rfl

/-- The bins are gathered unless items and tasks are too many to be counted together. -/
theorem gather_ok_iff (group : Grouping.Way Item) (centers : Box) :
    (∃ bins, gather group items centers nested tasks = .ok bins) ↔
      (nested = true → 1 < tasks → items.length + tasks ≤ limit64) := by
  simp only [gather, Bool.and_eq_true, decide_eq_true_eq]
  split
  · rename_i h
    rw [← subrangeSize_ok_iff]
    constructor
    · rintro ⟨bins, hbins⟩ - -
      obtain ⟨size, hsize, -⟩ := bind_eq_ok_iff.1 hbins
      exact ⟨size, hsize⟩
    · intro hok
      obtain ⟨size, hsize⟩ := hok h.1 h.2
      rw [hsize]
      exact ⟨_, rfl⟩
  · rename_i h
    exact ⟨fun _ hn ht => absurd ⟨hn, ht⟩ h, fun _ => ⟨_, rfl⟩⟩

/-- **Nested threads make no difference.** The items may be cut into pieces for any number of tasks,
and the bins of the pieces merged in any grouping, with bins that nothing has fallen into put in
anywhere: the search is the one that bins the items in a single pass, with the same questions asked
and the same split found, bit for bit. Where it is not stopped, and no bin can be given more items
than are counted, it does find its split. -/
theorem find_grouped (hn : ∀ o ∈ items, o.box.Numeric) (hlen : items.length + tasks ≤ limit64)
    (group group' : Grouping.Way Item) (stop : Asking σ Bool) (tasks' : Nat) :
    find stop true tasks items centers group = find stop false tasks' items centers group' ∧
      (items.length ≤ limit32 → (∀ w, (stop.runFrom w).1 = .ok false) → ∃ found, ∀ w,
        ((find stop true tasks items centers group).runFrom w).1 = .ok found) := by
  have hserial : gather group' items centers false tasks' =
      .ok ((empty (countFor items.length) centers).addAll items) := rfl
  have hnested : find stop true tasks items centers group =
      find stop false tasks' items centers group' := by
    obtain ⟨bins, hbins⟩ := (gather_ok_iff group centers).2 fun (_ : true = true) _ => hlen
    rw [find, find, hserial, hbins, gather_eq hn hbins]
  refine ⟨hnested, fun _ hstop => ?_⟩
  rw [hnested]
  by_cases hfew : items.length < 2
  · refine ⟨none, fun w => ?_⟩
    rw [find, if_pos hfew]
    rfl
  · refine ⟨((empty (countFor items.length) centers).addAll items).cheapest, fun w => ?_⟩
    obtain ⟨w₁, hfirst⟩ : ∃ w₁, stop.runFrom w = (.ok false, w₁) := ⟨_, Prod.ext (hstop w) rfl⟩
    obtain ⟨w₂, hsecond⟩ : ∃ w₂, stop.runFrom w₁ = (.ok false, w₂) := ⟨_, Prod.ext (hstop w₁) rfl⟩
    rw [find, if_neg hfew, hserial, Asking.runFrom_bind, hfirst]
    simp only [Bool.false_eq_true, if_false, Asking.ofFault_ok, pure_bind, Asking.runFrom_bind,
      hsecond, Asking.runFrom_pure]

end Bins

/-- Three boxes in a row, the last of them apart. -/
def Item.trio : List Item :=
  ofBoxes [⟨⟨0, 0, 0⟩, ⟨1, 1, 1⟩⟩, ⟨⟨2, 0, 0⟩, ⟨3, 1, 1⟩⟩, ⟨⟨8, 0, 0⟩, ⟨9, 1, 1⟩⟩]

theorem Item.trio_numeric : ∀ o ∈ trio, o.box.Numeric := by
  intro o ho a
  cases a <;> revert o <;> decide

/-- The trio in two pieces, which are put together from the last to the first. -/
theorem Bins.trio_grouped :
    (∀ o ∈ Item.trio, o.box.Numeric) ∧ Item.trio.length + 2 ≤ limit64 ∧
      find (pure false : Asking Unit Bool) true 2 Item.trio (Extent.ofItems Item.trio).centers
          Grouping.fromBehind =
        find (pure false) false 1 Item.trio (Extent.ofItems Item.trio).centers ∧
      ((find (pure false : Asking Unit Bool) true 2 Item.trio (Extent.ofItems Item.trio).centers
          Grouping.fromBehind).runFrom ()).1 = .ok (some ⟨.x, 4.5, 17⟩) := by
  have hfew : Item.trio.length + 2 ≤ limit64 := by decide
  have hnested : find (pure false : Asking Unit Bool) true 2 Item.trio
      (Extent.ofItems Item.trio).centers Grouping.fromBehind =
        find (pure false) false 1 Item.trio (Extent.ofItems Item.trio).centers :=
    (find_grouped Item.trio_numeric hfew _ _ (pure false) 1).1
  refine ⟨Item.trio_numeric, hfew, hnested, ?_⟩
  rw [hnested]
  decide +kernel

end BoxTree
