import BoxTree.Proofs.Partition.Pieces
import BoxTree.Proofs.Scalar.Quotients
import BoxTree.Proofs.Scalar.Ranks
import BoxTree.Proofs.Scalar.Zeros
import BoxTree.Proofs.Split.Bins
import BoxTree.Split.Sweep
/-!
# Boxes that are not to be told apart

No plane separates boxes whose centroids are the same on every axis, however much the boxes
themselves differ. Neither search proposes one: the sweep passes no place between different
centroids (`Sweep.cheapest_eq_none`), and the stretch that is to be cut into bins has no length, for
infinite centroids as well (`Bins.cheapest_eq_none`). Sorting leaves such items in their places
(`Item.sortAlong_eq_self`).
-/

namespace BoxTree

/-- Boxes that have the same centroid on each axis. -/
def Box.Coincide (boxes : List Box) : Prop :=
  ∀ a, ∃ c : Scalar, c.isNaN = false ∧ ∀ b ∈ boxes, b.centroid a = c

variable {a : Axis} {c : Scalar} {items : List Item} {boxes : List Box}

/-! ## Sorting -/

/-- Items with one centroid are in order when their places are. -/
theorem Item.sortAlong_eq_self (hn : c.isNaN = false) (hc : ∀ o ∈ items, o.centroid a = c)
    (hplaces : (items.map Item.index).Pairwise (· ≤ ·)) (nans : Item → Axis → Scalar.NaN) :
    sortAlong a items nans = items := by
  rw [List.pairwise_map] at hplaces
  refine List.mergeSort_of_pairwise (hplaces.imp_of_mem fun {o o'} ho ho' hle => ?_)
  simp only [before, hc o ho, hc o' ho', Scalar.rank_of_isNaN_eq_false hn, beq_self_eq_true,
    Bool.true_and, Bool.or_eq_true, decide_eq_true_eq]
  exact .inr hle

/-! ## The sweep -/

namespace Sweep

/-- No place between items with one centroid is kept. -/
theorem Pass.best_foldl_step {p : Pass} {total : Nat} {passed : List (Item × Scalar)}
    (hc : c.isNaN = false) (hpassed : ∀ item ∈ passed, item.1.centroid a = c) (hlast : p.last = c)
    (hbest : p.best = none) : (passed.foldl (Pass.step a total) p).best = none := by
  induction passed generalizing p with
  | nil => exact hbest
  | cons item rest ih =>
    rw [List.forall_mem_cons] at hpassed
    refine ih hpassed.2 hpassed.1 ?_
    have hsame : (c != c) = false := by
      rw [bne, (Scalar.beq_iff_units hc hc).2 rfl]
      rfl
    simp only [Pass.step, hpassed.1, hlast, hsame, Bool.and_false, hbest]
    rfl

/-- **The sweep finds no plane** between items with one centroid. -/
theorem cheapest_eq_none (hc : c.isNaN = false) (hitems : ∀ o ∈ items, o.centroid a = c) :
    cheapest a items = none := by
  have hzip : ∀ item ∈ (items.zip (leftAreas items)).reverse, item.1.centroid a = c :=
    fun item hitem => hitems _ (List.of_mem_zip (List.mem_reverse.1 hitem)).1
  unfold cheapest
  split
  · rfl
  · rename_i last others heq
    rw [heq, List.forall_mem_cons] at hzip
    exact Pass.best_foldl_step hc hzip.2 hzip.1 rfl

end Sweep

/-! ## The bins -/

namespace Bins

variable {bins : Bins} {centers : Box} {nested : Bool} {tasks : Nat} {group : Grouping.Way Item}

/-- Whether a row can be used does not depend on what has fallen into it. -/
theorem valid_addAll (b : Bins) (items : List Item) (a : Axis) :
    ((b.addAll items).rows.get a).valid = (b.rows.get a).valid := by
  rw [get_addAll]
  exact (BinRow.beside_addAll a _ items).valid

theorem valid_ofPieces (count : Nat) (centers : Box) (g : Grouping Item) (a : Axis) :
    ((ofPieces count centers g).rows.get a).valid = ((empty count centers).rows.get a).valid := by
  induction g with
  | nothing => rfl
  | piece items => exact valid_addAll _ items a
  | both first second ih _ =>
    change (((ofPieces count centers first).merge (ofPieces count centers second)).rows.get
      a).valid = _
    rw [get_merge]
    exact ih

theorem valid_gather (h : gather group items centers nested tasks = .ok bins) (a : Axis) :
    (bins.rows.get a).valid = (startRow items.length centers a).valid := by
  have hstart : (empty (countFor items.length) centers).rows.get a =
      startRow items.length centers a := PerAxis.get_tabulate _ a
  simp only [gather] at h
  rw [← hstart]
  split at h
  · obtain ⟨size, -, heq⟩ := bind_eq_ok_iff.1 h
    cases heq
    exact valid_ofPieces _ _ _ a
  · cases h
    exact valid_addAll _ _ a

/-- **No boundary between bins is proposed** where no axis has a stretch to cut. -/
theorem cheapest_eq_none (hcenters : ∀ a, centers.lo.get a = centers.hi.get a)
    (h : gather group items centers nested tasks = .ok bins) : bins.cheapest = none := by
  have hsplits : ∀ a, (bins.rows.get a).splits a = [] := by
    intro a
    have hvalid : (bins.rows.get a).valid = false := by
      rw [valid_gather h, startRow, BinRow.empty, Box.extent, hcenters]
      exact Bool.and_eq_false_iff.2 (.inl (decide_eq_false (Scalar.not_pos_sub_self _)))
    rw [BinRow.splits, hvalid]
    rfl
  simp only [cheapest, Axis.all, List.flatMap_cons, List.flatMap_nil, hsplits, List.nil_append]
  rfl

end Bins

/-! ## The centers -/

namespace Extent

/-- Along an axis an extent spans the centers of one coordinate. -/
def Pinned (e : Extent) (a : Axis) (c : Scalar) : Prop :=
  e.centers.lo.get a = c ∧ e.centers.hi.get a = c

variable {e : Extent} {b : Box}

theorem get_add (e : Extent) (b : Box) (a : Axis) :
    (e.add b).centers.lo.get a = Scalar.lesser (e.centers.lo.get a) (b.centroid a) ∧
      (e.add b).centers.hi.get a = Scalar.greater (e.centers.hi.get a) (b.centroid a) := by
  simp only [add, Box.grow, Point.lesser, Point.greater, Point.get_zipWith, Box.get_center,
    and_self]

/-- The first center pins an extent, since nothing lies beyond the infinities. -/
theorem pinned_first (hc : c.isNaN = false) (hb : b.centroid a = c) : (empty.add b).Pinned a c := by
  have hunits := Scalar.natAbs_units_le c
  have hlo : ¬ Scalar.infinity < c := by
    rw [Scalar.lt_iff_units (by decide) hc, Scalar.units_infinity]
    omega
  have hhi : ¬ c < Scalar.negInfinity := by
    rw [Scalar.lt_iff_units hc (by decide), Scalar.units_negInfinity]
    omega
  obtain ⟨hl, hh⟩ := get_add empty b a
  have hempty : empty.centers.lo.get a = .infinity ∧ empty.centers.hi.get a = .negInfinity := by
    cases a <;> exact ⟨rfl, rfl⟩
  rw [hempty.1, hb, Scalar.lesser, if_neg hlo] at hl
  rw [hempty.2, hb, Scalar.greater, if_neg hhi] at hh
  exact ⟨hl, hh⟩

/-- Further centers of the same coordinate change nothing. -/
theorem Pinned.foldl_add (h : e.Pinned a c) (hboxes : ∀ b ∈ boxes, b.centroid a = c) :
    (boxes.foldl add e).Pinned a c := by
  induction boxes generalizing e with
  | nil => exact h
  | cons b rest ih =>
    rw [List.forall_mem_cons] at hboxes
    obtain ⟨hl, hh⟩ := get_add e b a
    rw [h.1, hboxes.1, Scalar.lesser, ite_self] at hl
    rw [h.2, hboxes.1, Scalar.greater, ite_self] at hh
    exact ih ⟨hl, hh⟩ hboxes.2

end Extent

/-- A coordinate that is undefined leaves no centroid. -/
theorem Box.defined_of_centroid {b : Box} (h : ∀ a, (b.centroid a).isNaN = false) : b.Defined := by
  refine ⟨fun a => ⟨?_, ?_⟩, h⟩
  · rw [← Bool.not_eq_true]
    intro hlo
    have := Scalar.isNaN_mul_of_left (Scalar.isNaN_add_of_left hlo (b.hi.get a)) 0.5
    exact Bool.false_ne_true ((h a).symm.trans this)
  · rw [← Bool.not_eq_true]
    intro hhi
    have := Scalar.isNaN_mul_of_left (Scalar.isNaN_add_of_right (b.lo.get a) hhi) 0.5
    exact Bool.false_ne_true ((h a).symm.trans this)

theorem Box.Coincide.defined (h : Box.Coincide boxes) : ∀ b ∈ boxes, b.Defined := by
  refine fun b hb => Box.defined_of_centroid fun a => ?_
  obtain ⟨c, hc, hboxes⟩ := h a
  rw [hboxes b hb]
  exact hc

/-- **The centers of boxes that coincide** span nothing, on every platform. -/
theorem Box.Coincide.centers_eq (h : Box.Coincide boxes) (hne : boxes ≠ []) (platform : Platform)
    (a : Axis) :
    (platform.extent boxes).centers.lo.get a = (platform.extent boxes).centers.hi.get a := by
  rw [platform.extent_eq h.defined]
  obtain ⟨c, hc, hboxes⟩ := h a
  obtain ⟨b, rest, rfl⟩ := List.exists_cons_of_ne_nil hne
  rw [List.forall_mem_cons] at hboxes
  obtain ⟨hlo, hhi⟩ := (Extent.pinned_first hc hboxes.1).foldl_add hboxes.2
  exact hlo.trans hhi.symm

end BoxTree
