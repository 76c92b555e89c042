import BoxTree.Proofs.Partition.InPlace
import BoxTree.Proofs.Scalar.Rounding
import BoxTree.Proofs.Split.Boundaries
/-!
# Items that stray

A split between bins is costed for the items up to a bin and those beyond it, but it is handed on as
a plane. The place of an item and the plane are computed apart, and an item on the boundary lies
beyond it and yet goes left. So a partition need not give the sides that were costed, and even one
of them may stay empty (`Item.stepped_strays`). What holds of every split that is found is
`Bins.find_costed`: the sides that were costed are not empty, and they are apart. The plane leaves
something on its left, and **items stray to one side only**. Where none strays, a partition bears
the split out.
-/

namespace BoxTree

open BoxTree.Partition

/-! ## The centers of items -/

/-- The lower corner of a union is that of one of its boxes. -/
theorem Box.exists_lo_eq {boxes : List Box} (hn : ∀ b ∈ boxes, b.Numeric) (hne : boxes ≠ [])
    (a : Axis) : ∃ b ∈ boxes, (Box.around boxes).lo.get a = b.lo.get a := by
  induction boxes using List.reverseRecOn with
  | nil => exact absurd rfl hne
  | append_singleton boxes b ih =>
    rw [List.forall_mem_append, List.forall_mem_singleton] at hn
    have hunion : Box.around (boxes ++ [b]) = (Box.around boxes).union b := List.foldl_append
    rw [hunion, get_lo_union]
    by_cases hnil : boxes = []
    · subst hnil
      refine ⟨b, List.mem_singleton_self b, ?_⟩
      have hempty : (Box.around []).lo.get a = .infinity := get_lo_empty a
      rw [hempty, Scalar.infinity_lesser (hn.2 a).1]
    · obtain ⟨c, hc, heq⟩ := ih hn.1 hnil
      rw [Scalar.lesser]
      split
      · exact ⟨c, List.mem_append_left _ hc, heq⟩
      · exact ⟨b, by simp, rfl⟩

namespace Extent

variable {items : List Item} {o : Item} {a : Axis}

theorem get_spot (b : Box) (a : Axis) :
    b.spot.lo.get a = b.centroid a ∧ b.spot.hi.get a = b.centroid a :=
  ⟨Box.get_center b a, Box.get_center b a⟩

theorem numeric_spots (ht : Item.Tame items) :
    ∀ b ∈ (items.map Item.box).map Box.spot, b.Numeric := by
  rw [List.map_map, List.forall_mem_map]
  exact fun o ho => Box.numeric_spot fun a => ht.isNaN ho a

/-- **The centroids of items lie in the box around their centers.** -/
theorem centroid_mem (ht : Item.Tame items) (ho : o ∈ items) (a : Axis) :
    ((ofItems items).centers.lo.get a).units ≤ (o.centroid a).units ∧
      (o.centroid a).units ≤ ((ofItems items).centers.hi.get a).units := by
  have hmem : o.box.spot ∈ (items.map Item.box).map Box.spot :=
    List.mem_map_of_mem (List.mem_map_of_mem ho)
  obtain ⟨hlo, hhi⟩ := Box.faces_le_around (numeric_spots ht) hmem a
  have hlo : ((Box.around ((items.map Item.box).map Box.spot)).lo.get a).units ≤
      (o.box.spot.lo.get a).units := OrderDual.toDual_le_toDual.1 hlo
  rw [(get_spot o.box a).1] at hlo
  have hhi : (o.box.spot.hi.get a).units ≤
      ((Box.around ((items.map Item.box).map Box.spot)).hi.get a).units := hhi
  rw [(get_spot o.box a).2] at hhi
  rw [ofItems, centers_ofBoxes]
  exact ⟨hlo, hhi⟩

/-- Some item has its centroid at the lower end. -/
theorem exists_centroid_eq (ht : Item.Tame items) (hne : items ≠ []) (a : Axis) :
    ∃ o ∈ items, o.centroid a = (ofItems items).centers.lo.get a := by
  obtain ⟨b, hb, heq⟩ := Box.exists_lo_eq (numeric_spots ht) (by simpa using hne) a
  rw [List.map_map] at hb
  obtain ⟨o, ho, rfl⟩ := List.mem_map.1 hb
  refine ⟨o, ho, ?_⟩
  rw [ofItems, centers_ofBoxes, heq, Function.comp_apply, (get_spot o.box a).1]
  rfl

end Extent

/-! ## Places -/

namespace BinRow

variable {r : BinRow} {a : Axis} {c c' : Scalar} {count b : Nat} {lo hi value : Scalar}
  {items : List Item} {o : Item}

/-- A row over a stretch that can be cut. -/
structure Sound (r : BinRow) : Prop where
  origin : r.origin.isFinite = true
  scale : r.scale.Nonneg
  width : r.width.Nonneg

/-- A centroid within the stretch of a row. -/
structure Reaches (r : BinRow) (c : Scalar) : Prop where
  finite : c.isFinite = true
  above : r.origin.units ≤ c.units
  length : (c - r.origin).isFinite = true

theorem sound_empty (hv : (empty count lo (hi - lo)).valid = true) (hpos : 0 < count)
    (hcount : count < 2 ^ 64) : (empty count lo (hi - lo)).Sound := by
  have hvalid := hv
  change (decide (0 < hi - lo) && (hi - lo).isFinite) = true at hv
  rw [Bool.and_eq_true, decide_eq_true_iff] at hv
  have hextent := Scalar.positive_of_pos hv.1 hv.2
  have hcounted := Scalar.positive_ofCount hpos hcount
  refine ⟨(Scalar.isFinite_of_sub hv.2).2, ?_, ?_⟩
  · have hscale : (empty count lo (hi - lo)).scale = Scalar.ofCount count / (hi - lo) :=
      if_pos hvalid
    rw [hscale]
    exact hcounted.nonneg.div_positive hextent
  · have hwidth : (empty count lo (hi - lo)).width = (hi - lo) / Scalar.ofCount count :=
      if_pos hvalid
    rw [hwidth]
    exact hextent.nonneg.div_positive hcounted

/-- What lies between the ends of a stretch that can be cut is reached. -/
theorem reaches_empty (hv : (empty count lo (hi - lo)).valid = true) (hc : c.isNaN = false)
    (hlo : lo.units ≤ c.units) (hhi : c.units ≤ hi.units) :
    (empty count lo (hi - lo)).Reaches c := by
  change (decide (0 < hi - lo) && (hi - lo).isFinite) = true at hv
  rw [Bool.and_eq_true, decide_eq_true_iff] at hv
  obtain ⟨hhiFinite, hloFinite⟩ := Scalar.isFinite_of_sub hv.2
  have hloUnits := (Scalar.isFinite_iff_units (Scalar.isNaN_of_isFinite hloFinite)).1 hloFinite
  have hhiUnits := (Scalar.isFinite_iff_units (Scalar.isNaN_of_isFinite hhiFinite)).1 hhiFinite
  have hextent := (Scalar.isFinite_iff_units (Scalar.isNaN_of_isFinite hv.2)).1 hv.2
  have hcFinite : c.isFinite = true := (Scalar.isFinite_iff_units hc).2 (by omega)
  refine ⟨hcFinite, hlo, (Scalar.isFinite_iff_units (Scalar.isNaN_sub hcFinite hloFinite)).2 ?_⟩
  -- the differences from the lower end are ordered like the centroids
  have hupper := Scalar.units_sub_mono hcFinite hhiFinite hloFinite hhi
  have hlower := Scalar.units_sub_mono hloFinite hcFinite hloFinite hlo
  rw [Scalar.units_sub hloFinite hloFinite, Int.sub_self, Scalar.fit_zero] at hlower
  omega

/-- **Places keep the order of centroids.** -/
theorem Sound.place_mono (h : r.Sound) (hc : r.Reaches c) (hc' : r.Reaches c')
    (hle : c.units ≤ c'.units) : r.place c ≤ r.place c' := by
  have hlower := Scalar.units_sub_mono h.origin hc.finite h.origin hc.above
  rw [Scalar.units_sub h.origin h.origin, Int.sub_self, Scalar.fit_zero] at hlower
  have hcount := h.scale.toCount_mul_mono hc.length hc'.length hlower
    (Scalar.units_sub_mono hc.finite hc'.finite h.origin hle)
  unfold place
  omega

theorem Beside.sound {s : BinRow} (h : r.Beside s) (hs : s.Sound) : r.Sound :=
  ⟨h.origin ▸ hs.origin, h.scale ▸ hs.scale, h.width ▸ hs.width⟩

theorem Beside.reaches {s : BinRow} (h : r.Beside s) (hs : s.Reaches c) : r.Reaches c :=
  ⟨hs.finite, h.origin ▸ hs.above, h.origin ▸ hs.length⟩

/-- No boundary lies below the stretch. -/
theorem Sound.origin_le (h : r.Sound) (hb : b + 1 < 2 ^ 64) :
    (r.origin + r.width * Scalar.ofCount (b + 1)).isNaN = false ∧
      r.origin.units ≤ (r.origin + r.width * Scalar.ofCount (b + 1)).units :=
  (h.width.mul_positive (Scalar.positive_ofCount (Nat.succ_pos b) hb)).units_le_add h.origin

/-- An item that the plane puts on the other side than the bins do. -/
def Strays (r : BinRow) (a : Axis) (b : Nat) (value : Scalar) (o : Item) : Prop :=
  ¬ (o.goesLeft a value = true ↔ r.place (o.centroid a) ≤ b)

/-- Without strays, the sides of the plane are those of the boundary. -/
theorem sides_of_not_strays (h : ∀ o ∈ items, ¬ r.Strays a b value o) :
    lefts a value items = r.lower a b items ∧ rights a value items = r.upper a b items := by
  have hsame : ∀ o ∈ items, o.goesLeft a value = decide (r.place (o.centroid a) ≤ b) := by
    intro o ho
    rw [Bool.eq_iff_iff, decide_eq_true_iff]
    exact not_not.1 (h o ho)
  refine ⟨List.filter_congr hsame, List.filter_congr fun o ho => ?_⟩
  rw [hsame o ho, ← decide_not, decide_eq_decide, Nat.not_le]

/-- **Items stray to one side only**: of two items the one with the lower centroid goes left with
the other, and lies up to a bin with it. -/
theorem Sound.nested (h : r.Sound) (hn : ∀ o ∈ items, (o.centroid a).isNaN = false)
    (hreach : ∀ o ∈ items, r.Reaches (o.centroid a)) :
    lefts a value items ⊆ r.lower a b items ∨ r.lower a b items ⊆ lefts a value items := by
  by_contra hneither
  rw [not_or] at hneither
  obtain ⟨hl, hr⟩ := hneither
  simp only [List.subset_def, not_forall] at hl hr
  obtain ⟨o, ho, hno⟩ := hl
  obtain ⟨o', ho', hno'⟩ := hr
  simp only [lefts, lower, List.mem_filter, not_and, decide_eq_true_eq] at ho hno ho' hno'
  have hplace := hno ho.1
  have hright := hno' ho'.1
  rcases Int.le_total (o.centroid a).units (o'.centroid a).units with hle | hle
  · have := h.place_mono (hreach o ho.1) (hreach o' ho'.1) hle
    omega
  · exact hright (Item.goesLeft_of_units_le (hn o' ho'.1) (hn o ho.1) hle ho.2)

/-- What holds of a split at a boundary: it was costed for the items up to a bin and those beyond
it, and handed on as a plane. -/
structure Costed (r : BinRow) (items : List Item) (s : Split) (b : Nat) : Prop where
  value : s.value = r.origin + r.width * Scalar.ofCount (b + 1)
  lower : r.lower s.axis b items ≠ []
  upper : r.upper s.axis b items ≠ []
  number : s.cost.isNaN = false
  cost : s.cost =
    Split.weight (r.lower s.axis b items) + Split.weight (r.upper s.axis b items)
  apart : ∀ o ∈ r.lower s.axis b items, ∀ d ∈ r.upper s.axis b items,
    o.centroid s.axis < d.centroid s.axis
  left : lefts s.axis s.value items ≠ []
  nested : lefts s.axis s.value items ⊆ r.lower s.axis b items ∨
    r.lower s.axis b items ⊆ lefts s.axis s.value items
  realised : (∀ o ∈ items, ¬ r.Strays s.axis b s.value o) →
    lefts s.axis s.value items = r.lower s.axis b items ∧
      rights s.axis s.value items = r.upper s.axis b items ∧
      s.Realised (Halves.count s.axis s.value items) ∧
      s.Realised (inPlace s.axis s.value items).2

/-- **The split at a boundary of a sound row** that reaches all items, one of them at its end. -/
theorem Sound.costed {s : Split} (h : r.Sound) (ht : Item.Tame items)
    (hreach : ∀ o ∈ items, r.Reaches (o.centroid s.axis))
    (hfirst : ∃ o ∈ items, o.centroid s.axis = r.origin) (hhouses : r.Houses s.axis items)
    (hb : b < r.bins.size) (hb64 : b + 1 < 2 ^ 64) (hleft : 0 < (r.upTo b).count)
    (hright : 0 < (r.beyond b).count)
    (hvalue : s.value = r.origin + r.width * Scalar.ofCount (b + 1))
    (hcost : s.cost = r.costAt b) : r.Costed items s b := by
  have hn : ∀ o ∈ items, o.box.Numeric := fun o ho => (ht.finite o ho).numeric
  have hc : ∀ o ∈ items, (o.centroid s.axis).isNaN = false := fun o ho => ht.isNaN ho _
  have hnumber := (hhouses.nonneg_costAt hn ht.length hb).isNaN
  rw [← hcost] at hnumber
  rw [hhouses.costAt_eq hn hb] at hcost
  rw [(hhouses.upTo hn hb).count, List.length_pos_iff] at hleft
  rw [(hhouses.beyond hn hb).count, List.length_pos_iff] at hright
  refine ⟨hvalue, hleft, hright, hnumber, hcost, fun o ho d hd => ?_, ?_, h.nested hc hreach,
    fun hnone => ?_⟩
  · -- an item beyond the boundary with a lower centroid would have a lower place
    simp only [lower, upper, List.mem_filter, decide_eq_true_eq] at ho hd
    rw [Scalar.lt_iff_units (hc o ho.1) (hc d hd.1)]
    by_contra hge
    have := h.place_mono (hreach d hd.1) (hreach o ho.1) (not_lt.1 hge)
    omega
  · -- the item at the end of the stretch goes left
    obtain ⟨o, ho, horigin⟩ := hfirst
    refine List.ne_nil_of_mem (List.mem_filter.2 ⟨ho, ?_⟩)
    rw [Item.goesLeft_iff (hc o ho), hvalue, horigin]
    exact h.origin_le hb64
  · obtain ⟨hl, hr⟩ := sides_of_not_strays hnone
    have hrealised : ∀ {k : Halves}, Sides k (lefts s.axis s.value items)
        (rights s.axis s.value items) → s.Realised k := by
      intro k hk
      rw [hl, hr] at hk
      exact Split.realised_of_sides hk hleft hright
        (fun o ho => hn o (List.mem_of_mem_filter ho))
        (fun o ho => hn o (List.mem_of_mem_filter ho)) hcost hnumber
    exact ⟨hl, hr, hrealised (sides_count _ _ _), hrealised (sides_inPlace _ _ _)⟩

end BinRow

/-! ## Splits -/

namespace Bins

variable {σ : Type} {stop : Asking σ Bool} {w : σ} {bins : Bins} {items : List Item}
  {centers : Box} {nested : Bool} {tasks b : Nat} {a : Axis} {s : Split} {group : Grouping.Way Item}

/-- What is found was found in bins that were gathered. -/
theorem gather_of_find
    (h : ((find stop nested tasks items centers group).runFrom w).1 = .ok (some s)) :
    items ≠ [] ∧ ∃ bins, gather group items centers nested tasks = .ok bins ∧
      bins.cheapest = some s := by
  unfold find at h
  split at h
  · cases h
  · rename_i hlen
    refine ⟨List.ne_nil_of_length_pos (by omega), ?_⟩
    rw [Asking.runFrom_bind] at h
    split at h
    · split at h
      · cases h
      · cases hg : gather group items centers nested tasks with
        | error f =>
          rw [hg] at h
          cases h
        | ok bins =>
          rw [hg, Asking.ofFault_ok, pure_bind, Asking.runFrom_bind] at h
          split at h
          · split at h
            · cases h
            · exact ⟨bins, rfl, Except.ok.inj h⟩
          · cases h
    · cases h

/-- The rows of items over the box around their centers are sound and reach all of them. -/
theorem sound_addAll (ht : Item.Tame items) (count : Nat)
    (hv : (((empty count (Extent.ofItems items).centers).addAll items).rows.get a).valid = true) :
    (((empty count (Extent.ofItems items).centers).addAll items).rows.get a).Sound ∧
      ∀ o ∈ items, (((empty count (Extent.ofItems items).centers).addAll items).rows.get
        a).Reaches (o.centroid a) := by
  have hbeside := beside_addAll count (Extent.ofItems items).centers items a
  have hvalid := hbeside.valid.symm.trans hv
  have hpos : 0 < clamp count ∧ clamp count < 2 ^ 64 := by
    unfold clamp maxCount
    omega
  refine ⟨hbeside.sound (BinRow.sound_empty hvalid hpos.1 hpos.2), fun o ho => ?_⟩
  obtain ⟨hlo, hhi⟩ := Extent.centroid_mem ht ho a
  exact hbeside.reaches (BinRow.reaches_empty hvalid (ht.isNaN ho a) hlo hhi)

/-- **Every split that is found between bins.** The items have finite boxes and are binned over the
box around their centers, in one pass or in pieces put together in any way. The sides that were costed are not empty, and a
plane could tell them apart. The plane that is handed on leaves something on its left, and items
stray to one side of it only. Where none strays, both partitions bear the split out. -/
theorem find_costed (ht : Item.Tame items) (h : ((find stop nested tasks items
    (Extent.ofItems items).centers group).runFrom w).1 = .ok (some s)) :
    ∃ b, (((empty (countFor items.length) (Extent.ofItems items).centers).addAll items).rows.get
      s.axis).Costed items s b := by
  obtain ⟨hne, bins, hgather, hcheapest⟩ := gather_of_find h
  have hn : ∀ o ∈ items, o.box.Numeric := fun o ho => (ht.finite o ho).numeric
  rw [gather_eq hn hgather] at hcheapest
  obtain ⟨a, b, hchosen⟩ := exists_chosen hn ht.length (numeric_addAll hn)
    (fun a => houses_addAll hn) hcheapest
  obtain rfl := hchosen.axis
  have hdivides := hchosen.divides
  obtain ⟨hsound, hreaches⟩ := sound_addAll ht (countFor items.length) hdivides.valid
  -- some item has its centroid where the stretch begins
  have hfirst := Extent.exists_centroid_eq ht hne s.axis
  have horigin : (((empty (countFor items.length)
      (Extent.ofItems items).centers).addAll items).rows.get s.axis).origin =
      (Extent.ofItems items).centers.lo.get s.axis := (beside_addAll _ _ items s.axis).origin
  rw [← horigin] at hfirst
  have hmost : clamp (countFor items.length) ≤ maxCount := Nat.min_le_right _ _
  have hfew : b + 1 < maxCount := by
    have hinside := hdivides.inside
    rw [size_addAll] at hinside
    omega
  exact ⟨b, hsound.costed ht hreaches hfirst (houses_addAll hn hdivides.valid)
    (Nat.lt_of_succ_lt hdivides.inside) (hfew.trans (by decide)) hdivides.left hdivides.right
    hchosen.value hchosen.cost⟩

end Bins

/-- Three points that lie one step of the scalars after the other, the last of them with a size
across. -/
def Item.stepped : List Item :=
  ofBoxes [⟨⟨16777216, 0, 0⟩, ⟨16777216, 0, 0⟩⟩, ⟨⟨16777218, 0, 0⟩, ⟨16777218, 0, 0⟩⟩,
    ⟨⟨16777220, -1, -1⟩, ⟨16777220, 1, 1⟩⟩]

/-- **The boundary in front of the last point** is rounded to the point itself. It was costed for
two points on the left and one on the right, and all three go left. -/
theorem Item.stepped_strays :
    (∀ o ∈ stepped, o.box.Finite) ∧
      ((Bins.find (Watch.shouldStop .never) false 1 stepped
        (Extent.ofItems stepped).centers).runFrom {}).1 = .ok (some ⟨.x, 16777220, 4⟩) ∧
      Split.weight (stepped.take 2) + Split.weight (stepped.drop 2) = 4 ∧
      (Halves.count .x 16777220 stepped).right.count = 0 ∧
      (Partition.inPlace .x 16777220 stepped).2.right.count = 0 ∧
      ¬ Split.Realised ⟨.x, 16777220, 4⟩ (Halves.count .x 16777220 stepped) := by
  have hright : (Halves.count .x 16777220 stepped).right.count = 0 := by decide +kernel
  refine ⟨?_, by decide +kernel, by decide +kernel, hright, by decide +kernel, fun h => ?_⟩
  · intro o ho a
    cases a <;> revert o <;> decide
  · exact absurd h.right (by rw [hright]; exact Nat.lt_irrefl 0)

/-- The split of the trio, which is costed for two boxes on the left. -/
theorem Bins.trio_costed :
    Item.Tame Item.trio ∧
      ((find (Watch.shouldStop .never) false 1 Item.trio
        (Extent.ofItems Item.trio).centers).runFrom {}).1 = .ok (some ⟨.x, 4.5, 17⟩) ∧
      ∃ b, (((empty (countFor Item.trio.length) (Extent.ofItems Item.trio).centers).addAll
        Item.trio).rows.get .x).Costed Item.trio ⟨.x, 4.5, 17⟩ b := by
  have ht : Item.Tame Item.trio := by
    refine ⟨fun o ho a => ?_, by decide +kernel⟩
    cases a <;> revert o <;> decide
  have hfound : ((find (Watch.shouldStop .never) false 1 Item.trio
      (Extent.ofItems Item.trio).centers).runFrom {}).1 = .ok (some ⟨.x, 4.5, 17⟩) := by
    decide +kernel
  have hcosted := find_costed ht hfound
  exact ⟨ht, hfound, hcosted⟩

end BoxTree
