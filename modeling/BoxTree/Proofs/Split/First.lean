import BoxTree.Proofs.Partition.Summary
import BoxTree.Proofs.Split.Planes
/-!
# The first of the cheapest splits

A search comes to its places one after the other. Each of them offers a split or none, and the
better of two splits is the second one only where it is strictly cheaper. So **the best split is the
first of the cheapest** (`Split.exists_first`), as long as every cost is a number. What a search has
costed is `Split.Realised` by a partition when the counts and the boxes it sums up give that cost.
-/

namespace BoxTree

open BoxTree.Partition

namespace Scalar

variable {a b c : Scalar}

/-! Numbers are ordered by their units. -/

theorem le_of_lt (ha : a.isNaN = false) (hb : b.isNaN = false) (h : a < b) : a ≤ b := by
  rw [lt_iff_units ha hb] at h
  rw [le_iff_units ha hb]
  exact h.le

theorem le_of_not_lt (ha : a.isNaN = false) (hb : b.isNaN = false) (h : ¬ b < a) : a ≤ b := by
  rw [lt_iff_units hb ha] at h
  rw [le_iff_units ha hb]
  exact not_lt.1 h

theorem lt_of_lt_of_le (ha : a.isNaN = false) (hb : b.isNaN = false) (hc : c.isNaN = false)
    (hab : a < b) (hbc : b ≤ c) : a < c := by
  rw [lt_iff_units ha hb] at hab
  rw [le_iff_units hb hc] at hbc
  rw [lt_iff_units ha hc]
  exact Int.lt_of_lt_of_le hab hbc

end Scalar

namespace Split

variable {ι : Type} {places : List ι} {offer : ι → Option Split} {s : Split}
  {splits : List (Option Split)} {x y : Option Split}

/-! ## Choosing -/

theorem best_concat (splits : List (Option Split)) (x : Option Split) :
    best (splits ++ [x]) = better (best splits) x := List.foldl_append

theorem better_eq_none : better x y = none ↔ x = none ∧ y = none := by
  cases x with
  | none => simp [better]
  | some s =>
    cases y with
    | none => simp [better]
    | some t =>
      rw [better]
      split <;> simp

/-- There is no best split where there is none at all. -/
theorem best_eq_none : best splits = none ↔ ∀ x ∈ splits, x = none := by
  induction splits using List.reverseRecOn with
  | nil => simp [best]
  | append_singleton splits x ih =>
    rw [best_concat, better_eq_none, ih, List.forall_mem_append, List.forall_mem_singleton]

/-- **The best split** is strictly cheaper than all that were offered before it, and none that was
offered after it is cheaper. -/
theorem exists_first (hn : ∀ x ∈ places, ∀ s, offer x = some s → s.cost.isNaN = false)
    (h : best (places.map offer) = some s) :
    ∃ front x rest, places = front ++ x :: rest ∧ offer x = some s ∧
      (∀ y ∈ front, ∀ t, offer y = some t → s.cost < t.cost) ∧
      ∀ y ∈ rest, ∀ t, offer y = some t → s.cost ≤ t.cost := by
  induction places using List.reverseRecOn generalizing s with
  | nil => cases h
  | append_singleton places z ih =>
    rw [List.forall_mem_append, List.forall_mem_singleton] at hn
    rw [List.map_append, List.map_singleton, best_concat] at h
    cases hbest : best (places.map offer) with
    | none =>
      rw [best_eq_none, List.forall_mem_map] at hbest
      rw [best_eq_none.2 (List.forall_mem_map.2 hbest)] at h
      refine ⟨places, z, [], rfl, h, fun y hy t ht => ?_, by simp⟩
      rw [hbest y hy] at ht
      cases ht
    | some t =>
      rw [hbest] at h
      obtain ⟨front, x, rest, rfl, hx, hfront, hrest⟩ := ih hn.1 hbest
      have htn := hn.1 x (by simp) t hx
      cases hz : offer z with
      | none =>
        rw [hz] at h
        cases h
        refine ⟨front, x, rest ++ [z], by simp, hx, hfront, ?_⟩
        rw [List.forall_mem_append, List.forall_mem_singleton]
        exact ⟨hrest, fun u hu => by rw [hz] at hu; cases hu⟩
      | some u =>
        have hun := hn.2 u hz
        rw [hz, better] at h
        split at h
        · -- the last offer is cheaper than the best before it, and so than all before it
          rename_i hlt
          cases h
          refine ⟨front ++ x :: rest, z, [], rfl, hz, fun y hy v hv => ?_, by simp⟩
          have hvn := hn.1 y hy v hv
          refine Scalar.lt_of_lt_of_le hun htn hvn hlt ?_
          rw [List.mem_append, List.mem_cons] at hy
          rcases hy with hy | rfl | hy
          · exact Scalar.le_of_lt htn hvn (hfront y hy v hv)
          · rw [hx] at hv
            cases hv
            exact (Scalar.le_iff_units htn htn).2 (le_refl _)
          · exact hrest y hy v hv
        · rename_i hge
          cases h
          refine ⟨front, x, rest ++ [z], by simp, hx, hfront, ?_⟩
          rw [List.forall_mem_append, List.forall_mem_singleton]
          refine ⟨hrest, fun v hv => ?_⟩
          rw [hz] at hv
          cases hv
          exact Scalar.le_of_not_lt htn hun hge

/-- **The first place** with the cheapest split, where the places come in an order. -/
theorem exists_first_of_pairwise {r : ι → ι → Prop} (hr : ∀ x y, r x y → ¬ r y x)
    (hplaces : places.Pairwise r)
    (hn : ∀ x ∈ places, ∀ s, offer x = some s → s.cost.isNaN = false)
    (h : best (places.map offer) = some s) :
    ∃ x ∈ places, offer x = some s ∧
      (∀ y ∈ places, ∀ t, offer y = some t → s.cost ≤ t.cost) ∧
      ∀ y ∈ places, r y x → ∀ t, offer y = some t → s.cost < t.cost := by
  obtain ⟨front, x, rest, rfl, hx, hfront, hrest⟩ := exists_first hn h
  have hsn := hn x (by simp) s hx
  refine ⟨x, by simp, hx, fun y hy t ht => ?_, fun y hy hyx t ht => ?_⟩
  · have htn := hn y hy t ht
    rw [List.mem_append, List.mem_cons] at hy
    rcases hy with hy | rfl | hy
    · exact Scalar.le_of_lt hsn htn (hfront y hy t ht)
    · rw [hx] at ht
      cases ht
      exact (Scalar.le_iff_units hsn hsn).2 (le_refl _)
    · exact hrest y hy t ht
  · -- what comes after a place does not come before it
    rw [List.pairwise_append, List.pairwise_cons] at hplaces
    rw [List.mem_append, List.mem_cons] at hy
    rcases hy with hy | rfl | hy
    · exact hfront y hy t ht
    · exact absurd hyx (hr y y hyx)
    · exact absurd hyx (hr x y (hplaces.2.1.1 y hy))

/-! ## What a partition makes of a split -/

/-- The summaries of a partition bear a split out: both sides have items, and their counts and
boxes give the cost of the split, bit for bit. -/
structure Realised (s : Split) (h : Halves) : Prop where
  left : 0 < h.left.count
  right : 0 < h.right.count
  number : s.cost.isNaN = false
  cost : s.cost = Scalar.ofCount h.left.count * h.left.extent.bounds.halfArea +
    Scalar.ofCount h.right.count * h.right.extent.bounds.halfArea

variable {k : Half} {h : Halves} {items l r : List Item}

/-- A summary of items weighs what they weigh. -/
theorem weight_of_sums (hs : k.Sums items) (hn : ∀ o ∈ items, o.box.Numeric) :
    Scalar.ofCount k.count * k.extent.bounds.halfArea = weight items := by
  have hboxes : ∀ b ∈ items.map Item.box, b.Numeric := List.forall_mem_map.2 hn
  obtain ⟨hnumeric, hfaces⟩ := hs.extent.bounds hboxes
  rw [weight, hs.count, Box.halfArea_eq hnumeric (Box.numeric_around hboxes) hfaces]

/-- **A partition into the two sides that were costed** bears the split out. -/
theorem realised_of_sides (hs : Sides h l r) (hl : l ≠ []) (hr : r ≠ [])
    (hln : ∀ o ∈ l, o.box.Numeric) (hrn : ∀ o ∈ r, o.box.Numeric)
    (hcost : s.cost = weight l + weight r) (hnumber : s.cost.isNaN = false) : Realised s h where
  left := hs.1.count ▸ List.length_pos_iff.2 hl
  right := hs.2.count ▸ List.length_pos_iff.2 hr
  number := hnumber
  cost := by rw [weight_of_sums hs.1 hln, weight_of_sums hs.2 hrn, hcost]

end Split

end BoxTree
