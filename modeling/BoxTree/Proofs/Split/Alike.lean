import BoxTree.Proofs.Split.Planes
import Mathlib.Data.List.Forall2
/-!
# What the same boxes have in common

Lists of items may hold the same boxes in another order and under other numbers. The weight of such
lists is the same, and so is the cost factor of a plane. A search may give two of them planes that
differ in the sign of a zero; **splits are alike** (`Split.Alike`) when no item tells them apart,
and the best of alike splits are alike.
-/

namespace BoxTree

open BoxTree.Partition

namespace Item

/-- Items that hold the same boxes, in any order and under any numbers. -/
def SameBoxes (items items' : List Item) : Prop :=
  (items.map Item.box).Perm (items'.map Item.box)

variable {a : Axis} {v v' : Scalar} {items items' items'' others others' : List Item}

theorem SameBoxes.of_perm (h : items.Perm items') : SameBoxes items items' := h.map Item.box

theorem SameBoxes.symm (h : SameBoxes items items') : SameBoxes items' items := List.Perm.symm h

theorem SameBoxes.trans (h : SameBoxes items items') (h' : SameBoxes items' items'') :
    SameBoxes items items'' := List.Perm.trans h h'

theorem SameBoxes.length_eq (h : SameBoxes items items') : items.length = items'.length := by
  simpa using List.Perm.length_eq h

theorem SameBoxes.tame (h : SameBoxes items items') (ht : Tame items) : Tame items' where
  finite o ho := by
    obtain ⟨o', ho', heq⟩ := List.mem_map.1 (h.mem_iff.2 (List.mem_map_of_mem ho))
    exact heq ▸ ht.finite o' ho'
  length := h.length_eq ▸ ht.length

/-- The items with some boxes hold the same of them. -/
theorem SameBoxes.filter (h : SameBoxes items items') (f : Box → Bool) :
    SameBoxes (items.filter fun o => f o.box) (items'.filter fun o => f o.box) := by
  have hfilter : ∀ items : List Item,
      (items.filter fun o => f o.box).map Item.box = (items.map Item.box).filter f := by
    intro items
    rw [List.filter_map]
    rfl
  rw [SameBoxes, hfilter, hfilter]
  exact List.Perm.filter f h

/-- Planes that are alike have the same items on their sides. -/
theorem goesLeft_congr (hv : v.Alike v') (o : Item) : o.goesLeft a v = o.goesLeft a v' :=
  decide_eq_decide.2 (Scalar.Alike.le_iff (.refl _) hv)

/-- **The sides of planes that are alike hold the same boxes.** -/
theorem SameBoxes.sides (h : SameBoxes items items') (hv : v.Alike v') (a : Axis) :
    SameBoxes (lefts a v items) (lefts a v' items') ∧
      SameBoxes (rights a v items) (rights a v' items') := by
  have hl : lefts a v' items' = lefts a v items' :=
    List.filter_congr fun o _ => (goesLeft_congr hv o).symm
  have hr : rights a v' items' = rights a v items' :=
    List.filter_congr fun o _ => by rw [goesLeft_congr hv]
  rw [hl, hr]
  exact ⟨h.filter fun b => b.centroid a ≤ v, h.filter fun b => !(b.centroid a ≤ v)⟩

end Item

namespace Split

variable {a : Axis} {v v' : Scalar} {items items' : List Item}

/-- The weight of items is that of their boxes. -/
theorem weight_congr (h : Item.SameBoxes items items') (ht : Item.Tame items) :
    weight items = weight items' := by
  rw [weight, weight, h.length_eq, Box.halfArea_eq (Box.numeric_around ht.numeric)
    (Box.numeric_around (h.tame ht).numeric) (Box.faces_around_perm ht.numeric h)]

theorem factor_congr (h : Item.SameBoxes items items') (ht : Item.Tame items)
    (hv : v.Alike v') (a : Axis) : factor a v items = factor a v' items' := by
  obtain ⟨hl, hr⟩ := h.sides hv a
  rw [factor, factor, weight_congr hl (ht.sublist List.filter_sublist),
    weight_congr hr (ht.sublist List.filter_sublist)]

/-! ## Splits that are alike -/

/-- Splits of one cost whose planes nothing tells apart. -/
structure Alike (s t : Split) : Prop where
  axis : s.axis = t.axis
  value : s.value.Alike t.value
  cost : s.cost = t.cost

/-- What two searches have found is alike. -/
abbrev Agree (x y : Option Split) : Prop := Option.Rel Alike x y

variable {s t : Split} {x x' y y' : Option Split}

/-- The better of splits is chosen by their costs. -/
theorem Agree.better (hx : Agree x x') (hy : Agree y y') : Agree (better x y) (better x' y') := by
  cases hx with
  | none => exact hy
  | some hs =>
    cases hy with
    | none => exact .some hs
    | some ht =>
      rw [Split.better, Split.better, hs.cost, ht.cost]
      split
      · exact .some ht
      · exact .some hs

/-- **The best of splits that are alike are alike.** -/
theorem Agree.best {splits splits' : List (Option Split)}
    (h : List.Forall₂ Agree splits splits') : Agree (best splits) (best splits') := by
  have hfold : ∀ {x x'}, Agree x x' →
      Agree (splits.foldl Split.better x) (splits'.foldl Split.better x') := by
    induction h with
    | nil => exact id
    | cons hy _ ih => exact fun hx => ih (hx.better hy)
  exact hfold .none

end Split

end BoxTree
