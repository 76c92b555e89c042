import BoxTree.Proofs.Split.Alike
import BoxTree.Proofs.Split.Sweep
/-!
# Sweeps do not depend on the order of ties

Items with one centroid may follow each other in any order, and their prefixes and suffixes then
hold other boxes. But a sweep keeps no place between two of them. Where two neighbours differ, what
lies in front is what goes left, so the cost of the place is that of its plane (`Behind.best_step`).
Two ascending lists with the same boxes have the same centroids one by one, and their sweeps find
the same plane (`Sweep.cheapest_agree`), be its cost finite or not.
-/

namespace BoxTree

open BoxTree.Partition

variable {a : Axis} {items items' front front' rest rest' : List Item} {o o' d d' : Item}

/-- The centroids of some items along an axis, up to the sign of zeros. -/
def Item.spots (a : Axis) (items : List Item) : List Int := items.map fun o => (o.centroid a).units

/-- **Ascending items with the same boxes** have the same centroids one by one. -/
theorem Item.SameBoxes.spots_eq (h : SameBoxes items items') (ha : Ascending a items)
    (ha' : Ascending a items') : spots a items = spots a items' := by
  have hspots : ∀ items : List Item,
      spots a items = (items.map Item.box).map fun b => (b.centroid a).units := by
    intro items
    rw [List.map_map]
    rfl
  have hperm : (spots a items).Perm (spots a items') := by
    rw [hspots, hspots]
    exact List.Perm.map _ h
  exact hperm.eq_of_pairwise (fun _ _ _ _ hle hge => le_antisymm hle hge)
    (List.pairwise_map.2 ha) (List.pairwise_map.2 ha')

namespace Sweep.Pass

variable {p p' : Pass}

/-- What a pass keeps when it comes from one item to the one before it. -/
def keep (a : Axis) (items : List Item) (o d : Item) (best : Option Split) : Option Split :=
  let cost := Split.factor a (o.centroid a) items
  if cost < (best.map Split.cost).getD .infinity && o.centroid a != d.centroid a then
    some ⟨a, o.centroid a, cost⟩
  else best

/-- **A pass keeps a place at the cost of its plane.** -/
theorem Behind.best_step (h : p.Behind a d rest) (hitems : items = front ++ o :: d :: rest)
    (ha : Item.Ascending a items) (ht : Item.Tame items) :
    (p.step a items.length (o, (Box.around ((front ++ [o]).map Item.box)).halfArea)).best =
      keep a items o d p.best := by
  have hsub : (o :: d :: rest).Sublist items := hitems ▸ List.sublist_append_right _ _
  have hno := ht.isNaN (hsub.subset List.mem_cons_self) a
  have hnd := ht.isNaN (hsub.subset (List.mem_cons_of_mem _ List.mem_cons_self)) a
  obtain ⟨cost, hcost⟩ : ∃ cost, Scalar.ofCount (items.length - p.count) *
      (Box.around ((front ++ [o]).map Item.box)).halfArea +
        Scalar.ofCount p.count * p.right.halfArea = cost := ⟨_, rfl⟩
  simp only [Pass.step, keep, hcost, h.last]
  cases hne : (o.centroid a != d.centroid a) with
  | false =>
    rw [Bool.and_false, Bool.and_false, if_neg Bool.false_ne_true, if_neg Bool.false_ne_true]
  | true =>
    have hle : (o.centroid a).units ≤ (d.centroid a).units :=
      List.rel_of_pairwise_cons (ha.sublist hsub) List.mem_cons_self
    have hunits := (Scalar.bne_iff_units hno hnd).1 hne
    obtain ⟨hleft, hright⟩ := Item.parted_of_units_lt hno hnd (by omega)
    rw [h.factor_eq hitems ha ht hleft hright, hcost]

/-- Passes that have kept splits that are alike do so again between neighbours that are alike. -/
theorem keep_agree (hs : Item.SameBoxes items items') (ht : Item.Tame items)
    (ho : o ∈ items) (hd : d ∈ items) (ho' : o' ∈ items') (hd' : d' ∈ items')
    (hospots : (o.centroid a).units = (o'.centroid a).units)
    (hdspots : (d.centroid a).units = (d'.centroid a).units) {best best' : Option Split}
    (hbest : Split.Agree best best') :
    Split.Agree (keep a items o d best) (keep a items' o' d' best') := by
  have ht' := hs.tame ht
  have hvalue : (o.centroid a).Alike (o'.centroid a) :=
    Scalar.alike_of_units (ht.isNaN ho a) (ht'.isNaN ho' a) hospots
  have hcost := Split.factor_congr hs ht hvalue a
  have hlimit : (best.map Split.cost).getD .infinity = (best'.map Split.cost).getD .infinity := by
    cases hbest with
    | none => rfl
    | some h => exact h.cost
  have hne : (o.centroid a != d.centroid a) = (o'.centroid a != d'.centroid a) := by
    rw [Bool.eq_iff_iff, Scalar.bne_iff_units (ht.isNaN ho a) (ht.isNaN hd a),
      Scalar.bne_iff_units (ht'.isNaN ho' a) (ht'.isNaN hd' a), hospots, hdspots]
  simp only [keep, hcost, hlimit, hne]
  split
  · exact .some ⟨rfl, hvalue, rfl⟩
  · exact hbest

/-- **Two passes over items with the same centroids** keep splits that are alike. -/
theorem Behind.agree (h : p.Behind a d rest) (h' : p'.Behind a d' rest')
    (hitems : items = front ++ d :: rest) (hitems' : items' = front' ++ d' :: rest')
    (hlen : rest.length = rest'.length) (hspots : Item.spots a items = Item.spots a items')
    (hs : Item.SameBoxes items items') (ha : Item.Ascending a items)
    (ha' : Item.Ascending a items') (ht : Item.Tame items) (hbest : Split.Agree p.best p'.best) :
    Split.Agree ((front.zip (leftAreas front)).reverse.foldl (Pass.step a items.length) p).best
      ((front'.zip (leftAreas front')).reverse.foldl (Pass.step a items'.length) p').best := by
  have hfronts : front.length = front'.length := by
    have htotal := hs.length_eq
    rw [hitems, hitems', List.length_append, List.length_append, List.length_cons,
      List.length_cons] at htotal
    omega
  induction front using List.reverseRecOn generalizing front' d d' rest rest' p p' with
  | nil =>
    rw [List.eq_nil_of_length_eq_zero hfronts.symm]
    exact hbest
  | append_singleton front o ih =>
    obtain rfl | ⟨front', o', rfl⟩ := List.eq_nil_or_concat' front'
    · simp at hfronts
    · have hfronts : front.length = front'.length := by simpa using hfronts
      have hcut : items = front ++ o :: d :: rest := by simpa using hitems
      have hcut' : items' = front' ++ o' :: d' :: rest' := by simpa using hitems'
      have ht' := hs.tame ht
      have hsub : (o :: d :: rest).Sublist items := hcut ▸ List.sublist_append_right _ _
      have hsub' : (o' :: d' :: rest').Sublist items' := hcut' ▸ List.sublist_append_right _ _
      -- the neighbours stand at the same indices of lists with the same centroids
      have hneighbours := hspots
      rw [hcut, hcut', Item.spots, Item.spots, List.map_append, List.map_append] at hneighbours
      obtain ⟨-, hrest⟩ := List.append_inj hneighbours (by simpa using hfronts)
      simp only [List.map_cons, List.cons.injEq] at hrest
      have hkeep := keep_agree hs ht (hsub.subset List.mem_cons_self)
        (hsub.subset (List.mem_cons_of_mem _ List.mem_cons_self))
        (hsub'.subset List.mem_cons_self)
        (hsub'.subset (List.mem_cons_of_mem _ List.mem_cons_self)) hrest.1 hrest.2.1 hbest
      rw [← h.best_step hcut ha ht, ← h'.best_step hcut' ha' ht'] at hkeep
      rw [reverse_zip_leftAreas, reverse_zip_leftAreas]
      exact ih (h.step (fun c hc => (ht.finite c (hsub.subset hc)).numeric) _ _)
        (h'.step (fun c hc => (ht'.finite c (hsub'.subset hc)).numeric) _ _) hcut hcut'
        (by simpa using hlen) hkeep hfronts

end Sweep.Pass

/-- **The sweep of an axis is that of the boxes**, in whatever order ties stand. -/
theorem Sweep.cheapest_agree (hs : Item.SameBoxes items items') (ha : Item.Ascending a items)
    (ha' : Item.Ascending a items') (ht : Item.Tame items) :
    Split.Agree (cheapest a items) (cheapest a items') := by
  have hspots := hs.spots_eq ha ha'
  have ht' := hs.tame ht
  rcases List.eq_nil_or_concat' items with rfl | ⟨front, o, rfl⟩
  · have hnil : items' = [] := List.eq_nil_of_length_eq_zero hs.length_eq.symm
    subst hnil
    exact .none
  · rcases List.eq_nil_or_concat' items' with rfl | ⟨front', o', rfl⟩
    · simpa using hs.length_eq
    · rw [cheapest, cheapest, reverse_zip_leftAreas, reverse_zip_leftAreas]
      exact (Pass.behind_start (ht.finite o (by simp)).numeric).agree
        (Pass.behind_start (ht'.finite o' (by simp)).numeric) rfl rfl rfl hspots hs ha ha' ht .none

end BoxTree
