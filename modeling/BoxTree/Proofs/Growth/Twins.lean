import BoxTree.Proofs.Growth.Matches
import BoxTree.Proofs.Growth.Splits
import BoxTree.Proofs.Split.Bins
import BoxTree.Proofs.Split.Ties
/-!
# Plots over the same boxes

Two plots are twins when they cover the same range at the same depth, and hold the same finite boxes
as long as they are searched; the boxes may stand in another order, under other numbers and on
another side of the buffers. Searches and partitions see nothing but the boxes, up to the sign of
zeros. So twins take the same decisions, also under plans that search on other threads, and their
parts are twins again (`Plan.move_twins`). Twins that are halved need no boxes in common: a cut
looks at the size alone.
-/

namespace BoxTree

open BoxTree.Partition

/-- Plans that search in the same way and judge alike what they find. -/
structure Plan.Akin (p p' : Plan) : Prop where
  search : p.search = p'.search
  leafThreshold : p.settings.leafThreshold = p'.settings.leafThreshold
  maxPerLeaf : p.settings.maxPerLeaf = p'.settings.maxPerLeaf
  intersectionCost : p.settings.intersectionCost = p'.settings.intersectionCost

/-- Plots of two builds over the same finite boxes. -/
structure Plot.Twins (p p' : Plan) (back back' : Bool) (n : Nat) (q q' : Plot) : Prop where
  level : q.region.Level q'.region
  halved : q.halved = q'.halved
  left : q.Ordered p back n
  right : q'.Ordered p' back' n
  tame : Item.Tame q.stock.order
  boxes : q.halved = false → Item.SameBoxes q.stock.order q'.stock.order

/-- Decisions that do the same, dividing by planes that are alike. -/
inductive Decision.Agree : Decision → Decision → Prop where
  | leaf (reason : LeafReason) : Agree (.leaf reason) (.leaf reason)
  | divide {s s' : Split} (h : s.Alike s') : Agree (.divide s) (.divide s')
  | giveUp : Agree .giveUp .giveUp
  | cut : Agree .cut .cut

variable {p p' : Plan} {back back' : Bool} {n : Nat} {q q' : Plot} {d d' : Decision} {m m' : Move}
  {s s' : Split} {e e' : Extent} {items items' : List Item} {stock stock' : Stock}

/-! ## Extents -/

theorem Item.Tame.numeric_spot (h : Item.Tame items) :
    ∀ b ∈ items.map Item.box, b.spot.Numeric := by
  rw [List.forall_mem_map]
  exact fun o ho => Box.numeric_spot fun a => h.isNaN ho a

/-- Extents of the same boxes have the same area. -/
theorem Extent.Spans.surfaceArea_eq (h : e.Spans (items.map Item.box))
    (h' : e'.Spans (items'.map Item.box)) (hs : Item.SameBoxes items items')
    (ht : Item.Tame items) : e.bounds.surfaceArea = e'.bounds.surfaceArea := by
  obtain ⟨hn, hfaces⟩ := h.bounds ht.numeric
  obtain ⟨hn', hfaces'⟩ := h'.bounds (hs.tame ht).numeric
  rw [Box.surfaceArea, Box.surfaceArea, Box.halfArea_eq hn hn'
    (hfaces.trans ((Box.faces_around_perm ht.numeric hs).trans hfaces'.symm))]

/-- Extents of the same boxes have their centers in the same box. -/
theorem Extent.Spans.centers_eq (h : e.Spans (items.map Item.box))
    (h' : e'.Spans (items'.map Item.box)) (hs : Item.SameBoxes items items')
    (ht : Item.Tame items) :
    e.centers.Numeric ∧ e'.centers.Numeric ∧ e.centers.faces = e'.centers.faces := by
  obtain ⟨hn, hfaces⟩ := h.centers ht.numeric_spot
  obtain ⟨hn', hfaces'⟩ := (h'.perm hs.symm).centers ht.numeric_spot
  exact ⟨hn, hn', hfaces.trans hfaces'.symm⟩

namespace Plan

/-! ## Decisions -/

theorem Akin.cost_eq (hp : p.Akin p') : p.cost = p'.cost := congrArg Cost.mk hp.intersectionCost

/-- **Searches of twins find splits that are alike.** -/
theorem found_agree (hp : p.Akin p') (hq : q.Twins p p' back back' n q') (hwhole : q.halved = false)
    {found found' : Option Split} (h : p.found q.region q.stock = .ok found)
    (h' : p'.found q'.region q'.stock = .ok found') : Split.Agree found found' := by
  have hs := hq.boxes hwhole
  have ht := hq.tame
  have hleft := hq.left
  have hright := hq.right
  have hsuits := hleft.sound.suits
  have hsuits' := hright.sound.suits
  rw [← hp.search] at hsuits'
  have hcoherent := hleft.sound.coherent hwhole
  have hcoherent' := hright.sound.coherent (hq.halved ▸ hwhole)
  have hcenters := hleft.sound.spans.centers_eq hright.sound.spans hs ht
  have hsorted := hleft.sorted
  have hsorted' := hright.sorted
  clear hleft hright
  obtain ⟨r, halved, stock⟩ := q
  obtain ⟨r', halved', stock'⟩ := q'
  simp only at *
  cases hsearch : p.search with
  | exact =>
    rw [hsearch] at hsuits hsuits'
    obtain ⟨v, rfl⟩ := hsuits.exists_sorted
    obtain ⟨v', rfl⟩ := hsuits'.exists_sorted
    cases h
    cases h'
    have haxis : ∀ a, Split.Agree (Sweep.cheapest a (v.get a)) (Sweep.cheapest a (v'.get a)) := by
      intro a
      have hboxes : Item.SameBoxes (v.get a) (v'.get a) :=
        ((Item.SameBoxes.of_perm (hcoherent a)).trans hs).trans (.of_perm (hcoherent' a).symm)
      have htame : Item.Tame (v.get a) := ht.perm (hcoherent a).symm
      exact Sweep.cheapest_agree hboxes ((hsorted a).ascending htame)
        ((hsorted' a).ascending (hboxes.tame htame)) htame
    exact Split.Agree.best (.cons (haxis .x) (.cons (haxis .y) (.cons (haxis .z) .nil)))
  | binning =>
    rw [hsearch] at hsuits hsuits'
    obtain ⟨items, rfl⟩ := hsuits.exists_single
    obtain ⟨items', rfl⟩ := hsuits'.exists_single
    have hlen : items.length = items'.length := hs.length_eq
    simp only [Plan.found] at h h'
    rw [← hlen] at h'
    split at h
    · rename_i hfew
      rw [if_pos hfew] at h'
      cases h
      cases h'
      exact .none
    · rename_i hmany
      rw [if_neg hmany] at h'
      obtain ⟨bins, hbins, rfl⟩ := map_eq_ok_iff.1 h
      obtain ⟨bins', hbins', rfl⟩ := map_eq_ok_iff.1 h'
      exact Bins.cheapest_agree hs ht hcenters.1 hcenters.2.1 hcenters.2.2 hbins hbins'

/-- Twins judge alike what they have found. -/
theorem judged_agree (hp : p.Akin p') (hq : q.Twins p p' back back' n q')
    (hwhole : q.halved = false) {found found' : Option Split} (h : Split.Agree found found') :
    Decision.Agree (p.judged q.region found) (p'.judged q'.region found') := by
  cases h with
  | none => exact .giveUp
  | @some s s' h =>
    have harea := hq.left.sound.spans.surfaceArea_eq hq.right.sound.spans (hq.boxes hwhole) hq.tame
    simp only [judged, hp.cost_eq, h.cost, harea, hq.level.size_eq, hp.maxPerLeaf]
    split
    · exact .leaf _
    · exact .divide h

/-- **Twins take the same decisions.** -/
theorem verdict_agree (hp : p.Akin p') (hq : q.Twins p p' back back' n q')
    (h : p.verdict q = .ok d) (h' : p'.verdict q' = .ok d') : d.Agree d' := by
  have hsize := hq.level.size_eq
  have hdepth := hq.level.depth
  unfold verdict at h h'
  rw [← hq.halved, ← hsize, ← hdepth, ← hp.maxPerLeaf, ← hp.leafThreshold] at h'
  split at h
  · rename_i hhalved
    rw [if_pos hhalved] at h'
    cases h
    cases h'
    split
    · exact .leaf _
    · exact .cut
  · rename_i hhalved
    rw [if_neg hhalved] at h'
    split at h
    · rename_i hsmall
      rw [if_pos hsmall] at h'
      cases h
      cases h'
      exact .leaf _
    · rename_i hlarge
      rw [if_neg hlarge] at h'
      split at h
      · rename_i hdeep
        rw [if_pos hdeep] at h'
        cases h
        cases h'
        exact .leaf _
      · rename_i hshallow
        rw [if_neg hshallow] at h'
        have hwhole : q.halved = false := by simpa using hhalved
        obtain ⟨found, hfound, rfl⟩ := map_eq_ok_iff.1 h
        obtain ⟨found', hfound', rfl⟩ := map_eq_ok_iff.1 h'
        exact judged_agree hp hq hwhole (found_agree hp hq hwhole hfound hfound')

/-! ## Partitions -/

/-- Items dealt out to the sides of a plane are those the sides have. -/
theorem sides_perm {a : Axis} {value : Scalar} {l r : List Item} (h : (l ++ r).Perm items)
    (hl : ∀ o ∈ l, o.goesLeft a value = true) (hr : ∀ o ∈ r, ¬ o.goesLeft a value = true) :
    l.Perm (lefts a value items) ∧ r.Perm (rights a value items) := by
  have hlefts := h.filter (Item.goesLeft a value)
  have hrights := h.filter fun o => !o.goesLeft a value
  rw [List.filter_append, List.filter_eq_self.2 hl, List.filter_eq_nil_iff.2 hr,
    List.append_nil] at hlefts
  rw [List.filter_append, List.filter_eq_nil_iff.2 (by simpa using hl),
    List.filter_eq_self.2 (by simpa using hr), List.nil_append] at hrights
  exact ⟨hlefts, hrights⟩

/-- **Every partition deals out the items to their sides of the plane.** -/
theorem dealt_perm {r : Region} {h : Halves} (hsuits : stock.Suits p.search) (hc : stock.Coherent)
    (hd : p.dealt back r s stock = .ok (stock', h)) :
    (stock'.order.take h.left.count).Perm (lefts s.axis s.value stock.order) ∧
      (stock'.order.drop h.left.count).Perm (rights s.axis s.value stock.order) := by
  cases stock with
  | sorted v =>
    have hexact : p.search = .exact := by
      cases hsearch : p.search with
      | exact => rfl
      | binning =>
        rw [hsearch] at hsuits
        exact hsuits.elim
    obtain ⟨hl, hr, -⟩ := dealt_sides hexact hsuits hc hd
    rw [Stock.order_map] at hl hr
    exact ⟨.of_eq hl, .of_eq hr⟩
  | single items =>
    rw [dealt] at hd
    split at hd
    · obtain ⟨size, hsize, heq⟩ := map_eq_ok_iff.1 hd
      obtain ⟨rfl, rfl⟩ := Prod.mk.inj heq
      have hsides := sides_foldl_union s.axis s.value (subranges size items)
      rw [flatten_subranges (pos_of_subrangeSize hsize)] at hsides
      rw [hsides.1.count]
      exact ⟨.of_eq (take_stable items), .of_eq (drop_stable items)⟩
    · obtain ⟨rfl, rfl⟩ := Prod.mk.inj (Except.ok.inj hd)
      obtain ⟨l, r, hperm, hl, hr, heq, hsides⟩ := inPlace_eq s.axis s.value items
      simp only [heq, Stock.order]
      rw [hsides.1.count, List.take_left, List.drop_left]
      exact sides_perm hperm hl hr

/-- Partitions of twins deal out the same boxes. -/
theorem dealt_twins (hq : q.Twins p p' back back' n q') (hwhole : q.halved = false)
    (hs : s.Alike s') {h h' : Halves} (hd : p.dealt back q.region s q.stock = .ok (stock, h))
    (hd' : p'.dealt back' q'.region s' q'.stock = .ok (stock', h')) :
    h.left.count = h'.left.count ∧ h.right.count = h'.right.count ∧
      Item.SameBoxes (stock.order.take h.left.count) (stock'.order.take h'.left.count) ∧
      Item.SameBoxes (stock.order.drop h.left.count) (stock'.order.drop h'.left.count) := by
  have hwhole' : q'.halved = false := hq.halved ▸ hwhole
  have hdeals := dealt_deals hq.left.sound.suits (hq.left.sound.coherent hwhole) hd
  have hdeals' := dealt_deals hq.right.sound.suits (hq.right.sound.coherent hwhole') hd'
  obtain ⟨hl, hr⟩ := dealt_perm hq.left.sound.suits (hq.left.sound.coherent hwhole) hd
  obtain ⟨hl', hr'⟩ := dealt_perm hq.right.sound.suits (hq.right.sound.coherent hwhole') hd'
  obtain ⟨hlefts, hrights⟩ := (hq.boxes hwhole).sides hs.value s.axis
  rw [← hs.axis] at hl' hr'
  have hleft := ((Item.SameBoxes.of_perm hl).trans hlefts).trans (.of_perm hl'.symm)
  have hright := ((Item.SameBoxes.of_perm hr).trans hrights).trans (.of_perm hr'.symm)
  refine ⟨?_, ?_, hleft, hright⟩
  · rw [hdeals.left.count, hdeals'.left.count]
    exact hleft.length_eq
  · rw [hdeals.right.count, hdeals'.right.count]
    exact hright.length_eq

end Plan

/-! ## Moves -/

/-- Twins are halved as twins. -/
theorem Plot.Twins.halve (hq : q.Twins p p' back back' n q')
    (hl : Plot.Ordered p back n ⟨q.region, true, stock⟩)
    (hr : Plot.Ordered p' back' n ⟨q'.region, true, stock'⟩)
    (hperm : stock.order.Perm q.stock.order) :
    Plot.Twins p p' back back' n ⟨q.region, true, stock⟩ ⟨q'.region, true, stock'⟩ :=
  ⟨hq.level, rfl, hl, hr, hq.tame.perm hperm.symm, nofun⟩

/-- What a fork of a plot leaves. -/
structure Plot.Parts (p : Plan) (back : Bool) (n : Nat) (q left right : Plot) : Prop where
  forks : q.Forks left right
  left : left.Ordered p back n
  right : right.Ordered p back n

variable {left right left' right' : Plot}

/-- **Parts of twins are twins** when they meet at the same place and hold the same boxes. -/
theorem Plot.Twins.parts (hq : q.Twins p p' back back' n q')
    (h : q.Parts p back n left right) (h' : q'.Parts p' back' n left' right')
    (hmid : left.region.last = left'.region.last)
    (hhalved : left.halved = left'.halved ∧ right.halved = right'.halved)
    (hl : left.halved = false → Item.SameBoxes left.stock.order left'.stock.order)
    (hr : right.halved = false → Item.SameBoxes right.stock.order right'.stock.order) :
    left.Twins p p' back back' n left' ∧ right.Twins p p' back back' n right' := by
  obtain ⟨hf, hleft, hright⟩ := h
  obtain ⟨hf', hleft', hright'⟩ := h'
  have ht : Item.Tame (left.stock.order ++ right.stock.order) := hq.tame.perm hf.items.symm
  refine ⟨⟨⟨?_, hmid, ?_⟩, hhalved.1, hleft, hleft', ht.sublist (List.sublist_append_left _ _), hl⟩,
    ⟨⟨?_, ?_, ?_⟩, hhalved.2, hright, hright', ht.sublist (List.sublist_append_right _ _), hr⟩⟩
  · rw [hf.first, hf'.first, hq.level.first]
  · rw [hf.leftDepth, hf'.leftDepth, hq.level.depth]
  · rw [← hf.mid, ← hf'.mid, hmid]
  · rw [hf.last, hf'.last, hq.level.last]
  · rw [hf.rightDepth, hf'.rightDepth, hq.level.depth]

namespace Plan

/-- **Twins make the same moves**, and their parts are twins. Plans with the same size of tasks
build the same parts apart. -/
theorem move_twins (hp : p.Akin p') (hu : p.Usable back) (hu' : p'.Usable back') {E : Prop}
    (hE : E → p.settings.taskThreshold = p'.settings.taskThreshold)
    (hq : q.Twins p p' back back' n q') (h : p.move back q = .ok m)
    (h' : p'.move back' q' = .ok m') :
    Move.Matches (Plot.Twins p p' back back' n) E q q' m m' := by
  have hpasses := passes_sorted hu q m hq.left h
  have hpasses' := passes_sorted hu' q' m' hq.right h'
  have hsound := move_sound hu hq.left.sound h
  have hsound' := move_sound hu' hq.right.sound h'
  obtain ⟨d, hv, ha⟩ := bind_eq_ok_iff.1 h
  obtain ⟨d', hv', ha'⟩ := bind_eq_ok_iff.1 h'
  cases verdict_agree hp hq hv hv' with
  | leaf reason =>
    cases ha
    cases ha'
    exact .leaf reason
  | giveUp =>
    cases ha
    cases ha'
    exact .halve (hq.halve hpasses hpasses' (.refl _))
  | cut =>
    cases ha
    cases ha'
    have hmid : q.region.first + q.region.size / 2 = q'.region.first + q'.region.size / 2 := by
      rw [hq.level.first, hq.level.size_eq]
    obtain ⟨hl, hr⟩ := hq.parts ⟨hsound.2.2, hpasses.1, hpasses.2⟩
      ⟨hsound'.2.2, hpasses'.1, hpasses'.2⟩ hmid ⟨rfl, rfl⟩ nofun nofun
    exact .fork (fun _ => rfl) hl hr
  | @divide s s' hs =>
    have hwhole := whole_of_verdict hv nofun nofun
    obtain ⟨⟨stock, halves⟩, hd, rfl⟩ := map_eq_ok_iff.1 ha
    obtain ⟨⟨stock', halves'⟩, hd', rfl⟩ := map_eq_ok_iff.1 ha'
    obtain ⟨hcount, hcount', hleft, hright⟩ := dealt_twins hq hwhole hs hd hd'
    have hdegenerate : halves.isDegenerate = halves'.isDegenerate := by
      rw [Halves.isDegenerate, Halves.isDegenerate, hcount, hcount']
    simp only [divided, ← hdegenerate] at hpasses hpasses' hsound hsound' ⊢
    by_cases hboth : halves.isDegenerate = true
    · simp only [hboth, if_true] at hpasses hpasses' hsound hsound' ⊢
      exact .halve (hq.halve hpasses hpasses' hsound.2)
    · simp only [hboth] at hpasses hpasses' hsound hsound' ⊢
      have hmid : q.region.first + halves.left.count = q'.region.first + halves'.left.count := by
        rw [hq.level.first, hcount]
      obtain ⟨hl, hr⟩ := hq.parts ⟨hsound.2.2, hpasses.1, hpasses.2⟩
        ⟨hsound'.2.2, hpasses'.1, hpasses'.2⟩ hmid ⟨rfl, rfl⟩
        (fun _ => by simpa using hleft) (fun _ => by simpa using hright)
      refine .fork (fun he => ?_) hl hr
      rw [hE he, hl.level.size_eq, hr.level.size_eq]

end Plan

end BoxTree
