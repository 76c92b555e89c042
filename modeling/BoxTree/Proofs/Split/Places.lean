import BoxTree.Proofs.Scalar.Ranks
import BoxTree.Proofs.Split.First
import BoxTree.Proofs.Split.Merging
import BoxTree.Proofs.Split.Ties
/-!
# The places a sweep looks at

Between two neighbours lies a place where the items may be cut. A sweep comes to the places from the
far end, and what it keeps at each of them is the better of what it had and what the place offers
(`Pass.Behind.best_step_offer`). So it finds **the cheapest place, the last one where several are
cheapest** (`Sweep.search_chooses`). No more is asked of the items than that their corners and their
centroids are numbers: areas and costs may well be infinite, and places that cost that much are left
out.
-/

namespace BoxTree

open BoxTree.Partition

namespace Scalar

variable {a b : Scalar}

/-- Only numbers are below one another. -/
theorem isNaN_of_lt (h : a < b) : a.isNaN = false ∧ b.isNaN = false := by
  change decide ((a.toModel.unpack.compare b.toModel.unpack == some .lt) = true) = true at h
  change a.toModel.unpack.isNaN = false ∧ b.toModel.unpack.isNaN = false
  generalize a.toModel.unpack = u at *
  generalize b.toModel.unpack = v at *
  cases u <;> cases v <;> first | exact ⟨rfl, rfl⟩ | cases h

theorem lt_infinity_of_lt (h : a < b) : a < infinity := by
  obtain ⟨ha, hb⟩ := isNaN_of_lt h
  have hle := natAbs_units_le b
  rw [lt_iff_units ha hb] at h
  rw [lt_iff_units ha (by decide), units_infinity]
  omega

end Scalar

namespace Sweep

variable {a : Axis} {items front rest : List Item} {o d : Item} {i : Nat} {p : Pass}

/-- The cost of cutting items behind the one at place `i`. -/
def costAt (items : List Item) (i : Nat) : Scalar :=
  Scalar.ofCount (i + 1) * (Box.around ((items.take (i + 1)).map Item.box)).halfArea +
    Scalar.ofCount (items.length - i - 1) *
      (Box.around ((items.drop (i + 1)).map Item.box)).halfArea

/-- Items may be cut between two neighbours whose centroids differ, unless the cost is infinite. -/
structure Opens (a : Axis) (items : List Item) (i : Nat) : Prop where
  next : i + 1 < items.length
  differ : (items[i].centroid a != items[i + 1].centroid a) = true
  affordable : costAt items i < .infinity

instance (a : Axis) (items : List Item) (i : Nat) : Decidable (Opens a items i) :=
  decidable_of_iff (∃ h : i + 1 < items.length,
    (items[i].centroid a != items[i + 1].centroid a) = true ∧ costAt items i < .infinity)
    ⟨fun ⟨h, hd, hc⟩ => ⟨h, hd, hc⟩, fun ⟨h, hd, hc⟩ => ⟨h, hd, hc⟩⟩

/-- What a place offers. -/
def offer (a : Axis) (items : List Item) (i : Nat) : Option Split :=
  if h : Opens a items i then
    some ⟨a, (items.get ⟨i, Nat.lt_of_succ_lt h.next⟩).centroid a, costAt items i⟩
  else none

theorem Opens.offer_eq (h : Opens a items i) : offer a items i =
    some ⟨a, (items.get ⟨i, Nat.lt_of_succ_lt h.next⟩).centroid a, costAt items i⟩ := dif_pos h

/-- Only an open place offers a split. -/
theorem opens_of_offer {s : Split} (h : offer a items i = some s) : Opens a items i := by
  by_contra hclosed
  rw [offer, dif_neg hclosed] at h
  cases h

/-- A place costs what the items in front of it and those behind it weigh. -/
theorem costAt_eq (h : i < items.length) :
    costAt items i = Split.weight (items.take (i + 1)) + Split.weight (items.drop (i + 1)) := by
  rw [costAt, Split.weight, Split.weight, List.length_take, List.length_drop, Nat.sub_sub,
    Nat.min_eq_left h]

/-- The offer of the place between two neighbours. -/
theorem offer_of_eq (hitems : items = front ++ o :: d :: rest) :
    offer a items front.length =
      if o.centroid a != d.centroid a && costAt items front.length < .infinity then
        some ⟨a, o.centroid a, costAt items front.length⟩
      else none := by
  subst hitems
  have hopens : Opens a (front ++ o :: d :: rest) front.length ↔
      (o.centroid a != d.centroid a) = true ∧
        costAt (front ++ o :: d :: rest) front.length < .infinity := by
    constructor
    · rintro ⟨hnext, hdiffer, hcost⟩
      exact ⟨by simpa using hdiffer, hcost⟩
    · rintro ⟨hdiffer, hcost⟩
      exact ⟨by simp, by simpa using hdiffer, hcost⟩
  simp only [offer, hopens, Bool.and_eq_true, decide_eq_true_eq]
  split <;> simp

namespace Pass

/-- A pass reckons the cost of the place between two neighbours. -/
theorem Behind.cost_eq (h : p.Behind a d rest) (hitems : items = front ++ o :: d :: rest)
    (hn : ∀ c ∈ items, c.box.Numeric) :
    Scalar.ofCount (items.length - p.count) *
        (Box.around ((front ++ [o]).map Item.box)).halfArea +
      Scalar.ofCount p.count * p.right.halfArea = costAt items front.length := by
  subst hitems
  have hboxes : ∀ b ∈ (d :: rest).map Item.box, b.Numeric :=
    List.forall_mem_map.2 fun c hc =>
      hn c (List.mem_append_right _ (List.mem_cons_of_mem _ hc))
  have hcut : front ++ o :: d :: rest = (front ++ [o]) ++ d :: rest := by simp
  have hlen : (front ++ [o]).length = front.length + 1 := by simp
  have htake : (front ++ o :: d :: rest).take (front.length + 1) = front ++ [o] := by
    rw [hcut, List.take_left' hlen]
  have hdrop : (front ++ o :: d :: rest).drop (front.length + 1) = d :: rest := by
    rw [hcut, List.drop_left' hlen]
  have hleft : (front ++ o :: d :: rest).length - p.count = front.length + 1 := by
    simp [h.count]
    omega
  have hright : (front ++ o :: d :: rest).length - front.length - 1 = p.count := by
    simp [h.count]
  rw [costAt, htake, hdrop, hleft, hright,
    Box.halfArea_eq h.numeric (Box.numeric_around hboxes) h.faces]

/-- **A step keeps the better of what there was and what the place offers.** -/
theorem Behind.best_step_offer (h : p.Behind a d rest) (hitems : items = front ++ o :: d :: rest)
    (hn : ∀ c ∈ items, c.box.Numeric) :
    (p.step a items.length (o, (Box.around ((front ++ [o]).map Item.box)).halfArea)).best =
      Split.better p.best (offer a items front.length) := by
  rw [offer_of_eq hitems]
  simp only [Pass.step, h.cost_eq hitems hn, h.last]
  cases hne : (o.centroid a != d.centroid a) with
  | false =>
    simp only [Bool.and_false, Bool.false_and, Bool.false_eq_true, if_false]
    cases p.best <;> rfl
  | true =>
    simp only [Bool.and_true, Bool.true_and]
    cases p.best with
    | none => rfl
    | some s =>
      simp only [Option.map_some, Option.getD_some, decide_eq_true_eq]
      by_cases hcost : costAt items front.length < .infinity
      · rw [if_pos hcost, Split.better]
      · -- what is not below infinity is not below the best cost so far
        rw [if_neg hcost, if_neg fun hlt => hcost (Scalar.lt_infinity_of_lt hlt)]
        rfl

/-- **A pass over all items in front** comes to every place there, the last of them first. -/
theorem Behind.best_foldl (h : p.Behind a d rest) (hitems : items = front ++ d :: rest)
    (hn : ∀ c ∈ items, c.box.Numeric) :
    ((front.zip (leftAreas front)).reverse.foldl (Pass.step a items.length) p).best =
      ((List.range front.length).reverse.map (offer a items)).foldl Split.better p.best := by
  induction front using List.reverseRecOn generalizing d rest p with
  | nil => rfl
  | append_singleton front o ih =>
    have hcut : items = front ++ o :: d :: rest := by simpa using hitems
    have hsub : ∀ c ∈ o :: d :: rest, c.box.Numeric := fun c hc =>
      hn c (hcut ▸ List.mem_append_right _ hc)
    rw [reverse_zip_leftAreas, List.length_append, List.length_singleton, List.range_succ,
      List.reverse_append]
    change ((front.zip (leftAreas front)).reverse.foldl (Pass.step a items.length) (p.step a _ _)).best
      = ((List.range front.length).reverse.map (offer a items)).foldl Split.better
          (Split.better p.best (offer a items front.length))
    rw [ih (h.step hsub _ _) hcut, h.best_step_offer hcut hn]

end Pass

/-- **A sweep finds the best of what the places offer**, looking at the last place first. -/
theorem cheapest_eq_best (hn : ∀ o ∈ items, o.box.Numeric) :
    cheapest a items =
      Split.best ((List.range (items.length - 1)).reverse.map (offer a items)) := by
  rcases List.eq_nil_or_concat' items with rfl | ⟨front, o, rfl⟩
  · rfl
  · have hlen : (front ++ [o]).length - 1 = front.length := by simp
    rw [cheapest, reverse_zip_leftAreas, hlen]
    exact (Pass.behind_start (hn o (by simp))).best_foldl rfl hn

/-- The split found at place `i`: the cheapest of all places and strictly cheaper than those behind
it. The plane cuts the items at that place, and the sides have the cost of the split. -/
structure Chosen (a : Axis) (items : List Item) (s : Split) (i : Nat) : Prop where
  opens : Opens a items i
  axis : s.axis = a
  value : s.value = (items.get ⟨i, Nat.lt_of_succ_lt opens.next⟩).centroid a
  cost : s.cost = costAt items i
  least : ∀ j, Opens a items j → s.cost ≤ costAt items j
  last : ∀ j, i < j → Opens a items j → s.cost < costAt items j
  left : lefts s.axis s.value items = items.take (i + 1)
  right : rights s.axis s.value items = items.drop (i + 1)
  realised : s.Realised (Halves.count s.axis s.value items)

/-- The plane at a place cuts the items there. -/
theorem Opens.sides (h : Opens a items i) (hc : ∀ o ∈ items, (o.centroid a).isNaN = false)
    (ha : Item.Ascending a items) :
    let value := (items.get ⟨i, Nat.lt_of_succ_lt h.next⟩).centroid a
    lefts a value items = items.take (i + 1) ∧ rights a value items = items.drop (i + 1) := by
  have hnext := h.next
  have hi : i < items.length := Nat.lt_of_succ_lt hnext
  have hcut : items = items.take i ++ items[i] :: items[i + 1] :: items.drop (i + 2) := by
    rw [← List.drop_eq_getElem_cons hnext, ← List.drop_eq_getElem_cons hi, List.take_append_drop]
  have hno := hc _ (List.getElem_mem hi)
  have hnd := hc _ (List.getElem_mem hnext)
  have hle : (items[i].centroid a).units ≤ (items[i + 1].centroid a).units :=
    List.pairwise_iff_getElem.1 ha i (i + 1) hi hnext (Nat.lt_succ_self i)
  have hne := (Scalar.bne_iff_units hno hnd).1 h.differ
  obtain ⟨hleft, hright⟩ := Item.parted_of_units_lt hno hnd (by omega)
  obtain ⟨hl, hr⟩ := Item.Ascending.sides (hcut ▸ ha) (fun c hmem => hc c (hcut ▸ hmem)) hleft
    hright
  rw [← hcut] at hl hr
  rw [List.take_succ_eq_append_getElem hi, List.drop_eq_getElem_cons hnext]
  exact ⟨hl, hr⟩

/-- **The search of an axis** on which the items are sorted finds the cheapest place between
neighbours that differ, the last one where several are cheapest, whatever its table held before. It
finds none exactly when no place costs less than infinity. -/
theorem search_chooses {table : Array Scalar} (hlen : 2 ≤ items.length)
    (hn : ∀ o ∈ items, o.box.Numeric) (hc : ∀ o ∈ items, (o.centroid a).isNaN = false)
    (hsorted : items.Pairwise fun o d => (o.centroid a).rank ≤ (d.centroid a).rank)
    (htable : items.length ≤ table.size) :
    ∃ found left, search a items table = .ok (found, left) ∧
      match found with
      | none => ∀ i, ¬ Opens a items i
      | some s => ∃ i, Chosen a items s i := by
  have ha : Item.Ascending a items := hsorted.imp_of_mem fun ho hd hle =>
    Scalar.units_le_of_rank_le (hc _ ho) (hc _ hd) hle
  refine ⟨cheapest a items, overwrite table 0 (leftAreas items), ?_, ?_⟩
  · rw [search, if_neg (by omega), if_neg (by omega)]
  have hmem : ∀ {i}, Opens a items i → i ∈ (List.range (items.length - 1)).reverse := by
    intro i h
    rw [List.mem_reverse, List.mem_range]
    have := h.next
    omega
  rw [cheapest_eq_best hn]
  split
  · rename_i hnone
    rw [Split.best_eq_none, List.forall_mem_map] at hnone
    intro i h
    have hoffer := hnone i (hmem h)
    rw [h.offer_eq] at hoffer
    cases hoffer
  · rename_i s hsome
    have horder : (List.range (items.length - 1)).reverse.Pairwise fun i j => j < i :=
      List.pairwise_reverse.2 List.pairwise_lt_range
    have hnumber : ∀ i s, offer a items i = some s → s.cost.isNaN = false := by
      intro i s hs
      have h := opens_of_offer hs
      rw [h.offer_eq] at hs
      cases hs
      exact (Scalar.isNaN_of_lt h.affordable).1
    obtain ⟨i, -, hi, hleast, hlast⟩ := Split.exists_first_of_pairwise (fun _ _ => Nat.lt_asymm)
      horder (fun i _ s => hnumber i s) hsome
    have h := opens_of_offer hi
    obtain ⟨hl, hr⟩ := h.sides hc ha
    have hsides := sides_count a ((items.get ⟨i, Nat.lt_of_succ_lt h.next⟩).centroid a) items
    rw [hl, hr] at hsides
    have hnext := h.next
    have hcost := costAt_eq (Nat.lt_of_succ_lt hnext)
    rw [h.offer_eq] at hi
    cases hi
    refine ⟨i, h, rfl, rfl, rfl, fun j hj => ?_, fun j hij hj => ?_, hl, hr, ?_⟩
    · have hle := hleast j (hmem hj) _ hj.offer_eq
      exact hle
    · have hlt := hlast j (hmem hj) hij _ hj.offer_eq
      exact hlt
    · refine Split.realised_of_sides hsides ?_ ?_ (fun o ho => hn o (List.mem_of_mem_take ho))
        (fun o ho => hn o (List.mem_of_mem_drop ho)) hcost (Scalar.isNaN_of_lt h.affordable).1
      · exact List.ne_nil_of_length_pos (by rw [List.length_take]; omega)
      · exact List.ne_nil_of_length_pos (by rw [List.length_drop]; omega)

/-- The trio is cut behind its first two boxes, with a table that was used before. -/
theorem trio_chooses :
    2 ≤ Item.trio.length ∧ (∀ o ∈ Item.trio, o.box.Numeric) ∧
      (∀ o ∈ Item.trio, (o.centroid .x).isNaN = false) ∧
      (Item.trio.Pairwise fun o d => (o.centroid .x).rank ≤ (d.centroid .x).rank) ∧
      Item.trio.length ≤ #[Scalar.nan, 7, -1, 0].size ∧
      ∃ left, search .x Item.trio #[Scalar.nan, 7, -1, 0] = .ok (some ⟨.x, 2.5, 17⟩, left) ∧
        ∃ i, Chosen .x Item.trio ⟨.x, 2.5, 17⟩ i := by
  have hc : ∀ o ∈ Item.trio, (o.centroid .x).isNaN = false := by decide +kernel
  have hsorted : Item.trio.Pairwise fun o d => (o.centroid .x).rank ≤ (d.centroid .x).rank := by
    decide +kernel
  have htable : Item.trio.length ≤ #[Scalar.nan, 7, -1, 0].size := by decide
  refine ⟨by decide, Item.trio_numeric, hc, hsorted, htable, ?_⟩
  obtain ⟨found, left, hsearch, hfound⟩ :=
    search_chooses (by decide) Item.trio_numeric hc hsorted htable
  have hvalue : (search .x Item.trio #[Scalar.nan, 7, -1, 0]).map Prod.fst =
      .ok (some ⟨.x, 2.5, 17⟩) := by decide +kernel
  rw [hsearch] at hvalue
  cases hvalue
  exact ⟨left, hsearch, hfound⟩

end Sweep

end BoxTree
