import BoxTree.Proofs.Split.Bins
import BoxTree.Proofs.Split.First
/-!
# The boundaries between bins

The bins up to a boundary and those beyond it are gathered in two passes from the two ends. Both
line up at every boundary (`BinRow.boundaries_eq`), and what lies on either side of it are **the
items whose place is up to or beyond the boundary** (`BinRow.Houses.upTo`, `BinRow.Houses.beyond`).
Hence the search over bins finds the cheapest boundary with items on both sides, along the lowest
axis and then the lowest where several are cheapest (`Bins.addAll_cheapest`), whatever stretch was
cut and however many bins were asked for.
-/

namespace BoxTree

/-! ## Bins together -/

namespace Bin

variable {b c d : Bin} {bins : List Bin} {items items' : List Item} {i : Nat}

/-- Some bins together. -/
def gathered (bins : List Bin) : Bin := bins.foldl union empty

theorem Alike.trans (h : b.Alike c) (h' : c.Alike d) : b.Alike d :=
  ⟨h.count.trans h'.count, h.left, h'.right, h.faces.trans h'.faces⟩

theorem alike_refl (hb : b.bounds.Numeric) : b.Alike b := ⟨rfl, hb, hb, rfl⟩

/-- The order of two bins does not matter. -/
theorem alike_union_comm (hb : b.bounds.Numeric) (hc : c.bounds.Numeric) :
    (b.union c).Alike (c.union b) where
  count := Nat.add_comm _ _
  left := hb.union hc
  right := hc.union hb
  faces := by
    have hleft := Box.faces_union hb hc
    have hright := Box.faces_union hc hb
    rw [union, hleft, sup_comm, ← hright]
    rfl

theorem gathered_concat (bins : List Bin) (b : Bin) :
    gathered (bins ++ [b]) = (gathered bins).union b := List.foldl_append

theorem numeric_gathered (hn : ∀ b ∈ bins, b.bounds.Numeric) : (gathered bins).bounds.Numeric := by
  induction bins using List.reverseRecOn with
  | nil => exact Box.numeric_empty
  | append_singleton bins b ih =>
    rw [List.forall_mem_append, List.forall_mem_singleton] at hn
    rw [gathered_concat]
    exact (ih hn.1).union hn.2

theorem gathered_cons (hb : b.bounds.Numeric) (hn : ∀ c ∈ bins, c.bounds.Numeric) :
    gathered (b :: bins) = b.union (gathered bins) := by
  induction bins using List.reverseRecOn with
  | nil =>
    change empty.union b = b.union empty
    simp only [union, empty, Box.empty_union hb, Box.union_empty hb, Nat.add_comm]
  | append_singleton bins c ih =>
    rw [List.forall_mem_append, List.forall_mem_singleton] at hn
    rw [← List.cons_append, gathered_concat, gathered_concat, ih hn.1,
      union_assoc hb (numeric_gathered hn.1) hn.2]

/-- The pass from the first bin gathers the bins up to each. -/
theorem getElem_fromLeft (hi : i < (fromLeft bins).length) :
    (fromLeft bins)[i] = gathered (bins.take (i + 1)) := by
  simp only [fromLeft, List.getElem_tail, List.getElem_scanl]
  rfl

theorem length_fromLeft (bins : List Bin) : (fromLeft bins).length = bins.length := by
  simp [fromLeft]

theorem length_fromRight (bins : List Bin) : (fromRight bins).length = bins.length := by
  induction bins with
  | nil => rfl
  | cons b rest ih => exact congrArg (· + 1) ih

theorem drop_fromRight (bins : List Bin) (i : Nat) :
    (fromRight bins).drop i = fromRight (bins.drop i) := by
  induction bins generalizing i with
  | nil => simp [fromRight]
  | cons b rest ih =>
    cases i with
    | zero => rfl
    | succ i => exact ih i

/-- **The pass from the last bin** gathers all bins, up to their order. -/
theorem headD_fromRight (hn : ∀ b ∈ bins, b.bounds.Numeric) :
    ((fromRight bins).headD empty).Alike (gathered bins) := by
  induction bins with
  | nil => exact .refl_empty
  | cons b rest ih =>
    rw [List.forall_mem_cons] at hn
    rw [gathered_cons hn.1 hn.2]
    exact ((ih hn.2).union (alike_refl hn.1)).trans
      (alike_union_comm (numeric_gathered hn.2) hn.1)

theorem getElem_fromRight (hn : ∀ b ∈ bins, b.bounds.Numeric) (hi : i < (fromRight bins).length) :
    (fromRight bins)[i].Alike (gathered (bins.drop i)) := by
  have hhead : ((fromRight bins).drop i).headD empty = (fromRight bins)[i] := by
    rw [List.drop_eq_getElem_cons hi, List.headD_cons]
  rw [← hhead, drop_fromRight]
  exact headD_fromRight fun b hb => hn b (List.mem_of_mem_drop hb)

/-! What a bin holds may come in any order. -/

theorem Holds.perm (h : b.Holds items) (hp : items.Perm items')
    (hn : ∀ o ∈ items, o.box.Numeric) : b.Holds items' where
  count := h.count.trans hp.length_eq
  numeric := h.numeric
  faces := h.faces.trans
    (Box.faces_around_perm (List.forall_mem_map.2 hn) (hp.map Item.box))

/-- A bin weighs what its items weigh. -/
theorem Holds.weight_eq (h : b.Holds items) (hn : ∀ o ∈ items, o.box.Numeric) :
    b.weight = Split.weight items := by
  rw [weight, Split.weight, h.count, Box.halfArea_eq h.numeric
    (Box.numeric_around (List.forall_mem_map.2 hn)) h.faces]

end Bin

/-- Elements with one of two properties that exclude each other. -/
theorem filter_append_filter_perm {α : Type} {p q : α → Bool} {l : List α}
    (h : ∀ x ∈ l, p x = true → q x = false) :
    (l.filter p ++ l.filter q).Perm (l.filter fun x => p x || q x) := by
  have hp : (l.filter fun x => p x || q x).filter p = l.filter p := by
    rw [List.filter_filter]
    exact List.filter_congr fun x _ => by cases p x <;> simp
  have hq : ((l.filter fun x => p x || q x).filter fun x => !p x) = l.filter q := by
    rw [List.filter_filter]
    refine List.filter_congr fun x hx => ?_
    cases hpx : p x with
    | false => simp
    | true => simp [h x hx hpx]
  have hperm := List.filter_append_perm p (l.filter fun x => p x || q x)
  rwa [hp, hq] at hperm

/-- Two bins that hold items with properties that exclude each other. -/
theorem Bin.Holds.either {b c : Bin} {items : List Item} {p q : Item → Bool}
    (hb : b.Holds (items.filter p)) (hc : c.Holds (items.filter q))
    (hn : ∀ o ∈ items, o.box.Numeric) (h : ∀ o ∈ items, p o = true → q o = false) :
    (b.union c).Holds (items.filter fun o => p o || q o) := by
  have hleft : ∀ o ∈ items.filter p, o.box.Numeric := fun o ho => hn o (List.mem_of_mem_filter ho)
  have hright : ∀ o ∈ items.filter q, o.box.Numeric := fun o ho => hn o (List.mem_of_mem_filter ho)
  refine (hb.union hc (List.forall_mem_map.2 hleft) (List.forall_mem_map.2 hright)).perm
    (filter_append_filter_perm h) fun o ho => ?_
  exact (List.mem_append.1 ho).elim (hleft o) (hright o)

/-! ## Rows -/

namespace BinRow

variable {a : Axis} {start r : BinRow} {items : List Item} {b k : Nat}

/-- The bins up to a boundary together. -/
def upTo (r : BinRow) (b : Nat) : Bin := .gathered (r.bins.toList.take (b + 1))

/-- The bins beyond a boundary together. -/
def beyond (r : BinRow) (b : Nat) : Bin := .gathered (r.bins.toList.drop (b + 1))

/-- The cost of the boundary behind a bin. -/
def costAt (r : BinRow) (b : Nat) : Scalar := (r.upTo b).weight + (r.beyond b).weight

/-- What the boundary behind a bin offers. -/
def offer (a : Axis) (r : BinRow) (b : Nat) : Option Split :=
  if (r.upTo b).count = 0 || (r.beyond b).count = 0 then none
  else some ⟨a, r.origin + r.width * Scalar.ofCount (b + 1), r.costAt b⟩

/-- **The two passes line up at every boundary.** -/
theorem boundaries_eq (hr : r.Numeric) :
    r.boundaries a = (List.range (r.bins.size - 1)).map (r.offer a) := by
  have hn : ∀ b ∈ r.bins.toList, b.bounds.Numeric := fun b hb => hr b (Array.mem_toList_iff.1 hb)
  refine List.ext_getElem ?_ fun i hi hi' => ?_
  · simp only [boundaries, List.length_mapIdx, List.length_zip, List.length_tail,
      Bin.length_fromLeft, Bin.length_fromRight, Array.length_toList, List.length_map,
      List.length_range]
    omega
  · have hinside : i < r.bins.size - 1 := by simpa using hi'
    have hlast : i + 1 < (Bin.fromRight r.bins.toList).length := by
      rw [Bin.length_fromRight, Array.length_toList]
      omega
    have hright := Bin.getElem_fromRight hn hlast
    simp only [boundaries, List.getElem_mapIdx, List.getElem_zip, List.getElem_tail,
      Bin.getElem_fromLeft, hright.count, hright.weight_eq, List.getElem_map, List.getElem_range,
      offer, costAt, upTo, beyond]

/-- The items in the bins up to a boundary. -/
def lower (r : BinRow) (a : Axis) (b : Nat) (items : List Item) : List Item :=
  items.filter fun o => r.place (o.centroid a) ≤ b

/-- The items in the bins beyond a boundary. -/
def upper (r : BinRow) (a : Axis) (b : Nat) (items : List Item) : List Item :=
  items.filter fun o => b < r.place (o.centroid a)

theorem length_lower_add_length_upper (r : BinRow) (a : Axis) (b : Nat) (items : List Item) :
    (r.lower a b items).length + (r.upper a b items).length = items.length := by
  have hupper : r.upper a b items = items.filter fun o => !(r.place (o.centroid a) ≤ b) := by
    simp only [upper, ← Nat.not_le, decide_not]
  rw [hupper, ← List.length_append]
  exact (List.filter_append_perm _ items).length_eq

theorem place_lt (h : 0 < r.bins.size) (c : Scalar) : r.place c < r.bins.size := by
  unfold place
  omega

/-- Every bin of a row holds the items whose place it is. -/
structure Houses (a : Axis) (items : List Item) (r : BinRow) : Prop where
  size : 0 < r.bins.size
  holds : ∀ (i : Nat) (hi : i < r.bins.size), r.bins[i].Holds (r.fallen a i items)

/-- Items that were dropped into a row that can be used are housed there. -/
theorem Drops.houses (h : Drops a start items r) (hv : start.valid = true)
    (hsize : 0 < start.bins.size) : r.Houses a items where
  size := h.size ▸ hsize
  holds i hi := by
    rw [fallen, h.place_eq]
    exact h.holds hv i hi

theorem Houses.numeric (h : r.Houses a items) : ∀ b ∈ r.bins.toList, b.bounds.Numeric := by
  intro b hb
  obtain ⟨i, hi, rfl⟩ := List.mem_iff_getElem.1 hb
  rw [Array.getElem_toList]
  exact (h.holds i (by simpa using hi)).numeric

/-- The first bins together hold the items whose places come first. -/
theorem Houses.take (h : r.Houses a items) (hn : ∀ o ∈ items, o.box.Numeric)
    (hk : k ≤ r.bins.size) : (Bin.gathered (r.bins.toList.take k)).Holds
      (items.filter fun o => r.place (o.centroid a) < k) := by
  induction k with
  | zero =>
    rw [List.filter_eq_nil_iff.2 (by simp)]
    exact Bin.holds_empty
  | succ k ih =>
    have hlt : k < r.bins.toList.length := by simpa using hk
    have hboth : (items.filter fun o => decide (r.place (o.centroid a) < k + 1)) =
        items.filter fun o => decide (r.place (o.centroid a) < k) ||
          decide (r.place (o.centroid a) = k) :=
      List.filter_congr fun o _ => by
        rw [← Bool.decide_or, decide_eq_decide]
        omega
    rw [List.take_succ_eq_append_getElem hlt, Bin.gathered_concat, Array.getElem_toList, hboth]
    refine (ih (Nat.le_of_succ_le hk)).either (h.holds k hk) hn fun o _ hlt => ?_
    simp only [decide_eq_true_eq, decide_eq_false_iff_not] at hlt ⊢
    omega

/-- The last bins together hold the items whose places come last. -/
theorem Houses.drop (h : r.Houses a items) (hn : ∀ o ∈ items, o.box.Numeric)
    (hk : k ≤ r.bins.size) : (Bin.gathered (r.bins.toList.drop k)).Holds
      (items.filter fun o => k ≤ r.place (o.centroid a)) := by
  induction hk using Nat.decreasingInduction with
  | self =>
    have hnil : (items.filter fun o => decide (r.bins.size ≤ r.place (o.centroid a))) = [] :=
      List.filter_eq_nil_iff.2 fun o _ => by simpa using place_lt h.size (o.centroid a)
    rw [hnil, List.drop_eq_nil_of_le (by simp)]
    exact Bin.holds_empty
  | of_succ k hk ih =>
    have hlt : k < r.bins.toList.length := by simpa using hk
    have hboth : (items.filter fun o => decide (k ≤ r.place (o.centroid a))) =
        items.filter fun o => decide (r.place (o.centroid a) = k) ||
          decide (k + 1 ≤ r.place (o.centroid a)) :=
      List.filter_congr fun o _ => by
        rw [← Bool.decide_or, decide_eq_decide]
        omega
    rw [List.drop_eq_getElem_cons hlt, Array.getElem_toList,
      Bin.gathered_cons (h.holds k hk).numeric fun b hb => h.numeric b (List.mem_of_mem_drop hb),
      hboth]
    refine (h.holds k hk).either ih hn fun o _ heq => ?_
    simp only [decide_eq_true_eq, decide_eq_false_iff_not] at heq ⊢
    omega

/-- **What lies up to a boundary.** -/
theorem Houses.upTo (h : r.Houses a items) (hn : ∀ o ∈ items, o.box.Numeric)
    (hb : b < r.bins.size) : (r.upTo b).Holds (r.lower a b items) := by
  have htake := h.take hn hb
  simp only [Nat.lt_succ_iff] at htake
  exact htake

/-- **What lies beyond a boundary.** -/
theorem Houses.beyond (h : r.Houses a items) (hn : ∀ o ∈ items, o.box.Numeric)
    (hb : b < r.bins.size) : (r.beyond b).Holds (r.upper a b items) := h.drop hn hb

/-- A boundary costs what the items on its two sides weigh. -/
theorem Houses.costAt_eq (h : r.Houses a items) (hn : ∀ o ∈ items, o.box.Numeric)
    (hb : b < r.bins.size) :
    r.costAt b = Split.weight (r.lower a b items) + Split.weight (r.upper a b items) := by
  rw [costAt, (h.upTo hn hb).weight_eq fun o ho => hn o (List.mem_of_mem_filter ho),
    (h.beyond hn hb).weight_eq fun o ho => hn o (List.mem_of_mem_filter ho)]

theorem Houses.nonneg_costAt (h : r.Houses a items) (hn : ∀ o ∈ items, o.box.Numeric)
    (hlen : items.length < 2 ^ 64) (hb : b < r.bins.size) : (r.costAt b).Nonneg := by
  rw [h.costAt_eq hn hb]
  exact (Split.nonneg_weight (Nat.lt_of_le_of_lt (List.length_filter_le _ _) hlen)).add
    (Split.nonneg_weight (Nat.lt_of_le_of_lt (List.length_filter_le _ _) hlen))

/-- At least two bins of a row have something in them. -/
def Parted (r : BinRow) : Prop :=
  ∃ i j, ∃ (_ : i < j) (_ : j < r.bins.size), 0 < r.bins[i].count ∧ 0 < r.bins[j].count

theorem Houses.count_pos_iff (h : r.Houses a items) {i : Nat} (hi : i < r.bins.size) :
    0 < r.bins[i].count ↔ ∃ o ∈ items, r.place (o.centroid a) = i := by
  simp only [(h.holds i hi).count, fallen, List.length_filter_pos_iff, decide_eq_true_eq]

theorem Houses.upTo_pos_iff (h : r.Houses a items) (hn : ∀ o ∈ items, o.box.Numeric)
    (hb : b < r.bins.size) :
    0 < (r.upTo b).count ↔ ∃ o ∈ items, r.place (o.centroid a) ≤ b := by
  simp only [(h.upTo hn hb).count, lower, List.length_filter_pos_iff, decide_eq_true_eq]

theorem Houses.beyond_pos_iff (h : r.Houses a items) (hn : ∀ o ∈ items, o.box.Numeric)
    (hb : b < r.bins.size) :
    0 < (r.beyond b).count ↔ ∃ o ∈ items, b < r.place (o.centroid a) := by
  simp only [(h.beyond hn hb).count, upper, List.length_filter_pos_iff, decide_eq_true_eq]

/-- **Some boundary has items on both sides** exactly when two bins have items. -/
theorem Houses.parted_iff (h : r.Houses a items) (hn : ∀ o ∈ items, o.box.Numeric) :
    r.Parted ↔ ∃ b, b + 1 < r.bins.size ∧ 0 < (r.upTo b).count ∧ 0 < (r.beyond b).count := by
  constructor
  · rintro ⟨i, j, hij, hj, hi, hcount⟩
    obtain ⟨o, ho, hplace⟩ := (h.count_pos_iff (by omega)).1 hi
    obtain ⟨o', ho', hplace'⟩ := (h.count_pos_iff hj).1 hcount
    exact ⟨i, by omega, (h.upTo_pos_iff hn (by omega)).2 ⟨o, ho, hplace.le⟩,
      (h.beyond_pos_iff hn (by omega)).2 ⟨o', ho', by omega⟩⟩
  · rintro ⟨b, hb, hleft, hright⟩
    obtain ⟨o, ho, hplace⟩ := (h.upTo_pos_iff hn (by omega)).1 hleft
    obtain ⟨o', ho', hplace'⟩ := (h.beyond_pos_iff hn (by omega)).1 hright
    have hlt := place_lt h.size (o'.centroid a)
    exact ⟨r.place (o.centroid a), r.place (o'.centroid a), by omega, hlt,
      (h.count_pos_iff (by omega)).2 ⟨o, ho, rfl⟩, (h.count_pos_iff hlt).2 ⟨o', ho', rfl⟩⟩

end BinRow

/-! ## All axes -/

namespace Bins

variable {bins : Bins} {items : List Item} {centers : Box} {count b : Nat} {a : Axis} {s : Split}

/-- The boundaries along the axes that can be used. -/
def places (bins : Bins) : List (Axis × Nat) :=
  Axis.all.flatMap fun a =>
    if (bins.rows.get a).valid then (List.range ((bins.rows.get a).bins.size - 1)).map (a, ·)
    else []

/-- The order of boundaries, by their axis and then along it. -/
def Precedes (x y : Axis × Nat) : Prop := x.1.index < y.1.index ∨ x.1 = y.1 ∧ x.2 < y.2

theorem mem_places : (a, b) ∈ bins.places ↔
    (bins.rows.get a).valid = true ∧ b + 1 < (bins.rows.get a).bins.size := by
  have hrange : ∀ n, b < n - 1 ↔ b + 1 < n := fun n => by omega
  have hall : a ∈ Axis.all := by cases a <;> decide
  rw [places, List.mem_flatMap, ← hrange]
  constructor
  · rintro ⟨a', -, hmem⟩
    split at hmem
    · rename_i hv
      obtain ⟨b', hb', heq⟩ := List.mem_map.1 hmem
      cases heq
      exact ⟨hv, List.mem_range.1 hb'⟩
    · cases hmem
  · rintro ⟨hv, hb⟩
    refine ⟨a, hall, ?_⟩
    rw [if_pos hv]
    exact List.mem_map_of_mem (List.mem_range.2 hb)

theorem pairwise_places (bins : Bins) : bins.places.Pairwise Precedes := by
  have hrow : ∀ a, ∀ x ∈ (if (bins.rows.get a).valid then
      (List.range ((bins.rows.get a).bins.size - 1)).map (a, ·) else []), x.1 = a := by
    intro a x hx
    split at hx
    · obtain ⟨b, -, rfl⟩ := List.mem_map.1 hx
      rfl
    · cases hx
  rw [places, List.pairwise_flatMap]
  constructor
  · intro a _
    split
    · rw [List.pairwise_map]
      exact List.pairwise_lt_range.imp fun hlt => .inr ⟨rfl, hlt⟩
    · exact .nil
  · have horder : Axis.all.Pairwise fun a a' => a.index < a'.index := by decide
    refine horder.imp fun hlt x hx y hy => .inl ?_
    rw [hrow _ x hx, hrow _ y hy]
    exact hlt

/-- **The search takes the best of what the boundaries offer.** -/
theorem cheapest_eq_best (hn : ∀ a, (bins.rows.get a).Numeric) : bins.cheapest =
    Split.best (bins.places.map fun x => (bins.rows.get x.1).offer x.1 x.2) := by
  rw [cheapest, places, List.map_flatMap]
  congr 2
  funext a
  rw [BinRow.splits, BinRow.boundaries_eq (hn a)]
  split
  · rw [List.map_map]
    rfl
  · rfl

/-- A boundary of an axis that can be used, with items on both sides. -/
structure Divides (bins : Bins) (a : Axis) (b : Nat) : Prop where
  valid : (bins.rows.get a).valid = true
  inside : b + 1 < (bins.rows.get a).bins.size
  left : 0 < ((bins.rows.get a).upTo b).count
  right : 0 < ((bins.rows.get a).beyond b).count

/-- The split found at a boundary: the cheapest of all, and strictly cheaper than those of a lower
axis or a lower bin. -/
structure Chosen (bins : Bins) (s : Split) (a : Axis) (b : Nat) : Prop where
  divides : bins.Divides a b
  axis : s.axis = a
  value : s.value = (bins.rows.get a).origin + (bins.rows.get a).width * Scalar.ofCount (b + 1)
  cost : s.cost = (bins.rows.get a).costAt b
  least : ∀ a' b', bins.Divides a' b' → s.cost ≤ (bins.rows.get a').costAt b'
  first : ∀ a' b', Precedes (a', b') (a, b) → bins.Divides a' b' →
    s.cost < (bins.rows.get a').costAt b'

theorem Divides.offer_eq (h : bins.Divides a b) : (bins.rows.get a).offer a b =
    some ⟨a, (bins.rows.get a).origin + (bins.rows.get a).width * Scalar.ofCount (b + 1),
      (bins.rows.get a).costAt b⟩ := by
  have hleft := h.left
  have hright := h.right
  refine if_neg ?_
  rw [Bool.or_eq_true, decide_eq_true_iff, decide_eq_true_iff]
  omega

/-- Only boundaries with items on both sides offer a split. -/
theorem divides_of_offer (hmem : (a, b) ∈ bins.places)
    (h : (bins.rows.get a).offer a b = some s) : bins.Divides a b := by
  obtain ⟨hvalid, hinside⟩ := mem_places.1 hmem
  rw [BinRow.offer] at h
  split at h
  · cases h
  · rename_i hcounts
    rw [Bool.or_eq_true, decide_eq_true_iff, decide_eq_true_iff, not_or] at hcounts
    exact ⟨hvalid, hinside, Nat.pos_of_ne_zero hcounts.1, Nat.pos_of_ne_zero hcounts.2⟩

/-- **The cheapest boundary.** It is enough that rows that can be used house the items. -/
theorem exists_chosen (hn : ∀ o ∈ items, o.box.Numeric) (hlen : items.length < 2 ^ 64)
    (hnumeric : ∀ a, (bins.rows.get a).Numeric)
    (hhouses : ∀ a, (bins.rows.get a).valid = true → (bins.rows.get a).Houses a items)
    (h : bins.cheapest = some s) : ∃ a b, bins.Chosen s a b := by
  have hnumber : ∀ x ∈ bins.places, ∀ s, (bins.rows.get x.1).offer x.1 x.2 = some s →
      s.cost.isNaN = false := by
    rintro ⟨a, b⟩ hx s hs
    have hdivides := divides_of_offer hx hs
    have hcost := (hhouses a hdivides.valid).nonneg_costAt hn hlen (Nat.lt_of_succ_lt hdivides.inside)
    rw [hdivides.offer_eq] at hs
    cases hs
    exact hcost.isNaN
  have hasymm : ∀ x y, Precedes x y → ¬ Precedes y x := by
    rintro ⟨a, b⟩ ⟨a', b'⟩ (hlt | ⟨heq, hlt⟩) (hlt' | ⟨heq', hlt'⟩)
    · exact Nat.lt_asymm hlt hlt'
    · exact absurd hlt (by rw [heq']; exact Nat.lt_irrefl _)
    · exact absurd hlt' (by rw [heq]; exact Nat.lt_irrefl _)
    · exact Nat.lt_asymm hlt hlt'
  rw [cheapest_eq_best hnumeric] at h
  obtain ⟨⟨a, b⟩, hmem, hoffer, hleast, hfirst⟩ :=
    Split.exists_first_of_pairwise hasymm (pairwise_places bins) hnumber h
  have hdivides := divides_of_offer hmem hoffer
  have hplaces : ∀ {a' b'}, bins.Divides a' b' → (a', b') ∈ bins.places :=
    fun hd => mem_places.2 ⟨hd.valid, hd.inside⟩
  rw [hdivides.offer_eq] at hoffer
  cases hoffer
  refine ⟨a, b, hdivides, rfl, rfl, rfl, fun a' b' hd => ?_, fun a' b' hbefore hd => ?_⟩
  · have hle := hleast _ (hplaces hd) _ hd.offer_eq
    exact hle
  · have hlt := hfirst _ (hplaces hd) hbefore _ hd.offer_eq
    exact hlt

/-- There is none exactly when no axis that can be used has items in two bins. -/
theorem cheapest_eq_none_iff (hn : ∀ o ∈ items, o.box.Numeric)
    (hnumeric : ∀ a, (bins.rows.get a).Numeric)
    (hhouses : ∀ a, (bins.rows.get a).valid = true → (bins.rows.get a).Houses a items) :
    bins.cheapest = none ↔
      ∀ a, (bins.rows.get a).valid = true → ¬ (bins.rows.get a).Parted := by
  rw [cheapest_eq_best hnumeric, Split.best_eq_none, List.forall_mem_map]
  constructor
  · intro hnone a hv hparted
    obtain ⟨b, hinside, hleft, hright⟩ := ((hhouses a hv).parted_iff hn).1 hparted
    have hdivides : bins.Divides a b := ⟨hv, hinside, hleft, hright⟩
    have hoffer := hnone (a, b) (mem_places.2 ⟨hv, hinside⟩)
    rw [hdivides.offer_eq] at hoffer
    cases hoffer
  · rintro hparted ⟨a, b⟩ hmem
    by_contra hsome
    obtain ⟨s, hs⟩ := Option.ne_none_iff_exists'.1 hsome
    have hdivides := divides_of_offer hmem hs
    exact hparted a hdivides.valid (((hhouses a hdivides.valid).parted_iff hn).2
      ⟨b, hdivides.inside, hdivides.left, hdivides.right⟩)

/-- Rows cut the stretch they were made for, whatever falls into them. -/
theorem beside_addAll (count : Nat) (centers : Box) (items : List Item) (a : Axis) :
    (((empty count centers).addAll items).rows.get a).Beside
      (.empty (clamp count) (centers.lo.get a) (centers.extent a)) := by
  have hbeside := BinRow.beside_addAll a ((empty count centers).rows.get a) items
  rwa [← get_addAll, get_empty] at hbeside

theorem size_addAll (count : Nat) (centers : Box) (items : List Item) (a : Axis) :
    (((empty count centers).addAll items).rows.get a).bins.size = clamp count :=
  (beside_addAll count centers items a).size.trans Array.size_replicate

/-- Rows that can be used house the items that were dropped into them. -/
theorem houses_addAll (hn : ∀ o ∈ items, o.box.Numeric)
    (hv : (((empty count centers).addAll items).rows.get a).valid = true) :
    (((empty count centers).addAll items).rows.get a).Houses a items := by
  have hdrops := addAll_drops count centers hn a
  refine hdrops.houses (hdrops.valid ▸ hv) ?_
  simp [BinRow.empty, clamp, maxCount]

theorem numeric_addAll (hn : ∀ o ∈ items, o.box.Numeric) (a : Axis) :
    (((empty count centers).addAll items).rows.get a).Numeric := by
  rw [get_addAll, get_empty]
  exact (BinRow.numeric_empty _ _ _).addAll hn

/-- **What bins hold, and what is found in them.** Over any stretches and for any number of bins
asked for, every item lies in one bin of each axis that can be used, and every bin holds the items
that lie in it; the two sides of a boundary have all items between them. The split that is found is
that of the cheapest boundary with items on both sides, along the lowest axis and then the lowest
where several are cheapest. There is none exactly when no axis that can be used has items in two
bins. -/
theorem addAll_cheapest (count : Nat) (centers : Box) (hn : ∀ o ∈ items, o.box.Numeric)
    (hlen : items.length ≤ limit32) :
    let bins := (empty count centers).addAll items
    (∀ a, (bins.rows.get a).Beside (.empty (clamp count) (centers.lo.get a) (centers.extent a)) ∧
      ((bins.rows.get a).valid = true →
        (∀ o ∈ items, ∃! i, i < clamp count ∧ o ∈ (bins.rows.get a).fallen a i items) ∧
        (bins.rows.get a).Houses a items ∧
        ∀ b, b + 1 < clamp count →
          ((bins.rows.get a).upTo b).count + ((bins.rows.get a).beyond b).count =
            items.length)) ∧
      (bins.cheapest = none ↔
        ∀ a, (bins.rows.get a).valid = true → ¬ (bins.rows.get a).Parted) ∧
      ∀ s, bins.cheapest = some s → ∃ a b, bins.Chosen s a b := by
  intro bins
  have hlen64 : items.length < 2 ^ 64 := Nat.lt_of_le_of_lt hlen (by decide)
  refine ⟨fun a => ⟨beside_addAll count centers items a, fun hv => ?_⟩,
    cheapest_eq_none_iff hn (numeric_addAll hn) fun a => houses_addAll hn,
    fun s => exists_chosen hn hlen64 (numeric_addAll hn) fun a => houses_addAll hn⟩
  have hhouses := houses_addAll hn hv
  have hsize := size_addAll count centers items a
  refine ⟨fun o ho => ?_, hhouses, fun b hb => ?_⟩
  · refine ⟨(bins.rows.get a).place (o.centroid a), ⟨?_, ?_⟩, ?_⟩
    · rw [← hsize]
      exact BinRow.place_lt hhouses.size _
    · simpa [BinRow.fallen] using ho
    · rintro i ⟨-, hi⟩
      simpa [BinRow.fallen, ho, eq_comm] using hi
  · have hb : b < (bins.rows.get a).bins.size := by
      rw [hsize]
      omega
    rw [(hhouses.upTo hn hb).count, (hhouses.beyond hn hb).count]
    exact BinRow.length_lower_add_length_upper _ _ _ _

/-- The cheapest boundary between the bins of the trio, which lies along one axis only. -/
theorem trio_cheapest :
    (∀ o ∈ Item.trio, o.box.Numeric) ∧ Item.trio.length ≤ limit32 ∧
      ∃ a b, ((empty 4 (Extent.ofItems Item.trio).centers).addAll Item.trio).Chosen
        ⟨.x, 4.5, 17⟩ a b := by
  obtain ⟨-, -, hchosen⟩ := addAll_cheapest 4 (Extent.ofItems Item.trio).centers Item.trio_numeric
    (by decide)
  exact ⟨Item.trio_numeric, by decide, hchosen ⟨.x, 4.5, 17⟩ (by decide +kernel)⟩

end Bins

end BoxTree
