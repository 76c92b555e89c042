import BoxTree.Proofs.Split.Alike
import BoxTree.Proofs.Split.Merging
/-!
# Bins do not depend on the order of the items

A bin knows how many items have fallen into it and the box around them (`Bins.addAll_drops`), and
items with the same boxes fill alike the bins over stretches that are alike. Hence the cheapest
boundary is the same plane at the same cost, up to the sign of a zero (`Bins.cheapest_agree`).
-/

namespace BoxTree

/-! ## One bin -/

namespace Bin

/-- A bin that some items have fallen into. -/
structure Holds (b : Bin) (items : List Item) : Prop where
  count : b.count = items.length
  numeric : b.bounds.Numeric
  faces : b.bounds.faces = (Box.around (items.map Item.box)).faces

/-- Bins with as many items and the same faces. -/
structure Alike (b c : Bin) : Prop where
  count : b.count = c.count
  left : b.bounds.Numeric
  right : c.bounds.Numeric
  faces : b.bounds.faces = c.bounds.faces

variable {b c d e : Bin} {items items' : List Item} {o : Item}

theorem holds_empty : empty.Holds [] := ⟨rfl, Box.numeric_empty, rfl⟩

theorem Holds.union (h : b.Holds items) (h' : c.Holds items')
    (hn : ∀ b ∈ items.map Item.box, b.Numeric) (hn' : ∀ b ∈ items'.map Item.box, b.Numeric) :
    (b.union c).Holds (items ++ items') where
  count := by rw [List.length_append, ← h.count, ← h'.count]; rfl
  numeric := h.numeric.union h'.numeric
  faces := by
    rw [List.map_append, Box.faces_around_append hn hn', ← h.faces, ← h'.faces]
    exact Box.faces_union h.numeric h'.numeric

/-- A box that is dropped is a bin of its own. -/
theorem Holds.add (h : b.Holds items) (hn : ∀ b ∈ items.map Item.box, b.Numeric)
    (ho : o.box.Numeric) : (b.add o.box).Holds (items ++ [o]) := by
  have hone : ∀ b ∈ [o].map Item.box, b.Numeric := by simpa using ho
  have hbin : Holds ⟨o.box, 1⟩ [o] := by
    refine ⟨rfl, ho, ?_⟩
    rw [List.map_singleton, Box.faces_around_cons ho (List.forall_mem_nil _), Box.around,
      List.foldl_nil, sup_eq_left.2 (Box.faces_empty_le o.box)]
  have hadd : b.add o.box = b.union ⟨o.box, 1⟩ := rfl
  rw [hadd]
  exact h.union hbin hn hone

theorem Holds.alike (h : b.Holds items) (h' : c.Holds items') (hs : Item.SameBoxes items items')
    (hn : ∀ b ∈ items.map Item.box, b.Numeric) : b.Alike c where
  count := by rw [h.count, h'.count, hs.length_eq]
  left := h.numeric
  right := h'.numeric
  faces := by rw [h.faces, h'.faces, Box.faces_around_perm hn hs]

theorem Alike.refl_empty : empty.Alike empty := ⟨rfl, Box.numeric_empty, Box.numeric_empty, rfl⟩

theorem Alike.union (h : b.Alike c) (h' : d.Alike e) : (b.union d).Alike (c.union e) where
  count := congrArg₂ (· + ·) h.count h'.count
  left := h.left.union h'.left
  right := h.right.union h'.right
  faces := by
    have hl := Box.faces_union h.left h'.left
    have hr := Box.faces_union h.right h'.right
    exact hl.trans (by rw [h.faces, h'.faces, ← hr]; rfl)

/-- Bins that are alike weigh the same. -/
theorem Alike.weight_eq (h : b.Alike c) : b.weight = c.weight := by
  rw [weight, weight, h.count, Box.halfArea_eq h.left h.right h.faces]

/-! ## Bins in a row -/

variable {bins bins' : List Bin}

theorem Alike.scanl (h : List.Forall₂ Alike bins bins') (hb : b.Alike c) :
    List.Forall₂ Alike (bins.scanl Bin.union b) (bins'.scanl Bin.union c) := by
  induction h generalizing b c with
  | nil => exact .cons hb .nil
  | cons h _ ih =>
    rw [List.scanl_cons, List.scanl_cons]
    exact .cons hb (ih (hb.union h))

theorem alike_fromLeft (h : List.Forall₂ Alike bins bins') :
    List.Forall₂ Alike (fromLeft bins) (fromLeft bins') := by
  cases h with
  | nil => exact .nil
  | cons h hrest =>
    rw [fromLeft, fromLeft, List.scanl_cons, List.scanl_cons, List.tail_cons, List.tail_cons]
    exact Alike.scanl hrest (Alike.refl_empty.union h)

theorem alike_fromRight (h : List.Forall₂ Alike bins bins') :
    List.Forall₂ Alike (fromRight bins) (fromRight bins') := by
  induction h with
  | nil => exact .nil
  | @cons b c bins bins' h _ ih =>
    change List.Forall₂ Alike (((fromRight bins).headD empty).union b :: fromRight bins)
      (((fromRight bins').headD empty).union c :: fromRight bins')
    generalize fromRight bins = later at ih ⊢
    generalize fromRight bins' = later' at ih ⊢
    have hhead : (later.headD empty).Alike (later'.headD empty) := by
      cases ih with
      | nil => exact .refl_empty
      | cons h _ => exact h
    exact .cons (hhead.union h) ih

end Bin

/-- Related lists are related after the same has been done to the elements at each index. -/
theorem forall₂_mapIdx {α β γ δ : Type} {R : α → β → Prop} {S : γ → δ → Prop} {l : List α}
    {l' : List β} {f : Nat → α → γ} {g : Nat → β → δ} (h : List.Forall₂ R l l')
    (hfg : ∀ i x y, R x y → S (f i x) (g i y)) : List.Forall₂ S (l.mapIdx f) (l'.mapIdx g) := by
  induction h generalizing f g with
  | nil => exact .nil
  | cons h _ ih =>
    rw [List.mapIdx_cons, List.mapIdx_cons]
    exact .cons (hfg 0 _ _ h) (ih fun i x y => hfg (i + 1) x y)

theorem forall₂_zip {α β γ δ : Type} {R : α → β → Prop} {S : γ → δ → Prop} {l : List α}
    {l' : List β} {m : List γ} {m' : List δ} (h : List.Forall₂ R l l')
    (h' : List.Forall₂ S m m') :
    List.Forall₂ (fun x y => R x.1 y.1 ∧ S x.2 y.2) (l.zip m) (l'.zip m') := by
  induction h generalizing m m' with
  | nil => exact .nil
  | cons h _ ih =>
    cases h' with
    | nil => exact .nil
    | cons h' ht => exact .cons ⟨h, h'⟩ (ih ht)

/-! ## Rows -/

namespace BinRow

/-- The items whose place in a row is a given bin. -/
def fallen (r : BinRow) (a : Axis) (i : Nat) (items : List Item) : List Item :=
  items.filter fun o => r.place (o.centroid a) = i

/-- A row after items were dropped into it. Nothing falls into a row that cannot be used. -/
structure Drops (a : Axis) (start : BinRow) (items : List Item) (r : BinRow) : Prop where
  origin : r.origin = start.origin
  scale : r.scale = start.scale
  width : r.width = start.width
  valid : r.valid = start.valid
  size : r.bins.size = start.bins.size
  holds : start.valid = true → ∀ (i : Nat) (hi : i < r.bins.size),
    r.bins[i].Holds (start.fallen a i items)

/-- Rows that are alike: the same bins over stretches that begin at the same scalar. -/
structure Alike (r s : BinRow) : Prop where
  origin : r.origin.Alike s.origin
  width : r.width = s.width
  valid : r.valid = s.valid
  bins : r.valid = true → List.Forall₂ Bin.Alike r.bins.toList s.bins.toList

variable {a : Axis} {start start' r s : BinRow} {items items' : List Item} {o : Item} {count : Nat}
  {origin origin' extent extent' : Scalar}

theorem drops_empty (a : Axis) (count : Nat) (origin extent : Scalar) :
    Drops a (empty count origin extent) [] (empty count origin extent) where
  origin := rfl
  scale := rfl
  width := rfl
  valid := rfl
  size := rfl
  holds _ i hi := by
    simp only [empty, Array.getElem_replicate]
    exact Bin.holds_empty

theorem Drops.place_eq (h : Drops a start items r) : r.place = start.place := by
  funext c
  rw [place, place, h.origin, h.scale, h.size]

theorem numeric_fallen (hn : ∀ o ∈ items, o.box.Numeric) (r : BinRow) (a : Axis) (i : Nat) :
    ∀ b ∈ (r.fallen a i items).map Item.box, b.Numeric := by
  intro b hb
  obtain ⟨o, ho, rfl⟩ := List.mem_map.1 hb
  exact hn o (List.mem_of_mem_filter ho)

theorem fallen_append (r : BinRow) (a : Axis) (i : Nat) (items items' : List Item) :
    r.fallen a i (items ++ items') = r.fallen a i items ++ r.fallen a i items' :=
  List.filter_append _ _

theorem fallen_singleton (r : BinRow) (a : Axis) (i : Nat) (o : Item) :
    r.fallen a i [o] = if r.place (o.centroid a) = i then [o] else [] := by
  simp only [fallen, List.filter_cons, List.filter_nil, decide_eq_true_eq]

/-- **One item more is dropped.** -/
theorem Drops.add (h : Drops a start items r) (hn : ∀ o ∈ items, o.box.Numeric)
    (ho : o.box.Numeric) : Drops a start (items ++ [o]) (r.add (o.centroid a) o.box) := by
  cases hvalid : r.valid with
  | false =>
    rw [add_of_not_valid hvalid]
    refine ⟨h.origin, h.scale, h.width, h.valid, h.size, fun hv => ?_⟩
    rw [← h.valid, hvalid] at hv
    cases hv
  | true =>
    rw [add_of_valid hvalid]
    refine ⟨h.origin, h.scale, h.width, h.valid, ?_, fun hv i hi => ?_⟩
    · rw [Array.size_modify]
      exact h.size
    · rw [Array.size_modify] at hi
      have hholds := h.holds hv i hi
      have hplace : r.place (o.centroid a) = start.place (o.centroid a) := congrFun h.place_eq _
      rw [Array.getElem_modify, fallen_append, fallen_singleton]
      simp only [hplace]
      split
      · exact hholds.add (numeric_fallen hn start a i) ho
      · rw [List.append_nil]
        exact hholds

/-- **Items dropped one after the other** are all in their bins. -/
theorem Drops.addAll (h : Drops a start items r) (hn : ∀ o ∈ items, o.box.Numeric)
    (hn' : ∀ o ∈ items', o.box.Numeric) : Drops a start (items ++ items') (r.addAll a items') := by
  induction items' generalizing items r with
  | nil =>
    rw [List.append_nil]
    exact h
  | cons o rest ih =>
    rw [List.forall_mem_cons] at hn'
    have hone : ∀ o' ∈ items ++ [o], o'.box.Numeric := by
      rw [List.forall_mem_append]
      exact ⟨hn, by simpa using hn'.1⟩
    have hnext := ih (h.add hn hn'.1) hone hn'.2
    rw [List.append_assoc, List.singleton_append] at hnext
    exact hnext

/-- Stretches that are alike are cut into the same bins. -/
theorem empty_alike (horigin : origin.Alike origin') (hextent : extent.Alike extent')
    (count : Nat) :
    let r := empty count origin extent
    let s := empty count origin' extent'
    r.valid = s.valid ∧ r.scale = s.scale ∧ r.width = s.width ∧ r.place = s.place := by
  intro r s
  have hsame : (0 < extent && extent.isFinite) = (0 < extent' && extent'.isFinite) ∧
      (0 < extent → extent = extent') := by
    refine ⟨?_, hextent.eq_of_pos⟩
    have hpos := Scalar.Alike.lt_iff (.refl 0) hextent
    by_cases h : 0 < extent
    · rw [hextent.eq_of_pos h]
    · rw [decide_eq_false h, decide_eq_false (hpos.not.1 h)]
      rfl
  obtain ⟨hvalid, heq⟩ := hsame
  have hscale : r.scale = s.scale ∧ r.width = s.width := by
    simp only [r, s, empty, ← hvalid]
    split
    · rename_i hv
      rw [Bool.and_eq_true, decide_eq_true_iff] at hv
      rw [heq hv.1]
      exact ⟨rfl, rfl⟩
    · exact ⟨rfl, rfl⟩
  refine ⟨hvalid, hscale.1, hscale.2, ?_⟩
  funext c
  have hcount : ((c - r.origin) * r.scale).toCount = ((c - s.origin) * s.scale).toCount := by
    rw [hscale.1]
    exact (((Scalar.Alike.refl c).sub horigin).mul (.refl s.scale)).toCount_eq
  have hsize : r.bins.size = s.bins.size := by simp only [r, s, empty, Array.size_replicate]
  rw [place, place, hcount, hsize]

/-- **Items with the same boxes fill rows alike.** -/
theorem Drops.alike (h : Drops a (empty count origin extent) items r)
    (h' : Drops a (empty count origin' extent') items' s) (horigin : origin.Alike origin')
    (hextent : extent.Alike extent') (hs : Item.SameBoxes items items') (ht : Item.Tame items) :
    r.Alike s := by
  obtain ⟨hvalid, -, hwidth, hplace⟩ := empty_alike horigin hextent count
  have hsize : r.bins.size = s.bins.size := by
    rw [h.size, h'.size]
    simp only [empty, Array.size_replicate]
  refine ⟨?_, ?_, ?_, fun hv => ?_⟩
  · rw [h.origin, h'.origin]
    exact horigin
  · rw [h.width, h'.width, hwidth]
  · rw [h.valid, h'.valid, hvalid]
  · rw [h.valid] at hv
    rw [List.forall₂_iff_get]
    refine ⟨by simpa using hsize, fun i hi hi' => ?_⟩
    have hin := h.holds hv i (by simpa using hi)
    have hin' := h'.holds (hvalid ▸ hv) i (by simpa using hi')
    rw [fallen, ← hplace] at hin'
    have hfilter := hs.filter fun b => (empty count origin extent).place (b.centroid a) = i
    simpa using hin.alike hin' hfilter (ht.sublist List.filter_sublist).numeric

/-- **Rows that are alike have the same boundaries.** -/
theorem Alike.splits (h : r.Alike s) (a : Axis) :
    List.Forall₂ Split.Agree (r.splits a) (s.splits a) := by
  rw [BinRow.splits, BinRow.splits, ← h.valid]
  split
  · rename_i hv
    have hbins := h.bins hv
    have htail : List.Forall₂ Bin.Alike (Bin.fromRight r.bins.toList).tail
        (Bin.fromRight s.bins.toList).tail := by
      have hright := Bin.alike_fromRight hbins
      generalize Bin.fromRight r.bins.toList = later at hright ⊢
      generalize Bin.fromRight s.bins.toList = later' at hright ⊢
      cases hright with
      | nil => exact .nil
      | cons _ hrest => exact hrest
    refine forall₂_mapIdx (forall₂_zip (Bin.alike_fromLeft hbins) htail) ?_
    rintro i ⟨left, right⟩ ⟨left', right'⟩ ⟨(hl : left.Alike left'), (hr : right.Alike right')⟩
    simp only [hl.count, hr.count, hl.weight_eq, hr.weight_eq, h.width]
    split
    · exact .none
    · exact .some ⟨rfl, h.origin.add (.refl _), rfl⟩
  · exact .nil

end BinRow

/-! ## All axes -/

namespace Bins

variable {items items' : List Item} {centers centers' : Box} {nested nested' : Bool}
  {tasks tasks' : Nat} {bins bins' : Bins} {group group' : Grouping.Way Item}

/-- The row of an axis before anything has fallen into it. -/
def startRow (n : Nat) (centers : Box) (a : Axis) : BinRow :=
  .empty (clamp (countFor n)) (centers.lo.get a) (centers.extent a)

/-- **Every row holds the items.** -/
theorem addAll_drops (count : Nat) (centers : Box) (hn : ∀ o ∈ items, o.box.Numeric) (a : Axis) :
    BinRow.Drops a (.empty (clamp count) (centers.lo.get a) (centers.extent a)) items
      (((empty count centers).addAll items).rows.get a) := by
  rw [get_addAll, get_empty]
  exact (BinRow.drops_empty a _ _ _).addAll (List.forall_mem_nil _) hn

/-- Every way of gathering drops the items into their bins. -/
theorem gather_drops (hn : ∀ o ∈ items, o.box.Numeric)
    (h : gather group items centers nested tasks = .ok bins) (a : Axis) :
    BinRow.Drops a (startRow items.length centers a) items (bins.rows.get a) := by
  rw [gather_eq hn h]
  exact addAll_drops _ _ hn a

/-- **The cheapest boundary is that of the boxes**, however their items are ordered and their bins
are gathered. -/
theorem cheapest_agree (hs : Item.SameBoxes items items') (ht : Item.Tame items)
    (hc : centers.Numeric) (hc' : centers'.Numeric) (hfaces : centers.faces = centers'.faces)
    (h : gather group items centers nested tasks = .ok bins)
    (h' : gather group' items' centers' nested' tasks' = .ok bins') :
    Split.Agree bins.cheapest bins'.cheapest := by
  have hrows : ∀ a, (bins.rows.get a).Alike (bins'.rows.get a) := by
    intro a
    obtain ⟨hlo, hhi⟩ := Prod.mk.inj (congrFun hfaces a)
    have horigin := Scalar.alike_of_units (hc a).1 (hc' a).1 (OrderDual.toDual_inj.1 hlo)
    have hextent := (Scalar.alike_of_units (hc a).2 (hc' a).2 hhi).sub horigin
    have hdrops := gather_drops (fun o ho => (ht.finite o ho).numeric) h a
    have hdrops' := gather_drops (fun o ho => ((hs.tame ht).finite o ho).numeric) h' a
    rw [← hs.length_eq] at hdrops'
    exact hdrops.alike hdrops' horigin hextent hs ht
  refine Split.Agree.best ?_
  simp only [Axis.all, List.flatMap_cons, List.flatMap_nil, List.append_nil]
  exact List.rel_append ((hrows .x).splits .x) (List.rel_append ((hrows .y).splits .y)
    ((hrows .z).splits .z))

end Bins

end BoxTree
