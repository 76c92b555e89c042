import BoxTree.Proofs.Growth.Grows
import BoxTree.Proofs.Scalar.Ranks
/-!
# Sorted plots

The three arrays of an exact build are sorted along the axes once, before the first partition, and
are never sorted again. They stay in order because a stable partition, like a cut, hands each side
a sublist of every array; and since all three deal out the same items, the sides agree in length
(`Plan.passes_sorted`). A leaf therefore holds its items in their order along the first axis.
-/

namespace BoxTree

open BoxTree.Partition

namespace Item

/-- Items in their order along an axis. -/
def Sorted (nans : Item → Axis → Scalar.NaN) (a : Axis) (items : List Item) : Prop :=
  items.Pairwise fun o p => before nans a o p = true

variable {nans : Item → Axis → Scalar.NaN} {a : Axis} {o p q : Item} {items items' : List Item}

theorem before_iff :
    before nans a o p = true ↔
      (o.centroid a).rank (nans o a) < (p.centroid a).rank (nans p a) ∨
      ((o.centroid a).rank (nans o a) = (p.centroid a).rank (nans p a) ∧ o.index ≤ p.index) := by
  simp only [before, Bool.or_eq_true, Bool.and_eq_true, decide_eq_true_eq, beq_iff_eq]

theorem before_trans (h : before nans a o p = true) (h' : before nans a p q = true) :
    before nans a o q = true := by
  rw [before_iff] at h h' ⊢
  omega

theorem before_total (nans : Item → Axis → Scalar.NaN) (a : Axis) (o p : Item) :
    (before nans a o p || before nans a p o) = true := by
  rw [Bool.or_eq_true, before_iff, before_iff]
  omega

/-- The ranks of items that are in order rise. -/
theorem rank_le_of_before (h : before nans a o p = true) :
    (o.centroid a).rank (nans o a) ≤ (p.centroid a).rank (nans p a) := by
  rcases before_iff.1 h with hlt | ⟨heq, -⟩
  · exact Nat.le_of_lt hlt
  · exact Nat.le_of_eq heq

theorem sorted_sortAlong (a : Axis) (items : List Item) (nans : Item → Axis → Scalar.NaN) :
    Sorted nans a (sortAlong a items nans) := by
  unfold Sorted sortAlong
  apply List.pairwise_mergeSort
  · exact fun _ _ _ => before_trans
  · exact fun o p => before_total nans a o p

/-- A box without end to either side has no center, and as a rule its place is before all others. -/
example :
    let items := ofBoxes [⟨⟨0, 0, 0⟩, ⟨1, 1, 1⟩⟩, ⟨⟨-.infinity, 0, 0⟩, ⟨.infinity, 1, 1⟩⟩]
    Sorted usualNaN .x items.reverse := by
  unfold Sorted
  decide +kernel

theorem Sorted.sublist (h : Sorted nans a items) (hs : items'.Sublist items) :
    Sorted nans a items' :=
  List.Pairwise.sublist hs h

/-- **Numbers are ordered without regard to encodings** of what is not one. -/
theorem before_eq (ho : (o.centroid a).isNaN = false) (hp : (p.centroid a).isNaN = false)
    (nans nans' : Item → Axis → Scalar.NaN) : before nans a o p = before nans' a o p := by
  simp only [before, Scalar.rank_of_isNaN_eq_false ho, Scalar.rank_of_isNaN_eq_false hp]

/-- Items whose centroids are numbers have one order. -/
theorem sortAlong_congr (h : ∀ o ∈ items, (o.centroid a).isNaN = false)
    (nans nans' : Item → Axis → Scalar.NaN) : sortAlong a items nans = sortAlong a items nans' := by
  have hmap := List.map_mergeSort (r := before nans a) (s := before nans' a) (f := id)
    fun o ho p hp => before_eq (h o ho) (h p hp) nans nans'
  rwa [List.map_id, List.map_id] at hmap

end Item

namespace Stock

variable {nans : Item → Axis → Scalar.NaN}

/-- Every array of an exact build is in order along its axis. -/
def Sorted (nans : Item → Axis → Scalar.NaN) : Stock → Prop
  | sorted v => ∀ a, Item.Sorted nans a (v.get a)
  | single _ => True

/-- A sublist of every array is in order. -/
theorem Sorted.map {s : Stock} (h : s.Sorted nans) {f : List Item → List Item}
    (hf : ∀ items, (f items).Sublist items) : (s.map f).Sorted nans := by
  cases s with
  | sorted v =>
    intro a
    rw [PerAxis.get_map]
    exact (h a).sublist (hf _)
  | single items => trivial

/-- The items of an exact build are in order along the first axis. -/
theorem Sorted.order {s : Stock} (h : s.Sorted nans) (hs : s.Suits .exact) :
    Item.Sorted nans .x s.order := by
  cases s with
  | sorted v => exact h .x
  | single items => exact hs.elim

end Stock

variable {p : Plan} {back : Bool} {n : Nat} {q : Plot} {t : Growth}

/-- **The sides of a partition are in order** along every axis. -/
theorem Plan.dealt_sorted {nans : Item → Axis → Scalar.NaN} {r : Region} {s : Split}
    {stock stock' : Stock} {h : Halves} (hsorted : stock.Sorted nans) (hc : stock.Coherent)
    (hd : p.dealt back r s stock = .ok (stock', h)) :
    (stock'.map (List.take h.left.count)).Sorted nans ∧
      (stock'.map (List.drop h.left.count)).Sorted nans := by
  cases stock with
  | sorted v =>
    obtain ⟨rfl, rfl⟩ := Prod.mk.inj (Except.ok.inj hd)
    -- the boundary that was counted on one array is that of all three
    have hcount : ∀ a, (Halves.count s.axis s.value (v.get s.axis)).left.count =
        (lefts s.axis s.value (v.get a)).length := by
      intro a
      rw [(sides_count s.axis s.value _).1.count]
      exact (((hc s.axis).trans (hc a).symm).filter _).length_eq
    refine ⟨fun a => ?_, fun a => ?_⟩
    · rw [PerAxis.get_map, PerAxis.get_map, hcount a, take_stable]
      exact (hsorted a).sublist List.filter_sublist
    · rw [PerAxis.get_map, PerAxis.get_map, hcount a, drop_stable]
      exact (hsorted a).sublist List.filter_sublist
  | single items =>
    have hsingle : ∃ items', stock' = .single items' := by
      simp only [dealt] at hd
      split at hd
      · obtain ⟨size, -, heq⟩ := map_eq_ok_iff.1 hd
        exact ⟨_, (Prod.mk.inj heq).1.symm⟩
      · exact ⟨_, (Prod.mk.inj (Except.ok.inj hd)).1.symm⟩
    obtain ⟨items', rfl⟩ := hsingle
    exact ⟨trivial, trivial⟩

/-- A sound plot whose arrays are in order. -/
structure Plot.Ordered (p : Plan) (back : Bool) (n : Nat) (q : Plot) : Prop where
  sound : q.Sound p back n
  sorted : q.stock.Sorted p.platform.nans

/-- **Moves keep the arrays in order.** -/
theorem Plan.passes_sorted (hp : p.Usable back) : p.Passes back (Plot.Ordered p back n) := by
  intro q mv hq hm
  have hsound := move_sound hp hq.sound hm
  have hleaves : mv.Leaves (fun c => c.stock.Sorted p.platform.nans) q := by
    obtain ⟨d, hv, ha⟩ := bind_eq_ok_iff.1 hm
    cases d with
    | stop => exact absurd hv verdict_ne_stop
    | leaf reason =>
      cases ha
      trivial
    | giveUp =>
      cases ha
      exact hq.sorted
    | cut =>
      cases ha
      exact ⟨hq.sorted.map fun items => List.take_sublist _ _,
        hq.sorted.map fun items => List.drop_sublist _ _⟩
    | divide s =>
      obtain ⟨⟨stock, halves⟩, hd, rfl⟩ := map_eq_ok_iff.1 ha
      have hwhole := whole_of_verdict hv nofun nofun
      have hsides := dealt_sorted hq.sorted (hq.sound.coherent hwhole) hd
      simp only [divided]
      split
      · -- an exact build goes on with the arrays it had
        split
        · exact hq.sorted
        · rename_i hflips
          have hdeals := dealt_deals hq.sound.suits (hq.sound.coherent hwhole) hd
          cases stock with
          | single items => trivial
          | sorted v =>
            have hsuits := hdeals.suits
            cases hsearch : p.search with
            | exact => exact absurd (by simp only [flips, hsearch]) hflips
            | binning =>
              rw [hsearch] at hsuits
              exact hsuits.elim
      · exact hsides
  cases mv with
  | leaf reason => trivial
  | halve stock => exact ⟨hsound.1, hleaves⟩
  | fork apart left right => exact ⟨⟨hsound.1, hleaves.1⟩, hsound.2.1, hleaves.2⟩

/-! ## Trees -/

/-- Every leaf of a tree holds its items in order along the first axis. -/
def Growth.Sorted (nans : Item → Axis → Scalar.NaN) : Growth → Prop
  | leaf _ _ items => Item.Sorted nans .x items
  | fork _ _ left right => left.Sorted nans ∧ right.Sorted nans

/-- **The leaves of an exact build are in order.** -/
theorem Grows.sorted (hp : p.Usable back) (hexact : p.search = .exact)
    (hq : q.Ordered p back n) (h : Grows p back q t) : t.Sorted p.platform.nans := by
  induction h with
  | leaf hm => exact hq.sorted.order (hexact ▸ hq.sound.suits)
  | halve hm _ ih => exact ih (Plan.passes_sorted hp _ _ hq hm)
  | fork hm _ _ ihl ihr =>
    obtain ⟨hl, hr⟩ := Plan.passes_sorted hp _ _ hq hm
    exact ⟨ihl hl, ihr hr⟩

end BoxTree
