import BoxTree.Proofs.Box.Areas
import BoxTree.Proofs.Partition.Summary
/-!
# Planes and their cost

A plane across an axis separates items when some go left and some go right. Its cost factor is the
one a search would compute for it from the boxes of the two sides. Neither depends on the order of
the items, and **some plane separates finite boxes exactly when their centroids are not all equal**
(`Item.spread_iff`).
-/

namespace BoxTree

open BoxTree.Partition

namespace Item

/-- Items with finite boxes, no more of them than can be counted in 64 bits. -/
structure Tame (items : List Item) : Prop where
  finite : ∀ o ∈ items, o.box.Finite
  length : items.length < 2 ^ 64

/-- Items that differ in their centroids along some axis. -/
def Spread (items : List Item) : Prop :=
  ∃ a, ∃ o ∈ items, ∃ p ∈ items, (o.centroid a == p.centroid a) = false

variable {a : Axis} {v : Scalar} {o p : Item} {items items' : List Item}

theorem Tame.of_subset (h : Tame items) (hs : items' ⊆ items) (hl : items'.length ≤ items.length) :
    Tame items' :=
  ⟨fun o ho => h.finite o (hs ho), Nat.lt_of_le_of_lt hl h.length⟩

theorem Tame.perm (h : Tame items) (hp : items.Perm items') : Tame items' :=
  h.of_subset hp.symm.subset hp.length_eq.ge

theorem Tame.sublist (h : Tame items) (hs : items'.Sublist items) : Tame items' :=
  h.of_subset hs.subset hs.length_le

theorem Tame.isNaN (h : Tame items) (ho : o ∈ items) (a : Axis) :
    (o.centroid a).isNaN = false := (h.finite o ho).isNaN_centroid a

theorem Tame.numeric (h : Tame items) : ∀ b ∈ items.map Item.box, b.Numeric := by
  intro b hb
  obtain ⟨o, ho, rfl⟩ := List.mem_map.1 hb
  exact (h.finite o ho).numeric

/-- An item that goes left of a plane goes left by its units. -/
theorem goesLeft_iff (ho : (o.centroid a).isNaN = false) :
    o.goesLeft a v = true ↔ v.isNaN = false ∧ (o.centroid a).units ≤ v.units := by
  rw [goesLeft, decide_eq_true_iff]
  constructor
  · intro h
    have hv : v.isNaN = false := Scalar.isNaN_of_le h
    exact ⟨hv, (Scalar.le_iff_units ho hv).1 h⟩
  · rintro ⟨hv, h⟩
    exact (Scalar.le_iff_units ho hv).2 h

/-- What lies before an item that goes left goes left. -/
theorem goesLeft_of_units_le (ho : (o.centroid a).isNaN = false)
    (hp : (p.centroid a).isNaN = false) (hle : (o.centroid a).units ≤ (p.centroid a).units)
    (h : p.goesLeft a v = true) : o.goesLeft a v = true := by
  rw [goesLeft_iff hp] at h
  exact (goesLeft_iff ho).2 ⟨h.1, hle.trans h.2⟩

/-- The plane through the centroid of an item leaves it on its left, and what lies beyond right. -/
theorem parted_of_units_lt (ho : (o.centroid a).isNaN = false) (hp : (p.centroid a).isNaN = false)
    (hlt : (o.centroid a).units < (p.centroid a).units) :
    o.goesLeft a (o.centroid a) = true ∧ p.goesLeft a (o.centroid a) = false := by
  refine ⟨(goesLeft_iff ho).2 ⟨ho, le_refl _⟩, ?_⟩
  rw [← Bool.not_eq_true, goesLeft_iff hp]
  omega

theorem Spread.perm (h : Spread items) (hp : items.Perm items') : Spread items' := by
  obtain ⟨a, o, ho, p, hp', hne⟩ := h
  exact ⟨a, o, hp.mem_iff.1 ho, p, hp.mem_iff.1 hp', hne⟩

theorem Spread.of_subset (h : Spread items) (hs : items ⊆ items') : Spread items' := by
  obtain ⟨a, o, ho, p, hp, hne⟩ := h
  exact ⟨a, o, hs ho, p, hs hp, hne⟩

end Item

namespace Split

/-- The number of items times the half area of the box around them. -/
def weight (items : List Item) : Scalar :=
  Scalar.ofCount items.length * (Box.around (items.map Item.box)).halfArea

/-- The cost factor of a plane: the weights of its two sides. -/
def factor (a : Axis) (v : Scalar) (items : List Item) : Scalar :=
  weight (lefts a v items) + weight (rights a v items)

/-- Some items go left of a plane and some go right. -/
def Separates (a : Axis) (v : Scalar) (items : List Item) : Prop :=
  lefts a v items ≠ [] ∧ rights a v items ≠ []

/-- No plane that separates the items has an infinite cost factor. -/
def Affordable (items : List Item) : Prop :=
  ∀ a v, Separates a v items → (factor a v items).isInf = false

/-- The least cost factor of the planes that separate some items. -/
structure Least (items : List Item) (c : Scalar) : Prop where
  attained : ∃ a v, Separates a v items ∧ factor a v items = c
  le : ∀ a v, Separates a v items → c ≤ factor a v items

variable {a : Axis} {v c c' : Scalar} {items items' : List Item}

theorem separates_iff : Separates a v items ↔
    (∃ o ∈ items, o.goesLeft a v = true) ∧ ∃ o ∈ items, o.goesLeft a v = false := by
  simp only [Separates, lefts, rights, ne_eq, List.filter_eq_nil_iff, not_forall]
  simp

theorem Separates.of_subset (h : Separates a v items) (hs : items ⊆ items') :
    Separates a v items' := by
  rw [separates_iff] at h ⊢
  obtain ⟨⟨o, ho, hleft⟩, p, hp, hright⟩ := h
  exact ⟨⟨o, hs ho, hleft⟩, p, hs hp, hright⟩

/-- What goes right of a plane that separates items lies beyond it. -/
theorem Separates.rights_eq (h : Separates a v items) (ht : Item.Tame items) :
    rights a v items = items.filter fun o => v < o.centroid a := by
  obtain ⟨⟨o, ho, hleft⟩, -⟩ := separates_iff.1 h
  obtain ⟨hv, -⟩ := (Item.goesLeft_iff (ht.isNaN ho a)).1 hleft
  refine List.filter_congr fun p hp => ?_
  have hp := ht.isNaN hp a
  rw [Bool.eq_iff_iff, Bool.not_eq_true', ← Bool.not_eq_true, Item.goesLeft_iff hp,
    decide_eq_true_iff, Scalar.lt_iff_units hv hp, and_iff_right hv, not_le]

theorem nonneg_weight (h : items.length < 2 ^ 64) : (weight items).Nonneg := by
  rcases Nat.eq_zero_or_pos items.length with hzero | hpos
  · rw [List.eq_nil_of_length_eq_zero hzero]
    rfl
  · exact (Scalar.positive_ofCount hpos h).mul (Box.nonneg_halfArea _)

theorem nonneg_factor (h : Item.Tame items) (a : Axis) (v : Scalar) :
    (factor a v items).Nonneg := by
  have hl : (weight (lefts a v items)).Nonneg :=
    nonneg_weight (h.sublist List.filter_sublist).length
  have hr : (weight (rights a v items)).Nonneg :=
    nonneg_weight (h.sublist List.filter_sublist).length
  exact hl.add hr

theorem weight_perm (h : Item.Tame items) (hp : items.Perm items') :
    weight items = weight items' := by
  have hbox := hp.map Item.box
  rw [weight, weight, hp.length_eq, Box.halfArea_eq (Box.numeric_around h.numeric)
    (Box.numeric_around (h.perm hp).numeric) (Box.faces_around_perm h.numeric hbox)]

theorem factor_perm (h : Item.Tame items) (hp : items.Perm items') (a : Axis) (v : Scalar) :
    factor a v items = factor a v items' := by
  have hl : weight (lefts a v items) = weight (lefts a v items') :=
    weight_perm (h.sublist List.filter_sublist) (hp.filter _)
  have hr : weight (rights a v items) = weight (rights a v items') :=
    weight_perm (h.sublist List.filter_sublist) (hp.filter _)
  rw [factor, factor, hl, hr]

theorem Affordable.perm (h : Affordable items) (ht : Item.Tame items) (hp : items.Perm items') :
    Affordable items' := by
  intro a v hsep
  rw [← factor_perm ht hp]
  exact h a v (hsep.of_subset hp.symm.subset)

/-- Any items among some whose parts weigh less than infinity are affordable. -/
theorem Affordable.of_subperm (ht : Item.Tame items')
    (hparts : ∀ l ∈ items'.sublists, ∀ r ∈ items'.sublists, (weight l + weight r).isInf = false)
    (hsub : items.Subperm items') : Affordable items := by
  -- whatever goes to one side of a plane weighs as much as a part
  have hpart : ∀ side : Item → Bool, ∃ part ∈ items'.sublists,
      weight (items.filter side) = weight part := by
    intro side
    obtain ⟨part, hperm, hpart⟩ := List.filter_sublist.subperm.trans hsub
    exact ⟨part, List.mem_sublists.2 hpart, (weight_perm (ht.sublist hpart) hperm).symm⟩
  intro a v _
  obtain ⟨l, hl, hleft⟩ := hpart fun o => o.goesLeft a v
  obtain ⟨r, hr, hright⟩ := hpart fun o => !o.goesLeft a v
  rw [factor, lefts, rights, hleft, hright]
  exact hparts l hl r hr

/-- The least cost factor is a single scalar. -/
theorem Least.unique (h : Item.Tame items) (hc : Least items c) (hc' : Least items c') :
    c = c' := by
  obtain ⟨a, v, hsep, rfl⟩ := hc.attained
  obtain ⟨a', v', hsep', rfl⟩ := hc'.attained
  have hn := nonneg_factor h a v
  have hn' := nonneg_factor h a' v'
  have hle := hc.le a' v' hsep'
  have hge := hc'.le a v hsep
  rw [Scalar.le_iff_units hn.isNaN hn'.isNaN] at hle
  rw [Scalar.le_iff_units hn'.isNaN hn.isNaN] at hge
  exact hn.eq_of_units hn' (le_antisymm hle hge)

theorem Least.perm (h : Item.Tame items) (hc : Least items c) (hp : items.Perm items') :
    Least items' c where
  attained := by
    obtain ⟨a, v, hsep, hf⟩ := hc.attained
    exact ⟨a, v, hsep.of_subset hp.subset, (factor_perm h hp a v).symm.trans hf⟩
  le a v hsep := by
    rw [← factor_perm h hp a v]
    exact hc.le a v (hsep.of_subset hp.symm.subset)

end Split

/-- **Some plane separates items exactly when they are spread.** -/
theorem Item.spread_iff {items : List Item} (h : Item.Tame items) :
    Item.Spread items ↔ ∃ a v, Split.Separates a v items := by
  constructor
  · rintro ⟨a, o, ho, p, hp, hne⟩
    have hno := h.isNaN ho a
    have hnp := h.isNaN hp a
    -- the lesser of two centroids is a plane between them
    have hplane : ∀ {o p : Item}, o ∈ items → p ∈ items →
        (o.centroid a).units < (p.centroid a).units → ∃ a v, Split.Separates a v items := by
      intro o p ho hp hlt
      obtain ⟨hleft, hright⟩ := parted_of_units_lt (h.isNaN ho a) (h.isNaN hp a) hlt
      exact ⟨a, o.centroid a, Split.separates_iff.2 ⟨⟨o, ho, hleft⟩, p, hp, hright⟩⟩
    have hunits : (o.centroid a).units ≠ (p.centroid a).units := by
      rw [ne_eq, ← Scalar.beq_iff_units hno hnp, hne]
      nofun
    rcases Int.lt_or_gt_of_ne hunits with hlt | hlt
    · exact hplane ho hp hlt
    · exact hplane hp ho hlt
  · rintro ⟨a, v, hsep⟩
    obtain ⟨⟨o, ho, hleft⟩, p, hp, hright⟩ := Split.separates_iff.1 hsep
    refine ⟨a, o, ho, p, hp, ?_⟩
    rw [← Bool.not_eq_true, Scalar.beq_iff_units (h.isNaN ho a) (h.isNaN hp a)]
    intro heq
    rw [goesLeft_of_units_le (h.isNaN hp a) (h.isNaN ho a) heq.ge hleft] at hright
    cases hright

end BoxTree
