import BoxTree.Proofs.Split.Planes
import BoxTree.Split.Sweep
/-!
# The sweep finds the cheapest plane

Along an axis on which the centroids of the items ascend, every plane cuts them in front of one
item: what lies before goes left, and the rest right. The second pass looks at every such place, and
keeps the best of all planes that separate the items it has passed (`Pass.Sees`). When all items are
passed this is the best plane across the axis, and the best of the three axes is the best plane of
all (`Sweep.best_all`). Costs that are infinite are never kept, so they are excluded.
-/

namespace BoxTree

open BoxTree.Partition

namespace Item

/-- Items whose centroids ascend along an axis. -/
def Ascending (a : Axis) (items : List Item) : Prop :=
  items.Pairwise fun o p => (o.centroid a).units ≤ (p.centroid a).units

variable {a : Axis} {v : Scalar} {front rest items items' : List Item} {o d : Item}

theorem Ascending.sublist (h : Ascending a items) (hs : items'.Sublist items) :
    Ascending a items' := List.Pairwise.sublist hs h

/-- An item that goes left takes along all items before it. -/
theorem Ascending.goesLeft (h : Ascending a (front ++ rest))
    (hc : ∀ c ∈ front ++ rest, (c.centroid a).isNaN = false) (ho : o ∈ front) (hd : d ∈ rest)
    (hleft : d.goesLeft a v = true) : o.goesLeft a v = true := by
  obtain ⟨-, -, hle⟩ := List.pairwise_append.1 h
  exact goesLeft_of_units_le (hc o (List.mem_append_left _ ho)) (hc d (List.mem_append_right _ hd))
    (hle o ho d hd) hleft

/-- **A plane between two neighbours** cuts the items there. -/
theorem Ascending.sides (h : Ascending a (front ++ o :: d :: rest))
    (hn : ∀ c ∈ front ++ o :: d :: rest, (c.centroid a).isNaN = false)
    (hleft : o.goesLeft a v = true) (hright : d.goesLeft a v = false) :
    lefts a v (front ++ o :: d :: rest) = front ++ [o] ∧
      rights a v (front ++ o :: d :: rest) = d :: rest := by
  have hfront : ∀ c ∈ front ++ [o], c.goesLeft a v = true := by
    intro c hc
    rcases List.mem_append.1 hc with hc | hc
    · exact h.goesLeft hn hc List.mem_cons_self hleft
    · rw [List.mem_singleton.1 hc]
      exact hleft
  have htail : ∀ c ∈ d :: rest, c.goesLeft a v = false := by
    intro c hc
    rcases List.mem_cons.1 hc with rfl | hc
    · exact hright
    · rw [← Bool.not_eq_true]
      intro hcleft
      have hsub : ([d] ++ rest).Sublist (front ++ o :: d :: rest) :=
        (List.sublist_cons_self o _).trans (List.sublist_append_right _ _)
      rw [(h.sublist hsub).goesLeft (fun c hc => hn c (hsub.subset hc)) (List.mem_singleton_self d)
        hc hcleft] at hright
      cases hright
  have hcut : front ++ o :: d :: rest = (front ++ [o]) ++ d :: rest := by
    rw [List.append_assoc, List.singleton_append]
  rw [hcut, lefts_append, rights_append]
  refine ⟨?_, ?_⟩
  · rw [lefts, lefts, List.filter_eq_self.2 hfront, List.filter_eq_nil_iff.2 (by simpa using htail),
      List.append_nil]
  · rw [rights, rights, List.filter_eq_nil_iff.2 (by simpa using hfront), List.nil_append,
      List.filter_eq_self.2 (by simpa using htail)]

end Item

namespace Split

/-- The best of the planes with a property, by their cost factors over some items. -/
def Best (P : Axis → Scalar → Prop) (items : List Item) : Option Split → Prop
  | none => ∀ a v, ¬ P a v
  | some s => P s.axis s.value ∧ s.cost = factor s.axis s.value items ∧
      ∀ a v, P a v → s.cost ≤ factor a v items

variable {P Q : Axis → Scalar → Prop} {items items' : List Item} {x y : Option Split}

theorem Best.congr (h : Best P items x) (hPQ : ∀ a v, P a v ↔ Q a v) : Best Q items x := by
  have hPQ : P = Q := funext fun a => funext fun v => propext (hPQ a v)
  exact hPQ ▸ h

/-- **The better of two splits** is the best of the planes of both. -/
theorem Best.better (ht : Item.Tame items) (hx : Best P items x) (hy : Best Q items y) :
    Best (fun a v => P a v ∨ Q a v) items (better x y) := by
  cases x with
  | none =>
    refine Best.congr (P := Q) ?_ fun a v => ⟨.inr, fun h => h.resolve_left (hx a v)⟩
    exact hy
  | some s =>
    cases y with
    | none => exact Best.congr hx fun a v => ⟨.inl, fun h => h.resolve_right (hy a v)⟩
    | some t =>
      obtain ⟨hs, hscost, hsle⟩ := hx
      obtain ⟨htp, htcost, htle⟩ := hy
      have hsn : s.cost.isNaN = false := hscost ▸ (nonneg_factor ht _ _).isNaN
      have htn : t.cost.isNaN = false := htcost ▸ (nonneg_factor ht _ _).isNaN
      have htrans : ∀ {b c : Scalar} a v, b.isNaN = false → c.isNaN = false → b.units ≤ c.units →
          c ≤ factor a v items → b ≤ factor a v items := by
        intro b c a v hb hc hbc hle
        have hf := (nonneg_factor ht a v).isNaN
        rw [Scalar.le_iff_units hc hf] at hle
        exact (Scalar.le_iff_units hb hf).2 (hbc.trans hle)
      rw [Split.better]
      split
      · rename_i hlt
        rw [Scalar.lt_iff_units htn hsn] at hlt
        refine ⟨.inr htp, htcost, fun a v h => ?_⟩
        rcases h with h | h
        · exact htrans a v htn hsn hlt.le (hsle a v h)
        · exact htle a v h
      · rename_i hge
        rw [Scalar.lt_iff_units htn hsn] at hge
        refine ⟨.inl hs, hscost, fun a v h => ?_⟩
        rcases h with h | h
        · exact hsle a v h
        · exact htrans a v hsn htn (by omega) (htle a v h)

theorem Best.perm (h : Best P items x) (ht : Item.Tame items) (hp : items.Perm items') :
    Best P items' x := by
  cases x with
  | none => exact h
  | some s =>
    obtain ⟨hs, hcost, hle⟩ := h
    refine ⟨hs, hcost.trans (factor_perm ht hp _ _), fun a v hav => ?_⟩
    rw [← factor_perm ht hp]
    exact hle a v hav

/-- The best of all planes has the least cost. -/
theorem Best.least {s : Split} (h : Best (fun a v => Separates a v items) items (some s)) :
    Least items s.cost :=
  ⟨⟨s.axis, s.value, h.1, h.2.1.symm⟩, h.2.2⟩

end Split

namespace Sweep

variable {a : Axis} {items front rest : List Item} {o d : Item} {p : Pass}

/-- The first pass ends with the area of all items. -/
theorem leftAreas_concat (items : List Item) (o : Item) :
    leftAreas (items ++ [o]) =
      leftAreas items ++ [(Box.around ((items ++ [o]).map Item.box)).halfArea] := by
  have hscan : ((items ++ [o]).map Item.box).scanl Box.union .empty =
      (items.map Item.box).scanl Box.union .empty ++
        [Box.around ((items ++ [o]).map Item.box)] := by
    rw [List.map_append, List.scanl_append, Box.around, List.foldl_append]
    simp
  rw [leftAreas, hscan, List.tail_append_of_ne_nil List.scanl_ne_nil, List.map_append]
  rfl

theorem length_leftAreas (items : List Item) : (leftAreas items).length = items.length := by
  simp [leftAreas]

/-- The last item comes first on the way back. -/
theorem reverse_zip_leftAreas (front : List Item) (o : Item) :
    ((front ++ [o]).zip (leftAreas (front ++ [o]))).reverse =
      (o, (Box.around ((front ++ [o]).map Item.box)).halfArea) ::
        (front.zip (leftAreas front)).reverse := by
  rw [leftAreas_concat, List.zip_append (length_leftAreas front).symm, List.reverse_append]
  rfl

namespace Pass

/-- A pass that has the item `d` and those after it behind it. -/
structure Behind (a : Axis) (d : Item) (rest : List Item) (p : Pass) : Prop where
  numeric : p.right.Numeric
  faces : p.right.faces = (Box.around ((d :: rest).map Item.box)).faces
  count : p.count = rest.length + 1
  last : p.last = d.centroid a

/-- A pass comes to the item in front. -/
theorem Behind.step (h : p.Behind a d rest) (hn : ∀ c ∈ o :: d :: rest, c.box.Numeric)
    (total : Nat) (area : Scalar) : (p.step a total (o, area)).Behind a o (d :: rest) := by
  obtain ⟨hobox, hrest⟩ := List.forall_mem_cons.1 hn
  have hboxes : ∀ b ∈ (d :: rest).map Item.box, b.Numeric := List.forall_mem_map.2 hrest
  refine ⟨h.numeric.union hobox, ?_, congrArg (· + 1) h.count, rfl⟩
  change (p.right.union o.box).faces = _
  rw [Box.faces_union h.numeric hobox, h.faces, List.map_cons (l := d :: rest),
    Box.faces_around_cons hobox hboxes, sup_comm]

theorem behind_start (ho : o.box.Numeric) : (start a o).Behind a o [] where
  numeric := ho
  faces := by
    rw [List.map_cons, Box.faces_around_cons ho (by simp)]
    exact (sup_eq_left.2 (Box.faces_empty_le _)).symm
  count := rfl
  last := rfl

/-- **A plane between two neighbours** costs what the pass has on its two sides there. -/
theorem Behind.factor_eq {v : Scalar} (h : p.Behind a d rest)
    (hitems : items = front ++ o :: d :: rest) (ha : Item.Ascending a items)
    (ht : Item.Tame items) (hleft : o.goesLeft a v = true) (hright : d.goesLeft a v = false) :
    Split.factor a v items = Scalar.ofCount (items.length - p.count) *
      (Box.around ((front ++ [o]).map Item.box)).halfArea +
        Scalar.ofCount p.count * p.right.halfArea := by
  have hsub : (d :: rest).Sublist items :=
    hitems ▸ (List.sublist_cons_self o _).trans (List.sublist_append_right _ _)
  obtain ⟨hl, hr⟩ := Item.Ascending.sides (hitems ▸ ha) (fun c hc => ht.isNaN (hitems ▸ hc) a)
    hleft hright
  rw [← hitems] at hl hr
  have hcount : items.length - p.count = (front ++ [o]).length := by
    rw [hitems, h.count]
    simp only [List.length_append, List.length_cons, List.length_nil]
    omega
  rw [Split.factor, hl, hr, Split.weight, Split.weight, hcount, h.count,
    Box.halfArea_eq h.numeric (Box.numeric_around (ht.sublist hsub).numeric) h.faces]
  rfl

/-- What a pass has seen once the item `d` and those behind it are passed. -/
structure Sees (a : Axis) (items : List Item) (d : Item) (rest : List Item) (p : Pass) : Prop where
  numeric : p.right.Numeric
  faces : p.right.faces = (Box.around ((d :: rest).map Item.box)).faces
  count : p.count = rest.length + 1
  last : p.last = d.centroid a
  best : Split.Best (fun b v => b = a ∧ Split.Separates a v (d :: rest)) items p.best

theorem Sees.behind (h : p.Sees a items d rest) : p.Behind a d rest :=
  ⟨h.numeric, h.faces, h.count, h.last⟩

theorem Behind.sees (h : p.Behind a d rest)
    (hbest : Split.Best (fun b v => b = a ∧ Split.Separates a v (d :: rest)) items p.best) :
    p.Sees a items d rest := ⟨h.numeric, h.faces, h.count, h.last, hbest⟩

theorem sees_start (ht : Item.Tame [o]) : (start a o).Sees a items o [] := by
  refine (behind_start (ht.finite o (List.mem_singleton_self _)).numeric).sees ?_
  rintro b v ⟨rfl, hsep⟩
  obtain ⟨⟨c, hc, hleft⟩, c', hc', hright⟩ := Split.separates_iff.1 hsep
  cases List.mem_singleton.1 hc
  cases List.mem_singleton.1 hc'
  rw [hleft] at hright
  cases hright

/-- The planes that separate one item more lie between it and the next. -/
theorem separates_cons_iff {v : Scalar} (ha : Item.Ascending a (o :: d :: rest))
    (ht : Item.Tame (o :: d :: rest)) : Split.Separates a v (o :: d :: rest) ↔
      Split.Separates a v (d :: rest) ∨ o.goesLeft a v = true ∧ d.goesLeft a v = false := by
  constructor
  · intro h
    obtain ⟨⟨c, hc, hleft⟩, c', hc', hright⟩ := Split.separates_iff.1 h
    have holeft : o.goesLeft a v = true := by
      rcases List.mem_cons.1 hc with rfl | hc
      · exact hleft
      · exact @Item.Ascending.goesLeft a v [o] _ o c ha (fun _ hc => ht.isNaN hc a)
          (List.mem_singleton_self o) hc hleft
    rcases List.mem_cons.1 hc' with rfl | hc'
    · rw [holeft] at hright
      cases hright
    · cases hd : d.goesLeft a v with
      | false => exact .inr ⟨holeft, rfl⟩
      | true => exact .inl (Split.separates_iff.2 ⟨⟨d, List.mem_cons_self, hd⟩, c', hc', hright⟩)
  · rintro (h | ⟨hleft, hright⟩)
    · exact h.of_subset (List.subset_cons_self _ _)
    · exact Split.separates_iff.2 ⟨⟨o, List.mem_cons_self, hleft⟩, d, by simp, hright⟩

/-- The split between two neighbours, if they differ. -/
def between (a : Axis) (cost : Scalar) (o d : Item) : Option Split :=
  if o.centroid a != d.centroid a then some ⟨a, o.centroid a, cost⟩ else none

/-- The planes between two neighbours have one cost. -/
theorem best_between {cost : Scalar} (ht : Item.Tame items) (ho : o ∈ items) (hd : d ∈ items)
    (hle : (o.centroid a).units ≤ (d.centroid a).units)
    (hcost : ∀ v, o.goesLeft a v = true → d.goesLeft a v = false →
      Split.factor a v items = cost) :
    Split.Best (fun b v => b = a ∧ o.goesLeft a v = true ∧ d.goesLeft a v = false) items
      (between a cost o d) := by
  have hno := ht.isNaN ho a
  have hnd := ht.isNaN hd a
  unfold between
  split
  · rename_i hne
    have hunits := (Scalar.bne_iff_units hno hnd).1 hne
    obtain ⟨hleft, hright⟩ := Item.parted_of_units_lt hno hnd (by omega)
    have hself := hcost _ hleft hright
    have hn : cost.isNaN = false := hself ▸ (Split.nonneg_factor ht _ _).isNaN
    refine ⟨⟨rfl, hleft, hright⟩, hself.symm, ?_⟩
    rintro b v ⟨rfl, hl, hr⟩
    rw [hcost v hl hr]
    exact (Scalar.le_iff_units hn hn).2 (le_refl _)
  · rename_i hsame
    rintro b v ⟨rfl, hl, hr⟩
    rw [Scalar.bne_iff_units hno hnd, not_not] at hsame
    rw [Item.goesLeft_of_units_le hnd hno hsame.ge hl] at hr
    cases hr

/-- A step keeps the better of what it had and the place it looks at. -/
theorem best_step {total : Nat} {area cost : Scalar} (hlast : p.last = d.centroid a)
    (hcost : Scalar.ofCount (total - p.count) * area + Scalar.ofCount p.count * p.right.halfArea =
      cost)
    (hlt : (o.centroid a != d.centroid a) = true → cost < .infinity) :
    (p.step a total (o, area)).best = Split.better p.best (between a cost o d) := by
  simp only [step, hcost, hlast, between]
  cases hne : (o.centroid a != d.centroid a) with
  | false =>
    rw [Bool.and_false]
    cases p.best <;> rfl
  | true =>
    cases p.best with
    | none => simp [hlt hne, Split.better]
    | some s => simp [Split.better]

/-- **A pass sees one item more.** -/
theorem Sees.step (h : p.Sees a items d rest) (hitems : items = front ++ o :: d :: rest)
    (ha : Item.Ascending a items) (ht : Item.Tame items) (hf : Split.Affordable items) :
    (p.step a items.length (o, (Box.around ((front ++ [o]).map Item.box)).halfArea)).Sees a items o
      (d :: rest) := by
  have hsub : (o :: d :: rest).Sublist items := hitems ▸ List.sublist_append_right _ _
  have ho : o ∈ items := hsub.subset List.mem_cons_self
  have hd : d ∈ items := hsub.subset (List.mem_cons_of_mem _ List.mem_cons_self)
  have hto := ht.sublist hsub
  have hao := ha.sublist hsub
  have hle : (o.centroid a).units ≤ (d.centroid a).units :=
    List.rel_of_pairwise_cons hao List.mem_cons_self
  -- the cost of the place in front of `d`
  obtain ⟨cost, hcost⟩ : ∃ cost, Scalar.ofCount (items.length - p.count) *
      (Box.around ((front ++ [o]).map Item.box)).halfArea +
        Scalar.ofCount p.count * p.right.halfArea = cost := ⟨_, rfl⟩
  have hbetween := best_between ht ho hd hle fun v hleft hright =>
    (h.behind.factor_eq hitems ha ht hleft hright).trans hcost
  refine (h.behind.step (fun c hc => (hto.finite c hc).numeric) _ _).sees ?_
  rw [best_step h.last hcost]
  · refine (h.best.better ht hbetween).congr fun b v => ?_
    rw [separates_cons_iff hao hto]
    tauto
  · -- two neighbours that differ are separated by a plane, whose cost is finite
    intro hne
    rw [between, if_pos hne] at hbetween
    obtain ⟨⟨-, hleft, hright⟩, hself, -⟩ := hbetween
    have hsep : Split.Separates a (o.centroid a) items :=
      Split.separates_iff.2 ⟨⟨o, ho, hleft⟩, d, hd, hright⟩
    have hcost : cost = Split.factor a (o.centroid a) items := hself
    rw [hcost]
    exact (Split.nonneg_factor ht _ _).lt_infinity (hf a _ hsep)

/-- **A pass over all items in front** sees all items. -/
theorem Sees.foldl (h : p.Sees a items d rest) (hitems : items = front ++ d :: rest)
    (ha : Item.Ascending a items) (ht : Item.Tame items) (hf : Split.Affordable items) :
    Split.Best (fun b v => b = a ∧ Split.Separates a v items) items
      ((front.zip (leftAreas front)).reverse.foldl (Pass.step a items.length) p).best := by
  induction front using List.reverseRecOn generalizing d rest p with
  | nil =>
    rw [List.nil_append] at hitems
    have := h.best
    rw [← hitems] at this
    exact this
  | append_singleton front o ih =>
    have hcut : front ++ [o] ++ d :: rest = front ++ o :: d :: rest := by simp
    rw [reverse_zip_leftAreas]
    exact ih (h.step (hitems.trans hcut) ha ht hf) (hitems.trans hcut)

end Pass

/-- **The sweep of an axis** finds the best plane across it. -/
theorem best_cheapest (ha : Item.Ascending a items) (ht : Item.Tame items)
    (hf : Split.Affordable items) :
    Split.Best (fun b v => b = a ∧ Split.Separates a v items) items (cheapest a items) := by
  rcases List.eq_nil_or_concat' items with rfl | ⟨front, o, rfl⟩
  · rintro b v ⟨-, hsep⟩
    exact hsep.1 rfl
  · have htop : Item.Tame [o] := ht.sublist (List.sublist_append_right _ _)
    rw [cheapest, reverse_zip_leftAreas]
    exact (Pass.sees_start htop).foldl rfl ha ht hf

/-- **The best of the three axes** is the best of all planes. -/
theorem best_all {arrays : PerAxis (List Item)} (hp : ∀ a, (arrays.get a).Perm items)
    (ha : ∀ a, Item.Ascending a (arrays.get a)) (ht : Item.Tame items)
    (hf : Split.Affordable items) :
    Split.Best (fun a v => Split.Separates a v items) items
      (Split.best (Axis.all.map fun a => cheapest a (arrays.get a))) := by
  have haxis : ∀ a, Split.Best (fun b v => b = a ∧ Split.Separates b v items) items
      (cheapest a (arrays.get a)) := by
    intro a
    have hta := ht.perm (hp a).symm
    have hbest := best_cheapest (ha a) hta (hf.perm ht (hp a).symm)
    refine (hbest.perm hta (hp a)).congr fun b v => ⟨?_, ?_⟩
    · rintro ⟨rfl, hsep⟩
      exact ⟨rfl, hsep.of_subset (hp b).subset⟩
    · rintro ⟨rfl, hsep⟩
      exact ⟨rfl, hsep.of_subset (hp b).symm.subset⟩
  refine (((haxis .x).better ht (haxis .y)).better ht (haxis .z)).congr fun b v => ?_
  cases b <;> simp

end Sweep

end BoxTree
