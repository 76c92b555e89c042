import BoxTree.Proofs.Growth.Order
import BoxTree.Proofs.Split.Sweep
/-!
# The splits of an exact build

The three sorted arrays of a plot ascend along the axes, so that the search finds the best of all
planes, and none only where the centroids do not differ. A plot is therefore halved by position only
when no plane separates its items, a fork over items that differ is a cut by the cheapest plane, and
a leaf over them is cheaper than that plane (`Grows.splits`). All this needs finite boxes, and that
no plane costs infinitely much.
-/

namespace BoxTree

open BoxTree.Partition

/-- Items that are in order along an axis ascend along it. -/
theorem Item.Sorted.ascending {nans : Item → Axis → Scalar.NaN} {a : Axis} {items : List Item}
    (h : Item.Sorted nans a items) (ht : Item.Tame items) : Item.Ascending a items :=
  List.Pairwise.imp_of_mem (fun ho hp hbefore => Scalar.units_le_of_rank_le (ht.isNaN ho a)
    (ht.isNaN hp a) (Item.rank_le_of_before hbefore)) h

namespace Growth

/-- A tree whose root a build searches a split for. -/
def Searched (s : Settings) (t : Growth) : Prop :=
  t.region.depth < Plan.maxDepth ∧ s.leafThreshold < t.items.length

/-- What a search looks at in a tree costs less than infinity. -/
def Affordable (s : Settings) (t : Growth) : Prop := t.Searched s → Split.Affordable t.items

/-- A fork over items that differ is their cut by a plane of the least cost. -/
def CutBest : Growth → Prop
  | leaf .. => True
  | fork _ _ left right =>
    let items := left.items ++ right.items
    Item.Spread items → ∃ a v, left.items.Perm (items.filter fun o => o.centroid a ≤ v) ∧
      right.items.Perm (items.filter fun o => v < o.centroid a) ∧
      Split.Least items (Scalar.ofCount left.items.length * left.region.extent.bounds.halfArea +
        Scalar.ofCount right.items.length * right.region.extent.bounds.halfArea)

/-- A tree over items that differ is a leaf where a leaf may hold them and is no dearer than the
cheapest plane. -/
def KeptWell (s : Settings) (t : Growth) : Prop :=
  t.Searched s → Item.Spread t.items → (∃ c, Split.Least t.items c) ∧
    ∀ c, Split.Least t.items c → (t.IsLeaf ↔ t.items.length ≤ s.maxPerLeaf ∧
      Cost.leaf ⟨s.intersectionCost⟩ t.items.length ≤
        Cost.split ⟨s.intersectionCost⟩ c t.region.extent.bounds.surfaceArea)

variable {t : Growth}

/-- The bounds of a proper tree have the area of its items. -/
theorem Proper.weight (h : t.Proper) (ht : Item.Tame t.items) :
    Scalar.ofCount t.items.length * t.region.extent.bounds.halfArea = Split.weight t.items := by
  obtain ⟨hnumeric, hfaces⟩ := h.spans.bounds ht.numeric
  rw [Split.weight, Box.halfArea_eq hnumeric (Box.numeric_around ht.numeric) hfaces]

/-- Items that differ and are too many for a leaf are split. -/
theorem KeptWell.not_isLeaf {s : Settings} (h : t.KeptWell s) (hsearched : t.Searched s)
    (hspread : Item.Spread t.items) (hcrowded : s.maxPerLeaf < t.items.length) : ¬ t.IsLeaf := by
  obtain ⟨⟨c, hleast⟩, hkept⟩ := h hsearched hspread
  intro hleaf
  have hfits := ((hkept c hleast).1 hleaf).1
  omega

end Growth

variable {p : Plan} {back : Bool} {n : Nat} {q : Plot} {t : Growth} {d : Decision} {m : Move}

/-! ## Verdicts -/

/-- A plot of an exact build over finite boxes; it is halved only where no plane separates its
items. -/
structure Plot.Tame (p : Plan) (back : Bool) (n : Nat) (q : Plot) : Prop where
  ordered : q.Ordered p back n
  tame : Item.Tame q.stock.order
  halved : q.halved = true → ¬ Item.Spread q.stock.order

/-- A plot that a build searches a split for. -/
def Plot.Searched (p : Plan) (q : Plot) : Prop :=
  q.region.depth < Plan.maxDepth ∧ p.settings.leafThreshold < q.region.size

/-- Whether a plot is kept as a leaf when its best split has a cost factor. -/
def Plan.keeps (p : Plan) (q : Plot) (c : Scalar) : Bool :=
  p.cost.prefersLeaf c q.region.extent.bounds.surfaceArea q.region.size p.settings.maxPerLeaf

/-- What a move owes to the search of its plot: where the items differ, a leaf is kept and a fork is
not, by the least cost factor, and the fork is the cut by its plane. -/
def Move.Owes (p : Plan) (q : Plot) : Move → Prop
  | leaf _ => q.Searched p → Item.Spread q.stock.order →
      ∃ c, Split.Least q.stock.order c ∧ p.keeps q c = true
  | halve _ => ¬ Item.Spread q.stock.order
  | fork _ left right => Item.Spread q.stock.order → ∃ a v,
      Split.Separates a v q.stock.order ∧
      left.stock.order = lefts a v q.stock.order ∧
      right.stock.order = rights a v q.stock.order ∧
      Split.Least q.stock.order (Split.factor a v q.stock.order) ∧
      p.keeps q (Split.factor a v q.stock.order) = false

namespace Plan

/-- A plot that is not halved is a small or a deep leaf, or a split is searched for it. -/
theorem verdict_whole (h : p.verdict q = .ok d) (hwhole : q.halved = false) :
    (d = .leaf .underThreshold ∧ q.region.size ≤ p.settings.leafThreshold) ∨
    (d = .leaf .maxDepth ∧ maxDepth ≤ q.region.depth) ∨
    (p.settings.leafThreshold < q.region.size ∧ q.region.depth < maxDepth ∧
      ∃ found, p.found q.region q.stock = .ok found ∧ p.judged q.region found = d) := by
  rw [verdict, hwhole] at h
  simp only [Bool.false_eq_true, if_false] at h
  split at h
  · rename_i hsmall
    cases h
    exact .inl ⟨rfl, hsmall⟩
  · split at h
    · rename_i hdeep
      cases h
      exact .inr (.inl ⟨rfl, hdeep⟩)
    · obtain ⟨found, hfound, hd⟩ := map_eq_ok_iff.1 h
      exact .inr (.inr ⟨by omega, by omega, found, hfound, hd⟩)

/-- **The search of a plot finds the best plane.** -/
theorem found_best {found : Option Split} (hexact : p.search = .exact) (hq : q.Tame p back n)
    (hwhole : q.halved = false) (hf : Split.Affordable q.stock.order)
    (h : p.found q.region q.stock = .ok found) :
    Split.Best (fun a v => Split.Separates a v q.stock.order) q.stock.order found := by
  have hsuits := hq.ordered.sound.suits
  have hcoherent := hq.ordered.sound.coherent hwhole
  have hsorted := hq.ordered.sorted
  have htame := hq.tame
  obtain ⟨region, halved, stock⟩ := q
  cases stock with
  | single items =>
    rw [hexact] at hsuits
    exact hsuits.elim
  | sorted v =>
    cases h
    exact Sweep.best_all hcoherent (fun a => (hsorted a).ascending (htame.perm (hcoherent a).symm))
      htame hf

/-- A plane that separates the items of a plot deals them out to two sides. -/
theorem dealt_sides {r : Region} {s : Split} {stock stock' : Stock} {h : Halves}
    (hexact : p.search = .exact) (hsuits : stock.Suits p.search) (hc : stock.Coherent)
    (hd : p.dealt back r s stock = .ok (stock', h)) :
    (stock'.map (List.take h.left.count)).order = lefts s.axis s.value stock.order ∧
      (stock'.map (List.drop h.left.count)).order = rights s.axis s.value stock.order ∧
      h.left.count = (lefts s.axis s.value stock.order).length ∧
      h.right.count = (rights s.axis s.value stock.order).length := by
  cases stock with
  | single items =>
    rw [hexact] at hsuits
    exact hsuits.elim
  | sorted v =>
    obtain ⟨rfl, rfl⟩ := Prod.mk.inj (Except.ok.inj hd)
    obtain ⟨hleft, hright⟩ := sides_count s.axis s.value (v.get s.axis)
    have hl : (Halves.count s.axis s.value (v.get s.axis)).left.count =
        (lefts s.axis s.value v.x).length := by
      rw [hleft.count]
      exact ((hc s.axis).filter _).length_eq
    have hr : (Halves.count s.axis s.value (v.get s.axis)).right.count =
        (rights s.axis s.value v.x).length := by
      rw [hright.count]
      exact ((hc s.axis).filter _).length_eq
    refine ⟨?_, ?_, hl, hr⟩
    · rw [Stock.order_map, hl]
      exact take_stable _
    · rw [Stock.order_map, hl]
      exact drop_stable _

/-- A plane that separates the items of a plot divides it. -/
theorem divided_sides {s : Split} (hexact : p.search = .exact) (hq : q.Tame p back n)
    (hwhole : q.halved = false) (hsep : Split.Separates s.axis s.value q.stock.order)
    (h : (p.dealt back q.region s q.stock).map (p.divided back q) = .ok m) :
    ∃ apart left right, m = .fork apart left right ∧
      left.stock.order = lefts s.axis s.value q.stock.order ∧
      right.stock.order = rights s.axis s.value q.stock.order := by
  obtain ⟨⟨stock, halves⟩, hd, rfl⟩ := map_eq_ok_iff.1 h
  obtain ⟨hl, hr, hlcount, hrcount⟩ := dealt_sides hexact hq.ordered.sound.suits
    (hq.ordered.sound.coherent hwhole) hd
  have hboth : halves.isDegenerate = false := by
    have hlpos := List.length_pos_iff.2 hsep.1
    have hrpos := List.length_pos_iff.2 hsep.2
    simp only [Halves.isDegenerate, Bool.or_eq_false_iff, decide_eq_false_iff_not]
    omega
  simp only [divided, hboth, Bool.false_eq_true, if_false]
  exact ⟨_, _, _, rfl, hl, hr⟩

/-- **Every move of a plot does what its search found.** -/
theorem move_owes (hexact : p.search = .exact) (hq : q.Tame p back n)
    (hf : q.Searched p → Split.Affordable q.stock.order) (h : p.move back q = .ok m) :
    m.Owes p q := by
  obtain ⟨d, hv, ha⟩ := bind_eq_ok_iff.1 h
  cases hwhole : q.halved with
  | true =>
    have hsame := hq.halved hwhole
    cases m with
    | leaf reason => exact fun _ hspread => absurd hspread hsame
    | halve stock => exact hsame
    | fork apart left right => exact fun hspread => absurd hspread hsame
  | false =>
    rcases verdict_whole hv hwhole with ⟨rfl, hsmall⟩ | ⟨rfl, hdeep⟩ |
      ⟨hsize, hdepth, found, hfound, rfl⟩
    · cases ha
      intro hsearched
      exact absurd hsearched.2 (Nat.not_lt_of_le hsmall)
    · cases ha
      intro hsearched
      exact absurd hsearched.1 (Nat.not_lt_of_le hdeep)
    · have hbest := found_best hexact hq hwhole (hf ⟨hdepth, hsize⟩) hfound
      cases found with
      | none =>
        cases ha
        intro hspread
        obtain ⟨a, v, hsep⟩ := (Item.spread_iff hq.tame).1 hspread
        exact hbest a v hsep
      | some s =>
        have hleast := hbest.least
        obtain ⟨hsep, hcost, -⟩ := hbest
        rw [hcost] at hleast
        have hjudged : p.judged q.region (some s) =
            if p.keeps q s.cost then .leaf .cheaperNotToSplit else .divide s := rfl
        rw [hjudged] at ha
        split at ha
        · rename_i hkeep
          cases ha
          exact fun _ _ => ⟨_, hleast, hcost ▸ hkeep⟩
        · rename_i hdrop
          obtain ⟨apart, left, right, rfl, hl, hr⟩ := divided_sides hexact hq hwhole hsep ha
          refine fun _ => ⟨s.axis, s.value, hsep, hl, hr, hleast, ?_⟩
          rw [← hcost]
          simpa using hdrop

/-- **Moves keep to finite boxes**, and halve only what no plane separates. -/
theorem move_tame (hp : p.Usable back) (hexact : p.search = .exact) (hq : q.Tame p back n)
    (hf : q.Searched p → Split.Affordable q.stock.order) (h : p.move back q = .ok m) :
    m.Leaves (Plot.Tame p back n) q := by
  have hordered := passes_sorted hp _ _ hq.ordered h
  have hsound := move_sound hp hq.ordered.sound h
  have hfollows := move_follows h
  have howes := move_owes hexact hq hf h
  cases m with
  | leaf reason => trivial
  | halve stock =>
    have hperm := hsound.2
    exact ⟨hordered, hq.tame.perm hperm.symm, fun _ hspread => howes (hspread.perm hperm)⟩
  | fork apart left right =>
    obtain ⟨-, -, hforks⟩ := hsound
    obtain ⟨hlhalved, hrhalved⟩ := hfollows
    have hperm := hforks.items
    have htame := hq.tame.perm hperm.symm
    have hside : ∀ items, items.Sublist (left.stock.order ++ right.stock.order) →
        q.halved = true → ¬ Item.Spread items := by
      intro items hsub hhalved hspread
      exact hq.halved hhalved ((hspread.of_subset hsub.subset).perm hperm)
    exact ⟨⟨hordered.1, htame.sublist (List.sublist_append_left _ _),
        fun hh => hside _ (List.sublist_append_left _ _) (hlhalved ▸ hh)⟩,
      hordered.2, htame.sublist (List.sublist_append_right _ _),
        fun hh => hside _ (List.sublist_append_right _ _) (hrhalved ▸ hh)⟩

end Plan

theorem Cost.prefersLeaf_iff {c : Cost} {factor area : Scalar} {count maxPerLeaf : Nat} :
    c.prefersLeaf factor area count maxPerLeaf = true ↔
      count ≤ maxPerLeaf ∧ c.leaf count ≤ c.split factor area := by
  rw [Cost.prefersLeaf, Bool.and_eq_true, decide_eq_true_iff, decide_eq_true_iff, and_comm]

/-! ## Trees -/

/-- What is known of a tree that has grown on a plot over finite boxes. -/
theorem Grows.tame (hp : p.Usable back) (hq : q.Tame p back n) (h : Grows p back q t) :
    t.region = q.region ∧ t.items.Perm q.stock.order ∧ t.Proper ∧ Item.Tame t.items ∧
      t.items.length = q.region.size := by
  obtain ⟨hregion, hitems, hproper⟩ := h.proper hp hq.ordered.sound
  exact ⟨hregion, hitems, hproper, hq.tame.perm hitems.symm,
    hitems.length_eq.trans hq.ordered.sound.length⟩

/-- The node of a plot is kept well when its move does what the search found. -/
theorem Grows.keptWell (hp : p.Usable back) (hq : q.Tame p back n) (h : Grows p back q t)
    (hkeeps : q.Searched p → Item.Spread q.stock.order →
      ∃ c, Split.Least q.stock.order c ∧ (p.keeps q c = true ↔ t.IsLeaf)) :
    t.KeptWell p.settings := by
  obtain ⟨hregion, hitems, -, htame, hlen⟩ := h.tame hp hq
  rintro ⟨hdepth, hsize⟩ hspread
  rw [hregion] at hdepth
  rw [hlen] at hsize
  obtain ⟨c, hleast, hleaf⟩ := hkeeps ⟨hdepth, hsize⟩ (hspread.perm hitems)
  have hleast' := hleast.perm hq.tame hitems.symm
  refine ⟨⟨c, hleast'⟩, fun c' hc' => ?_⟩
  rw [← hleast'.unique htame hc', hregion, hlen, ← hleaf]
  exact Cost.prefersLeaf_iff

/-- **Every node of an exact build follows the cheapest plane.** -/
theorem Grows.splits (hp : p.Usable back) (hexact : p.search = .exact) (hq : q.Tame p back n)
    (hf : t.All (Growth.Affordable p.settings)) (h : Grows p back q t) :
    t.All fun s => s.CutBest ∧ s.KeptWell p.settings := by
  -- what is affordable in a tree is affordable on its plot
  have hplot : ∀ {q : Plot} {t : Growth}, q.Tame p back n → Grows p back q t →
      t.Affordable p.settings → q.Searched p → Split.Affordable q.stock.order := by
    rintro q t hq h hf ⟨hdepth, hsize⟩
    obtain ⟨hregion, hitems, -, htame, hlen⟩ := h.tame hp hq
    exact (hf ⟨hregion ▸ hdepth, hlen ▸ hsize⟩).perm htame hitems
  induction h with
  | leaf hm =>
    have hgrows := Grows.leaf hm
    have howes := Plan.move_owes hexact hq (hplot hq hgrows hf) hm
    refine ⟨trivial, hgrows.keptWell hp hq fun hsearched hspread => ?_⟩
    obtain ⟨c, hleast, hkeep⟩ := howes hsearched hspread
    exact ⟨c, hleast, iff_of_true hkeep trivial⟩
  | halve hm ht ih =>
    have hgrows := Grows.halve hm ht
    exact ih (Plan.move_tame hp hexact hq (hplot hq hgrows hf.root) hm) hf
  | fork hm hl hr ihl ihr =>
    have hgrows := Grows.fork hm hl hr
    obtain ⟨hroot, hfl, hfr⟩ := hf
    have hsearch := hplot hq hgrows hroot
    have howes := Plan.move_owes hexact hq hsearch hm
    obtain ⟨hql, hqr⟩ := Plan.move_tame hp hexact hq hsearch hm
    refine ⟨⟨fun hspread => ?_, hgrows.keptWell hp hq fun _ hspread => ?_⟩, ihl hql hfl,
      ihr hqr hfr⟩
    · obtain ⟨-, hitems, -, htame, -⟩ := hgrows.tame hp hq
      obtain ⟨-, hli, hlproper, hltame, -⟩ := hl.tame hp hql
      obtain ⟨-, hri, hrproper, hrtame, -⟩ := hr.tame hp hqr
      obtain ⟨a, v, hsep, hleft, hright, hleast, -⟩ := howes (hspread.perm hitems)
      rw [hleft] at hli
      rw [hright] at hri
      refine ⟨a, v, hli.trans (hitems.symm.filter _), ?_, ?_⟩
      · rw [hsep.rights_eq hq.tame] at hri
        exact hri.trans (hitems.symm.filter _)
      · rw [hlproper.weight hltame, hrproper.weight hrtame, Split.weight_perm hltame hli,
          Split.weight_perm hrtame hri]
        exact hleast.perm hq.tame hitems.symm
    · obtain ⟨a, v, -, -, -, hleast, hkeep⟩ := howes hspread
      exact ⟨_, hleast, iff_of_false (by rw [hkeep]; nofun) nofun⟩

end BoxTree
