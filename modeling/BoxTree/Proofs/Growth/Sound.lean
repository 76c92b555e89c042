import BoxTree.Proofs.Growth.Moves
/-!
# Sound plots

A plot is sound when its range lies inside the buffers, its arrays hold the same items, as many as
the range has places, and the boxes of its region describe them. **Every move of a sound plot
gives sound plots** (`Plan.move_sound`), which share its range and its items between them; this is
all that the rest of the development needs to know of searches and partitions.
-/

namespace BoxTree

open BoxTree.Partition

/-- What a plan has to meet: an exact build has a second buffer, and leaves may hold something. -/
structure Plan.Usable (p : Plan) (back : Bool) : Prop where
  back : p.search = .exact → back = true
  pos : 0 < p.settings.maxPerLeaf

/-- A plot over a range of buffers of a length, described by its region. Only the first array is
looked at once a plot is halved, and the halves of the others need not hold the same items. -/
structure Plot.Sound (p : Plan) (back : Bool) (n : Nat) (q : Plot) : Prop where
  lies : q.region.Lies n back
  suits : q.stock.Suits p.search
  coherent : q.halved = false → q.stock.Coherent
  length : q.stock.order.length = q.region.size
  spans : q.region.extent.Spans (q.stock.order.map Item.box)

/-- Two plots that share the range and the items of another one, and lie one level deeper. -/
structure Plot.Forks (q left right : Plot) : Prop where
  first : left.region.first = q.region.first
  mid : left.region.last = right.region.first
  last : right.region.last = q.region.last
  leftDepth : left.region.depth = q.region.depth + 1
  rightDepth : right.region.depth = q.region.depth + 1
  left_pos : 0 < left.region.size
  right_pos : 0 < right.region.size
  items : (left.stock.order ++ right.stock.order).Perm q.stock.order

/-- What is right about a move of a plot. -/
def Move.Sound (p : Plan) (back : Bool) (n : Nat) (q : Plot) : Move → Prop
  | leaf _ => True
  | halve stock =>
    Plot.Sound p back n ⟨q.region, true, stock⟩ ∧ stock.order.Perm q.stock.order
  | fork _ left right =>
    Plot.Sound p back n left ∧ Plot.Sound p back n right ∧ q.Forks left right

variable {p : Plan} {back : Bool} {n : Nat} {q : Plot} {s : Split}

/-! ## Partitions of a stock -/

namespace Partition

variable {a : Axis} {value : Scalar}

theorem take_stable (items : List Item) :
    (stable a value items).take (lefts a value items).length = lefts a value items :=
  List.take_left

theorem drop_stable (items : List Item) :
    (stable a value items).drop (lefts a value items).length = rights a value items :=
  List.drop_left

end Partition

/-- A stock with the items of another one, those of the left side in front, and the summaries of
the two sides. -/
structure Stock.Deals (search : Search) (stock stock' : Stock) (h : Halves) : Prop where
  suits : stock'.Suits search
  perm : stock'.order.Perm stock.order
  left : h.left.Sums (stock'.order.take h.left.count)
  right : h.right.Sums (stock'.order.drop h.left.count)
  leftCoherent : (stock'.map (List.take h.left.count)).Coherent
  rightCoherent : (stock'.map (List.drop h.left.count)).Coherent

/-- Both sides of a list of items with their summaries make a deal. -/
theorem Stock.deals_single {search : Search} {items l r : List Item} {h : Halves}
    (hsuits : (Stock.single items).Suits search) (hp : (l ++ r).Perm items) (hs : Sides h l r) :
    (Stock.single items).Deals search (.single (l ++ r)) h where
  suits := by cases search <;> exact hsuits
  perm := hp
  left := by
    have htake : (l ++ r).take h.left.count = l := List.take_left' hs.1.count.symm
    rw [Stock.order, htake]
    exact hs.1
  right := by
    have hdrop : (l ++ r).drop h.left.count = r := List.drop_left' hs.1.count.symm
    rw [Stock.order, hdrop]
    exact hs.2
  leftCoherent := trivial
  rightCoherent := trivial

/-- **The partitions of a build deal out the items.** -/
theorem Plan.dealt_deals {r : Region} {stock stock' : Stock} {h : Halves}
    (hsuits : stock.Suits p.search) (hc : stock.Coherent)
    (hd : p.dealt back r s stock = .ok (stock', h)) : stock.Deals p.search stock' h := by
  cases stock with
  | sorted v =>
    obtain ⟨rfl, rfl⟩ := Prod.mk.inj (Except.ok.inj hd)
    have hcount : (Halves.count s.axis s.value (v.get s.axis)).left.count =
        (lefts s.axis s.value v.x).length := by
      rw [(sides_count s.axis s.value _).1.count]
      exact ((hc s.axis).filter _).length_eq
    -- every array has as many items on the left as the first
    have hlen : ∀ a, (lefts s.axis s.value (v.get a)).length =
        (lefts s.axis s.value v.x).length := fun a => ((hc a).filter _).length_eq
    have htake : ∀ a, (stable s.axis s.value (v.get a)).take (lefts s.axis s.value v.x).length =
        lefts s.axis s.value (v.get a) := fun a => hlen a ▸ take_stable _
    have hdrop : ∀ a, (stable s.axis s.value (v.get a)).drop (lefts s.axis s.value v.x).length =
        rights s.axis s.value (v.get a) := fun a => hlen a ▸ drop_stable _
    refine ⟨hsuits.map (stable s.axis s.value), stable_perm _ _ _, ?_, ?_, ?_, ?_⟩
    · rw [hcount]
      change Half.Sums _ ((stable s.axis s.value v.x).take _)
      rw [take_stable]
      exact (sides_count s.axis s.value _).1.perm ((hc s.axis).filter _)
    · rw [hcount]
      change Half.Sums _ ((stable s.axis s.value v.x).drop _)
      rw [drop_stable]
      exact (sides_count s.axis s.value _).2.perm ((hc s.axis).filter _)
    · intro a
      rw [hcount, PerAxis.get_map, PerAxis.get_map, htake]
      exact ((hc a).filter _).trans (.of_eq (take_stable v.x).symm)
    · intro a
      rw [hcount, PerAxis.get_map, PerAxis.get_map, hdrop]
      exact ((hc a).filter _).trans (.of_eq (drop_stable v.x).symm)
  | single items =>
    rw [Plan.dealt] at hd
    split at hd
    · obtain ⟨size, hsize, heq⟩ := map_eq_ok_iff.1 hd
      obtain ⟨rfl, rfl⟩ := Prod.mk.inj heq
      have hsides := sides_foldl_union s.axis s.value (subranges size items)
      rw [flatten_subranges (pos_of_subrangeSize hsize)] at hsides
      exact Stock.deals_single hsuits (stable_perm _ _ _) hsides
    · obtain ⟨rfl, rfl⟩ := Prod.mk.inj (Except.ok.inj hd)
      obtain ⟨l, r, hp, -, -, heq, hsides⟩ := inPlace_eq s.axis s.value items
      rw [heq]
      exact Stock.deals_single hsuits hp hsides

/-! ## Moves -/

theorem Plan.dealtSide_back (hp : p.Usable back) {r : Region} (hside : r.side = .back → back = true)
    (h : p.dealtSide back r = .back) : back = true := by
  unfold dealtSide at h
  split at h
  · rename_i hflips
    unfold flips at hflips
    split at hflips
    · rename_i hexact
      exact hp.back hexact
    · exact (Bool.and_eq_true _ _ ▸ hflips : _ ∧ _).2
  · exact hside h

/-- **A division of a sound plot** gives two sound plots, or the plot again to be halved. -/
theorem Plan.divided_sound (hp : p.Usable back) (hq : q.Sound p back n) {stock : Stock} {h : Halves}
    (hd : q.stock.Deals p.search stock h) : (p.divided back q (stock, h)).Sound p back n q := by
  have hlen : stock.order.length = q.region.size := hd.perm.length_eq.trans hq.length
  obtain ⟨hle, hlast, hside⟩ := hq.lies
  have hboxes := hd.perm.map Item.box
  have hsize : q.region.size = q.region.last - q.region.first := rfl
  simp only [divided]
  split
  · -- degenerate: what the other side of the buffers holds is abandoned
    split
    · exact ⟨⟨hq.lies, hq.suits, by simp, hq.length, hq.spans⟩, .refl _⟩
    · exact ⟨⟨hq.lies, hd.suits, by simp, hlen, hq.spans.perm hboxes.symm⟩, hd.perm⟩
  · rename_i hboth
    have hleft := hd.left.count
    have hright := hd.right.count
    rw [List.length_take] at hleft
    rw [List.length_drop] at hright
    simp only [Halves.isDegenerate, Bool.or_eq_true, decide_eq_true_eq, not_or] at hboth
    obtain ⟨hl, hr⟩ := hboth
    have hdealt := dealtSide_back (p := p) hp hside
    -- neither side is empty, and the boundary between them is the number of items on the left
    refine ⟨⟨⟨?_, ?_, hdealt⟩, hd.suits.map _, fun _ => hd.leftCoherent, ?_, ?_⟩,
      ⟨⟨?_, hlast, hdealt⟩, hd.suits.map _, fun _ => hd.rightCoherent, ?_, ?_⟩,
      ⟨rfl, rfl, rfl, rfl, rfl, ?_, ?_, ?_⟩⟩
    all_goals
      simp only [Region.before, Region.after, Region.size, Stock.order_map, List.length_take,
        List.length_drop]
    · omega
    · omega
    · omega
    · exact hd.left.extent
    · omega
    · omega
    · exact hd.right.extent
    · omega
    · omega
    · rw [List.take_append_drop]
      exact hd.perm

/-- **A cut of a sound plot** gives two sound plots, as long as it is no leaf. -/
theorem Plan.cutPlot_sound (hq : q.Sound p back n) (h : 1 < q.region.size) :
    (cutPlot q).Sound p back n q := by
  have hlen := hq.length
  obtain ⟨hle, hlast, hside⟩ := hq.lies
  have hsize : q.region.size = q.region.last - q.region.first := rfl
  have hsplit : q.stock.order.take (q.region.size / 2) ++ q.stock.order.drop (q.region.size / 2) =
      q.stock.order := List.take_append_drop _ _
  refine ⟨⟨⟨?_, ?_, hside⟩, hq.suits.map _, by simp, ?_, ?_⟩,
    ⟨⟨?_, hlast, hside⟩, hq.suits.map _, by simp, ?_, ?_⟩, ⟨rfl, rfl, rfl, rfl, rfl, ?_, ?_, ?_⟩⟩
  all_goals
    simp only [Region.before, Region.after, Region.size, Stock.order_map, List.length_take,
      List.length_drop] at *
  · omega
  · omega
  · omega
  · exact Extent.spans_ofBoxes _
  · omega
  · omega
  · exact Extent.spans_ofBoxes _
  · omega
  · omega
  · exact .of_eq hsplit

/-- **Every move of a sound plot is sound.** -/
theorem Plan.move_sound (hp : p.Usable back) (hq : q.Sound p back n) {m : Move}
    (h : p.move back q = .ok m) : m.Sound p back n q := by
  obtain ⟨d, hv, ha⟩ := bind_eq_ok_iff.1 h
  have hgiveUp : (Move.halve q.stock).Sound p back n q :=
    ⟨⟨hq.lies, hq.suits, by simp, hq.length, hq.spans⟩, .refl _⟩
  cases d with
  | stop => exact absurd hv verdict_ne_stop
  | leaf reason =>
    cases ha
    trivial
  | giveUp =>
    cases ha
    exact hgiveUp
  | cut =>
    cases ha
    -- a plot that is cut has more objects than a leaf may have, and thus two of them
    have hpos := hp.pos
    refine cutPlot_sound hq ?_
    rcases verdict_cases hv with ⟨-, h | h⟩ | ⟨-, -, h⟩
    · cases h
    · omega
    · exact absurd rfl h
  | divide s =>
    obtain ⟨⟨stock, halves⟩, hd, rfl⟩ := map_eq_ok_iff.1 ha
    have hwhole := whole_of_verdict hv nofun nofun
    exact divided_sound hp hq (dealt_deals hq.suits (hq.coherent hwhole) hd)

end BoxTree
