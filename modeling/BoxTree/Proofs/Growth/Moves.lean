import BoxTree.Build.Region
import BoxTree.Build.Task
import BoxTree.Proofs.Buffers.Parts
import BoxTree.Proofs.Partition.InPlace
/-!
# What becomes of a region

A **plot** is a region together with the items that lie on it. What a build that is not stopped
makes of a plot depends on nothing else: neither on the rest of the buffers nor on the tasks that
ran before. This file computes it. `Plan.move` is a leaf, a region that is halved by position from
now on, or a fork into two plots.
-/

namespace BoxTree

/-- The items of a region in the arrays of a build: in the three sorted ones, or in the single
one. -/
inductive Stock where
  | sorted (arrays : PerAxis (List Item))
  | single (items : List Item)

namespace Stock

/-- The items in the order they have in the first array, which is the order of the tree. -/
def order : Stock → List Item
  | sorted v => v.x
  | single items => items

/-- The same change to every array. -/
def map (f : List Item → List Item) : Stock → Stock
  | sorted v => sorted (v.map f)
  | single items => single (f items)

/-- Whether the arrays are those of a search. -/
def Suits : Search → Stock → Prop
  | .exact, sorted _ => True
  | .binning, single _ => True
  | _, _ => False

/-- Every array holds the same items. -/
def Coherent : Stock → Prop
  | sorted v => ∀ a, (v.get a).Perm v.x
  | single _ => True

@[simp] theorem order_map (f : List Item → List Item) (s : Stock) :
    (s.map f).order = f s.order := by
  cases s <;> rfl

theorem Suits.map {search : Search} {s : Stock} (h : s.Suits search)
    (f : List Item → List Item) : (s.map f).Suits search := by
  cases s <;> cases search <;> exact h

theorem Suits.exists_sorted {s : Stock} (h : s.Suits .exact) : ∃ v, s = .sorted v := by
  cases s with
  | sorted v => exact ⟨v, rfl⟩
  | single items => exact h.elim

theorem Suits.exists_single {s : Stock} (h : s.Suits .binning) : ∃ items, s = .single items := by
  cases s with
  | sorted v => exact h.elim
  | single items => exact ⟨items, rfl⟩

end Stock

/-- A region inside buffers of a length, the back one only where there is a second buffer. -/
structure Region.Lies (r : Region) (n : Nat) (back : Bool) : Prop where
  le : r.first ≤ r.last
  last_le : r.last ≤ n
  side : r.side = .back → back = true

/-- A region with the items on it; a plot that is halved is cut by position until its parts fit in
leaves. -/
structure Plot where
  region : Region
  halved : Bool
  stock : Stock

/-- What a build makes of a plot. -/
inductive Move where
  | leaf (reason : LeafReason)
  /-- The plot is halved from now on; a partition in place may have reordered it. -/
  | halve (stock : Stock)
  /-- The plot falls into two; the right one is apart when it becomes a job of its own. -/
  | fork (apart : Bool) (left right : Plot)

/-- What a move may make of a plot that is halved or not. -/
def Move.Follows (q : Plot) : Move → Prop
  | leaf _ => True
  | halve _ => q.halved = false
  | fork _ left right => left.halved = q.halved ∧ right.halved = q.halved

/-- What holds of every plot that a move of a plot leaves. -/
def Move.Leaves (Q : Plot → Prop) (q : Plot) : Move → Prop
  | leaf _ => True
  | halve stock => Q ⟨q.region, true, stock⟩
  | fork _ left right => Q left ∧ Q right

namespace Plan

/-- The number of arrays on a side of the buffers. -/
def width (p : Plan) : Nat :=
  match p.search with
  | .exact => 3
  | .binning => 1

/-- The items on a region. -/
def stock (p : Plan) (b : Buffers) (r : Region) : Stock :=
  let part := fun array => b.part r.side array r.first r.last
  match p.search with
  | .exact => .sorted ⟨part 0, part 1, part 2⟩
  | .binning => .single (part 0)

/-- The plot of a region. -/
def plot (p : Plan) (b : Buffers) (halved : Bool) (r : Region) : Plot := ⟨r, halved, p.stock b r⟩

/-- The split a search finds that is not stopped. -/
def found (p : Plan) (r : Region) : Stock → Except Fault (Option Split)
  | .sorted v => .ok (Split.best (Axis.all.map fun a => Sweep.cheapest a (v.get a)))
  | .single items =>
    if items.length < 2 then .ok none
    else
      let nested := p.usesNested r.size p.settings.parallelBinning
      let group := p.platform.bins r.first r.last
      (Bins.gather group items r.extent.centers nested p.pieces).map Bins.cheapest

/-- What is decided about a split once it was found. -/
def judged (p : Plan) (r : Region) : Option Split → Decision
  | none => .giveUp
  | some s =>
    if p.cost.prefersLeaf s.cost r.extent.bounds.surfaceArea r.size p.settings.maxPerLeaf then
      .leaf .cheaperNotToSplit
    else .divide s

/-- What is decided about a plot by a build that is not stopped. -/
def verdict (p : Plan) (q : Plot) : Except Fault Decision :=
  if q.halved then
    .ok (if q.region.size ≤ p.settings.maxPerLeaf then .leaf .arbitrarySplit else .cut)
  else if q.region.size ≤ p.settings.leafThreshold then .ok (.leaf .underThreshold)
  else if maxDepth ≤ q.region.depth then .ok (.leaf .maxDepth)
  else (p.found q.region q.stock).map (p.judged q.region)

/-- Whether the single array of a region is partitioned in pieces, into the second buffer. -/
def usesPieces (p : Plan) (back : Bool) (r : Region) : Bool :=
  p.usesNested r.size p.settings.parallelPartition && back

/-- Whether a partition of a region moves its items to the other side of the buffers. -/
def flips (p : Plan) (back : Bool) (r : Region) : Bool :=
  match p.search with
  | .exact => true
  | .binning => p.usesPieces back r

/-- The items of a region after a partition, with the summaries of its two sides. -/
def dealt (p : Plan) (back : Bool) (r : Region) (s : Split) : Stock → Except Fault (Stock × Halves)
  | .sorted v =>
    .ok (.sorted (v.map (Partition.stable s.axis s.value)),
      Halves.count s.axis s.value (v.get s.axis))
  | .single items =>
    if p.usesPieces back r then
      (subrangeSize items.length (max p.pieces 1)).map fun size =>
        (.single (Partition.stable s.axis s.value items),
          ((subranges size items).map (Halves.count s.axis s.value)).foldl Halves.union .empty)
    else
      let r := Partition.inPlace s.axis s.value items
      .ok (.single r.1, r.2)

/-- The side of the buffers a partition leaves the items of a region on. -/
def dealtSide (p : Plan) (back : Bool) (r : Region) : Side :=
  if p.flips back r then r.side.other else r.side

/-- The two plots a partition leaves, or the plot as a degenerate partition leaves it: what was
written to the other side of the buffers is abandoned then. -/
def divided (p : Plan) (back : Bool) (q : Plot) (dealt : Stock × Halves) : Move :=
  match dealt with
  | (stock, halves) =>
    if halves.isDegenerate then .halve (if p.flips back q.region then q.stock else stock)
    else
      let k := halves.left.count
      let mid := q.region.first + k
      let side := p.dealtSide back q.region
      let left : Plot :=
        ⟨q.region.before mid halves.left.extent side, false, stock.map (List.take k)⟩
      let right : Plot :=
        ⟨q.region.after mid halves.right.extent side, false, stock.map (List.drop k)⟩
      let large := fun part : Plot => decide (p.settings.taskThreshold ≤ part.region.size)
      .fork (large left && large right) left right

/-- The two halves of a plot by position. -/
def cutPlot (q : Plot) : Move :=
  let k := q.region.size / 2
  let mid := q.region.first + k
  let left := Extent.ofItems (q.stock.order.take k)
  let right := Extent.ofItems (q.stock.order.drop k)
  .fork false ⟨q.region.before mid left q.region.side, true, q.stock.map (List.take k)⟩
    ⟨q.region.after mid right q.region.side, true, q.stock.map (List.drop k)⟩

/-- What a decision makes of a plot. A build that is to stop decides nothing, and `stop` is never
the verdict about a plot. -/
def act (p : Plan) (back : Bool) (q : Plot) : Decision → Except Fault Move
  | .leaf reason => .ok (.leaf reason)
  | .divide s => (p.dealt back q.region s q.stock).map (p.divided back q)
  | .cut => .ok (cutPlot q)
  | .giveUp | .stop => .ok (.halve q.stock)

/-- **What becomes of a plot.** -/
def move (p : Plan) (back : Bool) (q : Plot) : Except Fault Move :=
  p.verdict q >>= p.act back q

/-- A property of plots that their moves pass on. -/
def Passes (p : Plan) (back : Bool) (Q : Plot → Prop) : Prop :=
  ∀ q m, Q q → p.move back q = .ok m → m.Leaves Q q

variable {p : Plan} {q : Plot}

theorem judged_ne (found : Option Split) :
    p.judged q.region found ≠ .stop ∧ p.judged q.region found ≠ .cut := by
  unfold judged
  split
  · exact ⟨nofun, nofun⟩
  · split <;> exact ⟨nofun, nofun⟩

/-- A plot is stopped by nobody, and cut only when it is halved and too large for a leaf. -/
theorem verdict_cases {d : Decision} (h : p.verdict q = .ok d) :
    (q.halved = true ∧ (d = .leaf .arbitrarySplit ∨
      d = .cut ∧ p.settings.maxPerLeaf < q.region.size)) ∨
    (q.halved = false ∧ d ≠ .stop ∧ d ≠ .cut) := by
  unfold verdict at h
  split at h
  · rename_i hhalved
    left
    split at h <;> cases h
    · exact ⟨hhalved, .inl rfl⟩
    · exact ⟨hhalved, .inr ⟨rfl, by omega⟩⟩
  · rename_i hwhole
    right
    refine ⟨by simpa using hwhole, ?_⟩
    split at h
    · cases h
      exact ⟨nofun, nofun⟩
    · split at h
      · cases h
        exact ⟨nofun, nofun⟩
      · obtain ⟨found, -, rfl⟩ := map_eq_ok_iff.1 h
        exact judged_ne found

theorem verdict_ne_stop : p.verdict q ≠ .ok .stop := by
  intro h
  rcases verdict_cases h with ⟨-, h | h⟩ | ⟨-, h, -⟩
  · cases h
  · cases h.1
  · exact h rfl

/-- Only a plot that is not halved yet is searched. -/
theorem whole_of_verdict {d : Decision} (h : p.verdict q = .ok d)
    (hleaf : ∀ reason, d ≠ .leaf reason) (hcut : d ≠ .cut) : q.halved = false := by
  rcases verdict_cases h with ⟨-, h | h⟩ | ⟨h, -, -⟩
  · exact absurd h (hleaf _)
  · exact absurd h.1 hcut
  · exact h

/-- **A plot is halved once**, and its parts with it. -/
theorem move_follows {back : Bool} {m : Move} (h : p.move back q = .ok m) : m.Follows q := by
  obtain ⟨d, hv, ha⟩ := bind_eq_ok_iff.1 h
  cases d with
  | stop => exact absurd hv verdict_ne_stop
  | leaf reason =>
    cases ha
    trivial
  | giveUp =>
    cases ha
    exact whole_of_verdict hv nofun nofun
  | cut =>
    cases ha
    rcases verdict_cases hv with ⟨hhalved, -⟩ | ⟨-, -, hne⟩
    · exact ⟨hhalved.symm, hhalved.symm⟩
    · exact absurd rfl hne
  | divide s =>
    have hwhole := whole_of_verdict hv nofun nofun
    obtain ⟨⟨stock, halves⟩, -, rfl⟩ := map_eq_ok_iff.1 ha
    simp only [divided]
    split
    · exact hwhole
    · exact ⟨hwhole.symm, hwhole.symm⟩

end Plan

/-! ## Plots without a move -/

variable {f : Fault} {limit x y : Nat} {p : Plan} {q : Plot} {back : Bool}

theorem addWithin_error (h : addWithin limit x y = .error f) :
    ∃ operation, f = .overflow operation := by
  unfold addWithin at h
  split at h <;> cases h
  exact ⟨_, rfl⟩

theorem mulWithin_error (h : mulWithin limit x y = .error f) :
    ∃ operation, f = .overflow operation := by
  unfold mulWithin at h
  split at h <;> cases h
  exact ⟨_, rfl⟩

theorem subrangeSize_error (h : subrangeSize x y = .error f) :
    ∃ operation, f = .overflow operation := by
  rcases bind_eq_error h with h | ⟨_, -, h⟩
  · exact addWithin_error h
  · cases h

theorem Bins.gather_error {group : Grouping.Way Item} {items : List Item} {centers : Box}
    {nested : Bool} {tasks : Nat} (h : Bins.gather group items centers nested tasks = .error f) :
    ∃ operation, f = .overflow operation := by
  simp only [gather] at h
  split at h
  · rcases bind_eq_error h with h | ⟨_, -, h⟩
    · exact subrangeSize_error h
    · cases h
  · cases h

theorem Plan.verdict_error (h : p.verdict q = .error f) : ∃ operation, f = .overflow operation := by
  unfold verdict at h
  split at h
  · cases h
  · split at h
    · cases h
    · split at h
      · cases h
      · have hfound := map_eq_error h
        unfold found at hfound
        split at hfound
        · cases hfound
        · split at hfound
          · cases hfound
          · exact Bins.gather_error (map_eq_error hfound)

/-- **Where a plot has no move, a count is too large.** -/
theorem Plan.move_error (h : p.move back q = .error f) : ∃ operation, f = .overflow operation := by
  rcases bind_eq_error h with h | ⟨d, -, h⟩
  · exact verdict_error h
  · cases d with
    | divide s =>
      have hdealt := map_eq_error h
      unfold dealt at hdealt
      split at hdealt
      · cases hdealt
      · split at hdealt
        · exact subrangeSize_error (map_eq_error hdealt)
        · cases hdealt
    | stop => cases h
    | leaf reason => cases h
    | giveUp => cases h
    | cut => cases h

end BoxTree
