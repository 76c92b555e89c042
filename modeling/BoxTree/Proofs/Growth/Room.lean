import BoxTree.Proofs.Asking.Polls
import BoxTree.Proofs.Growth.Grows
import BoxTree.Proofs.Machine.Fuel
/-!
# Every tree has room

A plot of a build without nested threads always has a move, since nothing is cut into pieces whose
number could overflow. A sound plot therefore has a tree, and the tree is small: over `k` objects it
has fewer than `2 * k` nodes and no leaf deeper than `k` below its root. Up to `2 ^ 31` objects its
nodes can be numbered and its counters do not overflow (`Roomy.of_le`).
-/

namespace BoxTree

variable {p : Plan} {back : Bool} {n : Nat} {q : Plot} {t : Growth}

/-! ## Moves and trees -/

namespace Plan

theorem found_ok (h : p.nested = false) (r : Region) (stock : Stock) :
    ∃ found, p.found r stock = .ok found := by
  cases stock with
  | sorted v => exact ⟨_, rfl⟩
  | single items =>
    simp only [found, usesNested_of_not_nested h, Bins.gather, Bool.false_and]
    split <;> exact ⟨_, rfl⟩

theorem dealt_ok (h : p.nested = false) (back : Bool) (r : Region) (s : Split) (stock : Stock) :
    ∃ out, p.dealt back r s stock = .ok out := by
  cases stock with
  | sorted v => exact ⟨_, rfl⟩
  | single items =>
    have hpieces : p.usesPieces back r = false := by
      rw [usesPieces, usesNested_of_not_nested h, Bool.false_and]
    simp only [dealt, hpieces]
    exact ⟨_, rfl⟩

/-- **A plot has a move** where there are no nested threads. -/
theorem move_ok (h : p.nested = false) (back : Bool) (q : Plot) :
    ∃ mv, p.move back q = .ok mv := by
  have hverdict : ∃ d, p.verdict q = .ok d := by
    obtain ⟨found, hfound⟩ := found_ok h q.region q.stock
    unfold verdict
    rw [hfound]
    split
    · exact ⟨_, rfl⟩
    · split
      · exact ⟨_, rfl⟩
      · split <;> exact ⟨_, rfl⟩
  obtain ⟨d, hd⟩ := hverdict
  rw [move, hd, ok_bind]
  cases d with
  | stop => exact ⟨_, rfl⟩
  | leaf reason => exact ⟨_, rfl⟩
  | giveUp => exact ⟨_, rfl⟩
  | cut => exact ⟨_, rfl⟩
  | divide s =>
    obtain ⟨out, hout⟩ := dealt_ok h back q.region s q.stock
    rw [act, hout]
    exact ⟨_, rfl⟩

end Plan

/-- The fuel of a plot, wherever its root goes. -/
def Plot.fuel (q : Plot) : Nat := Site.fuel ⟨⟨0, 0⟩, q.halved, q.region⟩

/-- **A sound plot has a tree** when its moves pass on what gives a sound plot a move. -/
theorem exists_grows_of {Q : Plot → Prop} (hp : p.Usable back) (hpass : p.Passes back Q)
    (hmove : ∀ q, q.Sound p back n → Q q → ∃ mv, p.move back q = .ok mv) (hq : q.Sound p back n)
    (hQ : Q q) : ∃ t, Grows p back q t := by
  -- the plots of a move have less fuel than the plot
  induction hk : q.fuel using Nat.strong_induction_on generalizing q with
  | _ k ih =>
    obtain ⟨mv, hm⟩ := hmove q hq hQ
    have hsound := Plan.move_sound hp hq hm
    have hleaves := hpass q mv hQ hm
    have hfuel := Move.fuel_lt (a := ⟨0, 0⟩) (l := ⟨0, 0⟩) (r := ⟨0, 0⟩) hm hsound
    change _ < q.fuel at hfuel
    rw [hk] at hfuel
    cases mv with
    | leaf reason => exact ⟨_, .leaf hm⟩
    | halve stock =>
      obtain ⟨t, ht⟩ := ih _ (Nat.lt_of_le_of_lt (Nat.le_add_right _ _) hfuel) hsound.1 hleaves rfl
      exact ⟨t, .halve hm ht⟩
    | fork apart left right =>
      obtain ⟨hl, hr, -⟩ := hsound
      simp only [Move.sketch, Sketch.sites, Sketch.plots, List.singleton_append, List.map_cons,
        List.map_nil, fuelOf_cons, fuelOf_nil] at hfuel
      have hleft : left.fuel < k := by
        change Site.fuel ⟨⟨0, 0⟩, left.halved, left.region⟩ < k
        omega
      have hright : right.fuel < k := by
        change Site.fuel ⟨⟨0, 0⟩, right.halved, right.region⟩ < k
        omega
      obtain ⟨t, ht⟩ := ih _ hleft hl hleaves.1 rfl
      obtain ⟨t', ht'⟩ := ih _ hright hr hleaves.2 rfl
      exact ⟨_, .fork hm ht ht'⟩

/-- A sound plot has a tree when every plot has a move. -/
theorem exists_grows (hp : p.Usable back) (hmove : ∀ q, ∃ mv, p.move back q = .ok mv)
    (hq : q.Sound p back n) : ∃ t, Grows p back q t := by
  refine exists_grows_of (Q := fun _ => True) hp ?_ (fun q _ _ => hmove q) hq trivial
  intro q mv _ _
  cases mv with
  | leaf reason => trivial
  | halve stock => trivial
  | fork apart left right => exact ⟨trivial, trivial⟩

/-! ## Counters of a tree -/

namespace Growth

theorem Proper.size_eq {r : Region} {apart : Bool} {left right : Growth}
    (h : (fork r apart left right).Proper) : r.size = left.region.size + right.region.size := by
  obtain ⟨hfirst, hmid, hlast, -, -, -, -, -, hl, hr⟩ := h
  have := hl.first_le_last
  have := hr.first_le_last
  unfold Region.size
  omega

/-- Every leaf of a tree over some objects holds one. -/
theorem Proper.nodes_lt (h : t.Proper) (hpos : 0 < t.region.size) :
    t.nodes < 2 * t.region.size := by
  induction t with
  | leaf r reason items =>
    rw [nodes]
    change 0 < r.size at hpos
    change 1 < 2 * r.size
    omega
  | fork r apart left right ihl ihr =>
    have hsize := h.size_eq
    obtain ⟨-, -, -, -, -, hlpos, hrpos, -, hl, hr⟩ := h
    have hleft := ihl hl hlpos
    have hright := ihr hr hrpos
    rw [nodes]
    change _ < 2 * r.size
    omega

theorem stats_leaves (t : Growth) : t.stats.leaves + t.stats.interiorNodes = t.nodes := by
  induction t with
  | leaf r reason items => cases reason <;> rfl
  | fork r apart left right ihl ihr =>
    rw [stats, nodes, ← ihl, ← ihr]
    simp only [Statistics.add_eq, Statistics.interiorTally]
    omega

/-- Every leaf has one reason. -/
theorem stats_reasons (t : Growth) :
    t.stats.maxDepthLeaves + t.stats.underThresholdLeaves + t.stats.cheaperLeaves +
      t.stats.arbitraryLeaves = t.stats.leaves := by
  induction t with
  | leaf r reason items => cases reason <;> rfl
  | fork r apart left right ihl ihr =>
    simp only [stats, Statistics.add_eq, Statistics.interiorTally]
    omega

theorem stats_chunks (t : Growth) : t.stats.chunks = 0 := by
  induction t with
  | leaf r reason items => cases reason <;> rfl
  | fork r apart left right ihl ihr =>
    simp only [stats, Statistics.add_eq, Statistics.interiorTally]
    omega

/-- A tree over `k` objects is at most `k` deep, and has at most `k` leaves. -/
theorem Proper.leafDepthSum_le (h : t.Proper) (hpos : 0 < t.region.size) :
    t.stats.leafDepthSum ≤ t.region.size * (t.region.depth + t.region.size) := by
  induction t with
  | leaf r reason items =>
    have hdepth : (leaf r reason items).stats.leafDepthSum = r.depth := by
      cases reason <;> exact Nat.zero_add r.depth
    rw [hdepth]
    change r.depth ≤ r.size * (r.depth + r.size)
    exact Nat.le_trans (Nat.le_add_right _ _) (Nat.le_mul_of_pos_left _ hpos)
  | fork r apart left right ihl ihr =>
    have hsize := h.size_eq
    obtain ⟨-, -, -, hld, hrd, hlpos, hrpos, -, hl, hr⟩ := h
    have hleft := ihl hl hlpos
    have hright := ihr hr hrpos
    rw [hld] at hleft
    rw [hrd] at hright
    have hsum : (fork r apart left right).stats.leafDepthSum =
        left.stats.leafDepthSum + right.stats.leafDepthSum := by
      simp only [stats, Statistics.add_eq, Statistics.interiorTally]
      omega
    rw [hsum, region]
    calc left.stats.leafDepthSum + right.stats.leafDepthSum
      _ ≤ left.region.size * (r.depth + 1 + left.region.size) +
          right.region.size * (r.depth + 1 + right.region.size) := Nat.add_le_add hleft hright
      _ ≤ left.region.size * (r.depth + r.size) + right.region.size * (r.depth + r.size) :=
          Nat.add_le_add (Nat.mul_le_mul_left _ (by omega)) (Nat.mul_le_mul_left _ (by omega))
      _ = r.size * (r.depth + r.size) := by rw [← Nat.add_mul, ← hsize]

/-- **The counters of a tree do not overflow** where its objects can be numbered. -/
theorem Proper.within (h : t.Proper) (hdepth : t.region.depth = 0) (hpos : 0 < t.region.size)
    (hle : t.region.size ≤ limit32) : t.stats.Within := by
  have hnodes := h.nodes_lt hpos
  have hsum := h.leafDepthSum_le hpos
  have hleaves := t.stats_leaves
  have hreasons := t.stats_reasons
  have hchunks := t.stats_chunks
  have hsquare : t.region.size * t.region.size ≤ limit32 * limit32 := Nat.mul_le_mul hle hle
  rw [hdepth, Nat.zero_add] at hsum
  have hlimit : 2 * limit32 ≤ limit64 := by decide
  have hlimit' : limit32 * limit32 ≤ limit64 := by decide
  simp only [Statistics.Within, Statistics.bounded, List.forall_mem_cons, List.not_mem_nil,
    false_implies, implies_true, and_true]
  omega

end Growth

/-- **A tree over a bounded number of objects has room.** -/
theorem Roomy.of_grows (hp : p.Usable back) (hq : q.Sound p back n) (hdepth : q.region.depth = 0)
    (hpos : 0 < q.region.size) (hle : q.region.size ≤ 2 ^ 31) (ht : Grows p back q t) :
    Roomy p back q := by
  obtain ⟨hregion, -, hproper⟩ := ht.proper hp hq
  rw [← hregion] at hdepth hpos hle
  have hnodes := hproper.nodes_lt hpos
  have hlimit : 2 * 2 ^ 31 = limit32 + 1 := rfl
  exact ⟨t, ht, by omega, hproper.within hdepth hpos (hle.trans (by decide))⟩

theorem Roomy.of_le (hp : p.Usable back) (hnested : p.nested = false) (hq : q.Sound p back n)
    (hdepth : q.region.depth = 0) (hpos : 0 < q.region.size) (hle : q.region.size ≤ 2 ^ 31) :
    Roomy p back q := by
  obtain ⟨t, ht⟩ := exists_grows hp (Plan.move_ok hnested back) hq
  exact .of_grows hp hq hdepth hpos hle ht

end BoxTree
