import BoxTree.Proofs.Growth.Splits
/-!
# The depth of a tree

Two recursions make a tree, and they stop for different reasons. A plot that is searched is a leaf
at `Plan.maxDepth`, however many objects it holds. A plot that is halved is a leaf once its objects
fit, however deep it lies; but it was shallower than `Plan.maxDepth` when it was halved first, and
every cut takes half of its objects. What a plot may still grow in depth is therefore known from its
depth and its size (`Plot.Shallow`), whatever its boxes are.
-/

namespace BoxTree

/-- A plot of a build whose objects fit into leaves after `k` cuts. -/
structure Plot.Shallow (p : Plan) (k : Nat) (q : Plot) : Prop where
  size : q.region.size ≤ p.settings.maxPerLeaf * 2 ^ k
  whole : q.halved = false → q.region.depth ≤ Plan.maxDepth
  /-- The cuts that are left do not reach below the bound. -/
  halved : q.halved = true → ∃ i, q.region.size ≤ p.settings.maxPerLeaf * 2 ^ i ∧
    q.region.depth + i < Plan.maxDepth + k

variable {p : Plan} {back : Bool} {n k : Nat} {q : Plot} {t : Growth} {m : Move}

theorem Plot.Shallow.depth_le (h : q.Shallow p k) :
    q.region.depth ≤ max Plan.maxDepth (Plan.maxDepth - 1 + k) := by
  cases hq : q.halved with
  | false => exact (h.whole hq).trans (Nat.le_max_left _ _)
  | true =>
    obtain ⟨i, -, hdepth⟩ := h.halved hq
    have hpos : 0 < Plan.maxDepth := by decide
    omega

/-- The parts of a plot hold no more than the plot. -/
theorem Plot.Forks.size_le {left right : Plot} (h : q.Forks left right) :
    left.region.size ≤ q.region.size ∧ right.region.size ≤ q.region.size := by
  have hleft := h.left_pos
  have hright := h.right_pos
  have hfirst := h.first
  have hmid := h.mid
  have hlast := h.last
  unfold Region.size at *
  omega

namespace Plan

/-- A division starts over one level deeper, or halves the plot. -/
theorem divided_shallow {dealt : Stock × Halves}
    (hsound : (p.divided back q dealt).Sound p back n q) (hq : q.Shallow p k)
    (hdepth : q.region.depth < maxDepth) :
    (p.divided back q dealt).Leaves (Plot.Shallow p k) q := by
  obtain ⟨stock, halves⟩ := dealt
  simp only [divided] at hsound ⊢
  split at hsound
  · rename_i hdegenerate
    rw [if_pos hdegenerate]
    exact ⟨hq.size, by simp, fun _ => ⟨k, hq.size, Nat.add_lt_add_right hdepth k⟩⟩
  · rename_i hboth
    rw [if_neg hboth]
    obtain ⟨hleft, hright⟩ := hsound.2.2.size_le
    exact ⟨⟨hleft.trans hq.size, fun _ => hdepth, by simp⟩, hright.trans hq.size, fun _ => hdepth,
      by simp⟩

/-- **A cut uses up one of the cuts that are left.** -/
theorem cutPlot_shallow (hq : q.Shallow p k) (hhalved : q.halved = true)
    (hlarge : p.settings.maxPerLeaf < q.region.size) :
    (cutPlot q).Leaves (Plot.Shallow p k) q := by
  obtain ⟨i, hfit, hdepth⟩ := hq.halved hhalved
  cases i with
  | zero =>
    rw [Nat.pow_zero, Nat.mul_one] at hfit
    exact absurd hlarge (Nat.not_lt_of_le hfit)
  | succ i =>
    have hsize := hq.size
    rw [Nat.pow_succ, ← Nat.mul_assoc] at hfit
    have hregion : q.region.size = q.region.last - q.region.first := rfl
    refine ⟨⟨?_, nofun, fun _ => ⟨i, ?_, ?_⟩⟩, ?_, nofun, fun _ => ⟨i, ?_, ?_⟩⟩
    all_goals simp only [Region.before, Region.after, Region.size] at *
    all_goals omega

/-- **Every move leaves a plot room for the cuts it may need.** -/
theorem move_shallow (hp : p.Usable back) (hsound : q.Sound p back n) (hq : q.Shallow p k)
    (h : p.move back q = .ok m) : m.Leaves (Plot.Shallow p k) q := by
  have hmove := move_sound hp hsound h
  obtain ⟨d, hv, ha⟩ := bind_eq_ok_iff.1 h
  cases hhalved : q.halved with
  | true =>
    rcases verdict_cases hv with ⟨-, rfl | ⟨rfl, hlarge⟩⟩ | ⟨hwhole, -⟩
    · cases ha
      trivial
    · cases ha
      exact cutPlot_shallow hq hhalved hlarge
    · rw [hhalved] at hwhole
      cases hwhole
  | false =>
    rcases verdict_whole hv hhalved with ⟨rfl, -⟩ | ⟨rfl, -⟩ | ⟨-, hdepth, found, -, rfl⟩
    · cases ha
      trivial
    · cases ha
      trivial
    · cases hd : p.judged q.region found with
      | stop => exact absurd hd (judged_ne found).1
      | cut => exact absurd hd (judged_ne found).2
      | leaf reason =>
        rw [hd] at ha
        cases ha
        trivial
      | giveUp =>
        rw [hd] at ha
        cases ha
        exact ⟨hq.size, nofun, fun _ => ⟨k, hq.size, Nat.add_lt_add_right hdepth k⟩⟩
      | divide s =>
        rw [hd] at ha
        obtain ⟨dealt, -, rfl⟩ := map_eq_ok_iff.1 ha
        exact divided_shallow hmove hq hdepth

/-- A leaf is what was decided about its plot. -/
theorem verdict_of_leaf {reason : LeafReason} (h : p.move back q = .ok (.leaf reason)) :
    p.verdict q = .ok (.leaf reason) := by
  obtain ⟨d, hv, ha⟩ := bind_eq_ok_iff.1 h
  cases d with
  | leaf reason' =>
    cases ha
    exact hv
  | divide s =>
    obtain ⟨⟨stock, halves⟩, -, hd⟩ := map_eq_ok_iff.1 ha
    simp only [divided] at hd
    split at hd <;> cases hd
  | cut => cases ha
  | giveUp => cases ha
  | stop => cases ha

/-- A leaf that is cheaper than a split may hold its objects. -/
theorem size_le_of_judged {found : Option Split} {reason : LeafReason}
    (h : p.judged q.region found = .leaf reason) : q.region.size ≤ p.settings.maxPerLeaf := by
  unfold judged at h
  split at h
  · cases h
  · split at h
    · rename_i hprefers
      exact (Cost.prefersLeaf_iff.1 hprefers).1
    · cases h

/-- **A leaf that is too large** lies at the greatest depth of a search. -/
theorem depth_of_leaf {reason : LeafReason}
    (hfits : p.settings.leafThreshold ≤ p.settings.maxPerLeaf) (hq : q.Shallow p k)
    (h : p.move back q = .ok (.leaf reason)) (hlarge : p.settings.maxPerLeaf < q.region.size) :
    q.region.depth = maxDepth := by
  have hv := verdict_of_leaf h
  cases hhalved : q.halved with
  | true =>
    simp only [verdict, hhalved, if_true, if_neg (Nat.not_le_of_lt hlarge)] at hv
    cases hv
  | false =>
    rcases verdict_whole hv hhalved with ⟨-, hsmall⟩ | ⟨-, hdeep⟩ | ⟨-, -, found, -, hjudged⟩
    · exact absurd hlarge (Nat.not_lt_of_le (hsmall.trans hfits))
    · exact Nat.le_antisymm (hq.whole hhalved) hdeep
    · exact absurd hlarge (Nat.not_lt_of_le (size_le_of_judged hjudged))

end Plan

/-! ## Trees -/

/-- The depth of a node is bounded, and only at the greatest depth of a search does a leaf hold
more objects than the settings allow. -/
def Growth.Shallow (s : Settings) (k : Nat) (t : Growth) : Prop :=
  t.region.depth ≤ max Plan.maxDepth (Plan.maxDepth - 1 + k) ∧
    (t.IsLeaf → s.maxPerLeaf < t.region.size → t.region.depth = Plan.maxDepth)

/-- **No node of a tree is deep** that grows on a shallow plot. -/
theorem Grows.shallow (hp : p.Usable back)
    (hfits : p.settings.leafThreshold ≤ p.settings.maxPerLeaf) (hsound : q.Sound p back n)
    (hq : q.Shallow p k) (h : Grows p back q t) : t.All (Growth.Shallow p.settings k) := by
  induction h with
  | leaf hm => exact ⟨hq.depth_le, fun _ hlarge => Plan.depth_of_leaf hfits hq hm hlarge⟩
  | halve hm _ ih =>
    exact ih (Plan.move_sound hp hsound hm).1 (Plan.move_shallow hp hsound hq hm)
  | fork hm _ _ ihl ihr =>
    obtain ⟨hleft, hright, -⟩ := Plan.move_sound hp hsound hm
    obtain ⟨hsl, hsr⟩ := Plan.move_shallow hp hsound hq hm
    exact ⟨⟨hq.depth_le, nofun⟩, ihl hleft hsl, ihr hright hsr⟩

end BoxTree
