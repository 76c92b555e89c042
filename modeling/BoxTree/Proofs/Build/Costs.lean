import BoxTree.Proofs.Build.Bounds
import BoxTree.Proofs.Build.Histories
import BoxTree.Proofs.Tree.Costs
/-!
# The cost of a complete tree

The box of the root is the union of all boxes, bit for bit, and every leaf below it holds an object
unless there is none at all. So the cost of a complete tree is a number exactly when the area of
that union is finite, and it then counts the root as a whole step where the tree is split
(`Builder.build_weighed`). Boxes with finite corners may have a union whose area is not
(`Builder.vast_undefined`).
-/

namespace BoxTree

namespace Builder

variable {builder : Builder} {boxes : List Box} {policy : Policy} {check : Check}
  {queue : JobQueue BuildJob} {tree : Tree} {t : Growth} {places : List Nat} {s : Settings}
  {area : Scalar}

/-- What an object costs is a finite positive scalar in accepted settings. -/
theorem positive_intersectionCost (h : s.validate = .ok ()) : s.intersectionCost.Positive := by
  obtain ⟨-, -, ⟨hfinite, hpos⟩, -⟩ := validate_eq_ok_iff.1 h
  exact Scalar.positive_of_pos hpos hfinite

/-- **The box of the root** is the union of all boxes as it was gathered, bit for bit. -/
theorem rootBounds_of_complete (ha : builder.Accepted) (hq : queue.waiting = [])
    (h : (builder.build boxes policy check queue).outcome = .ok (.complete tree)) :
    tree.rootBounds = (policy.platform.extent boxes).bounds := by
  by_cases hempty : boxes = []
  · cases eq_empty_of_complete hempty h
    rw [hempty, policy.platform.bounds_extent_nil]
    rfl
  · obtain ⟨p, t, places, hbuilt⟩ := built_of_complete ha hq hempty h
    have hroot := hbuilt.describes.rootBounds
    rw [hbuilt.result] at hroot
    rw [Tree.rootBounds, hroot]
    rfl

/-- **Every node of a tree that has grown has a cost**: leaves hold objects, but for the one over no
boxes at all, whose root has no area. -/
theorem Grown.costed (h : Grown boxes tree t places) (hn : boxes.length ≤ limit32)
    (harea : boxes = [] → ¬ 0 < area) : ∀ node ∈ tree.nodes.toList, node.Costed area := by
  intro node hmem
  obtain ⟨i, hi⟩ := List.getElem?_of_mem hmem
  have hnode : tree.nodes[i]? = some node := by rwa [Array.getElem?_toList] at hi
  have hroot : boxes ≠ [] → 0 < t.region.size := by
    intro hne
    rw [Region.size, h.first, h.last]
    exact List.length_pos_iff.2 hne
  obtain ⟨s, js, hs, hu, ⟨-, hpos⟩, -⟩ := h.exists_subtree
    (P := fun s => s.Proper ∧ (boxes ≠ [] → 0 < s.region.size)) ⟨h.proper, hroot⟩ (by
      -- both parts of a range that is split hold something
      rintro r apart left right ⟨hproper, -⟩
      obtain ⟨-, -, -, -, -, hl, hr, -, hleft, hright⟩ := hproper
      exact ⟨⟨hleft, fun _ => hl⟩, hright, fun _ => hr⟩) hnode
  cases hs with
  | @leaf _ r _ _ hleaf =>
    cases hleaf.symm.trans hnode
    obtain ⟨hle, -, -⟩ := hu.proper
    have hlast : r.last ≤ t.items.length := hu.last
    have hlen : t.items.length = boxes.length := by
      rw [h.proper.length_items, Region.size, h.first, h.last, Nat.sub_zero]
    have hlimit : limit32 < 2 ^ 64 := by decide
    exact ⟨r.last - r.first, by omega, if_pos hle,
      fun hflat _ => hpos fun hempty => harea hempty hflat⟩
  | fork hfork =>
    cases hfork.symm.trans hnode
    exact ⟨0, by decide, rfl, fun _ hleaf => absurd hleaf Bool.false_ne_true⟩

/-- **The cost of a complete tree**, for any boxes, any accepted settings, any check, any platform,
and whatever order the jobs are run in, is a number exactly when the union of the boxes has a finite
area. It is then at least zero, and at least one where the root is an interior node. The union is
the one that was gathered on the platform, and it is that of one pass where all coordinates are
numbers. -/
theorem build_weighed (ha : builder.Accepted) (hq : queue.waiting = [])
    (h : (builder.build boxes policy check queue).outcome = .ok (.complete tree)) :
    let union := (policy.platform.extent boxes).bounds
    ∃ cost, tree.cost builder.settings.intersectionCost = .ok cost ∧
      (cost.isNaN = true ↔ union.surfaceArea.isInf = true) ∧
      (union.surfaceArea.isInf = false → 0 ≤ cost ∧
        ∀ root, tree.nodes[0]? = some root → root.isLeaf = false → 1 ≤ cost) ∧
      ((∀ b ∈ boxes, b.Numeric) → union = .around boxes) := by
  intro union
  obtain ⟨hn, -⟩ := le_of_complete h
  obtain ⟨t, places, hgrown⟩ := grown_of_complete ha hq h
  obtain ⟨root, hroot⟩ := hgrown.drawn.exists_root
  obtain ⟨rest, hnodes⟩ : ∃ rest, tree.nodes.toList = root :: rest := by
    rw [← Array.getElem?_toList] at hroot
    cases hlist : tree.nodes.toList with
    | nil =>
      rw [hlist] at hroot
      cases hroot
    | cons first rest =>
      rw [hlist] at hroot
      cases hroot
      exact ⟨rest, rfl⟩
  have hbounds : root.bounds = union := by
    rw [← show tree.rootBounds = union from rootBounds_of_complete ha hq h, Tree.rootBounds, hroot]
    rfl
  have hflat : boxes = [] → ¬ 0 < root.bounds.surfaceArea := by
    rintro rfl
    rw [hbounds, show union = .empty from policy.platform.bounds_extent_nil]
    decide
  have hcosted := hgrown.costed hn hflat
  rw [hnodes] at hcosted
  obtain ⟨cost, hcost, hnan, hsize⟩ :=
    Node.totalCost_cases (positive_intersectionCost ha.validate) hcosted
  rw [hbounds] at hnan hsize
  refine ⟨cost, ?_, hnan, fun hfinite => ⟨(hsize hfinite).1, fun root' hroot' hleaf => ?_⟩,
    policy.platform.bounds_extent_eq⟩
  · rw [Tree.cost, hnodes]
    exact hcost
  · cases hroot.symm.trans hroot'
    exact (hsize hfinite).2 hleaf

theorem fine_weighed :
    (Box.around row).surfaceArea.isInf = false ∧ ∃ tree cost,
      (fine.build row .fifo .never {}).outcome = .ok (.complete tree) ∧
        tree.cost fine.settings.intersectionCost = .ok cost ∧ cost.isNaN = false ∧ 0 ≤ cost := by
  have hfinite : (Box.around row).surfaceArea.isInf = false := by decide +kernel
  obtain ⟨tree, h⟩ := fine_complete
  obtain ⟨cost, hcost, hnan, hsize, hunion⟩ := build_weighed fine_accepted rfl h
  rw [hunion fun b hb => (row_finite b hb).numeric] at hnan hsize
  have hnumber : cost.isNaN = false := by
    rw [← Bool.not_eq_true, hnan, hfinite]
    nofun
  exact ⟨hfinite, tree, cost, h, hcost, hnumber, (hsize hfinite).1⟩

/-- A single box that is finite, and too large for the area of it to be. -/
def vast : List Box := [⟨⟨-1e30, -1e30, -1e30⟩, ⟨1e30, 1e30, 1e30⟩⟩]

/-- **The cost of a tree over a finite box is undefined** where the area of the box overflows. -/
theorem vast_undefined :
    (∀ b ∈ vast, b.Finite ∧ ∀ a, b.lo.get a ≤ b.hi.get a) ∧
      ∃ tree cost, (plain.build vast .fifo .never {}).outcome = .ok (.complete tree) ∧
        tree.cost plain.settings.intersectionCost = .ok cost ∧ cost.isNaN = true := by
  have hbox : ∀ b ∈ vast, b.Finite ∧ ∀ a, b.lo.get a ≤ b.hi.get a := by
    intro b hb
    rw [List.mem_singleton.1 hb]
    exact ⟨fun a => by cases a <;> decide +kernel, fun a => by cases a <;> decide +kernel⟩
  have htree : (plain.build vast .fifo .never {}).tree? =
      some ⟨#[⟨.around vast, .leaf 0 1, 0⟩], #[0]⟩ := by decide +kernel
  have hcost : Tree.cost ⟨#[⟨.around vast, .leaf 0 1, 0⟩], #[0]⟩ plain.settings.intersectionCost =
      .ok Scalar.nan := by decide +kernel
  exact ⟨hbox, _, _, BuildResult.tree?_eq_some_iff.1 htree, hcost, by decide +kernel⟩

end Builder

end BoxTree
