import BoxTree.Proofs.Build.Bounds
import BoxTree.Proofs.Build.Reports
import BoxTree.Proofs.Growth.Halving
import BoxTree.Proofs.Split.Coincident
/-!
# Builds over boxes that coincide

Boxes with one centroid give no search a plane, so that the whole build is halved by position from
its root on. Its tree is known node by node, and so are its leaves, its depth, its one chunk and the
order of its objects, which is the one they were given in (`Builder.build_halved`).
-/

namespace BoxTree

namespace Tree

/-- The ranges of the leaves below a node, from left to right. -/
def rangesBelow (t : Tree) (i : Nat) : List (Nat × Nat) :=
  rangesAt t.nodes (visit t.nodes t.nodes.size [i])

/-- A node covers the objects that the leaves below it tile. -/
def Covers (t : Tree) (i first last : Nat) : Prop := Tiles first last (t.rangesBelow i)

/-- What is right about a tree that halves a number of objects by position. -/
structure Halved (t : Tree) (maxPerLeaf n : Nat) : Prop where
  root : t.Covers 0 0 n
  covers : ∀ i < t.nodes.size, ∃ first last, t.Covers i first last
  /-- A node is a leaf exactly when its objects fit. -/
  leaf : ∀ (i first last : Nat) (node : Node), t.nodes[i]? = some node → t.Covers i first last →
    (node.isLeaf = true ↔ last - first ≤ maxPerLeaf)
  /-- Any other node has its halves below it, the right one being the larger. -/
  halves : ∀ (i first last : Nat) (node : Node), t.nodes[i]? = some node → t.Covers i first last →
    maxPerLeaf < last - first → ∃ l r,
      child t.nodes i .left = some l ∧ t.Covers l first (first + (last - first) / 2) ∧
      child t.nodes i .right = some r ∧ t.Covers r (first + (last - first) / 2) last

end Tree

/-- A tiling ends in one place. -/
theorem Tiles.last_eq {first last last' : Nat} {ranges : List (Nat × Nat)}
    (h : Tiles first last ranges) (h' : Tiles first last' ranges) : last = last' := by
  induction ranges generalizing first with
  | nil => exact h.symm.trans h'
  | cons range rest ih => exact ih h.2.2 h'.2.2

/-- A tiling that is not empty begins in one place. -/
theorem Tiles.first_eq {first first' last last' : Nat} {ranges : List (Nat × Nat)}
    (hne : ranges ≠ []) (h : Tiles first last ranges) (h' : Tiles first' last' ranges) :
    first = first' := by
  cases ranges with
  | nil => exact absurd rfl hne
  | cons range rest => exact h.1.symm.trans h'.1

theorem Growth.ranges_ne_nil (t : Growth) : t.ranges ≠ [] := by
  induction t with
  | leaf r reason items => exact List.cons_ne_nil _ _
  | fork r apart left right ihl _ => exact List.append_ne_nil_of_left_ne_nil ihl _

namespace Builder

variable {builder : Builder} {boxes : List Box} {policy : Policy} {check : Check}
  {queue : JobQueue BuildJob} {tree : Tree} {p : Plan} {t : Growth} {places : List Nat}
  {platform : Platform} {result : Builder} {back : Bool} {m : Move} {found : Option Split}
  {a : Axis} {c : Scalar} {o : Item} {i k first last : Nat}

/-! ## The root -/

theorem centroid_of_mem_ofBoxes (h : ∀ b ∈ boxes, b.centroid a = c) (ho : o ∈ Item.ofBoxes boxes) :
    o.centroid a = c :=
  h _ (List.mem_of_getElem? (getElem?_of_mem_ofBoxes ho))

/-- Neither search reorders items that coincide. -/
theorem order_rootStock_eq (hc : Box.Coincide boxes) (p : Plan) :
    (rootStock p boxes).order = Item.ofBoxes boxes := by
  unfold rootStock
  cases p.search with
  | binning => rfl
  | exact =>
    obtain ⟨c, hn, hboxes⟩ := hc .x
    refine Item.sortAlong_eq_self hn (fun o ho => centroid_of_mem_ofBoxes hboxes ho) ?_ _
    rw [map_index_ofBoxes]
    exact List.pairwise_le_range

/-- **Neither search finds a plane** for boxes that coincide. -/
theorem found_eq_none (hc : Box.Coincide boxes) (hne : boxes ≠ [])
    (h : p.found (root p boxes).region (root p boxes).stock = .ok found) : found = none := by
  unfold root rootStock at h
  cases hsearch : p.search with
  | exact =>
    have hnone : ∀ a,
        Sweep.cheapest a (Item.sortAlong a (Item.ofBoxes boxes) p.platform.nans) = none := by
      intro a
      obtain ⟨c, hnan, hboxes⟩ := hc a
      exact Sweep.cheapest_eq_none hnan fun o ho =>
        centroid_of_mem_ofBoxes hboxes ((sortAlong_perm a _ _).mem_iff.1 ho)
    rw [hsearch] at h
    simp only [Plan.found, Axis.all, List.map_cons, List.map_nil, PerAxis.get, hnone] at h
    cases h
    rfl
  | binning =>
    rw [hsearch] at h
    simp only [Plan.found] at h
    split at h
    · cases h
      rfl
    · obtain ⟨bins, hbins, rfl⟩ := map_eq_ok_iff.1 h
      exact Bins.cheapest_eq_none (hc.centers_eq hne p.platform) hbins

/-- **All that becomes of the root** is that it is halved. -/
theorem move_root (hc : Box.Coincide boxes) (hlarge : p.settings.leafThreshold < boxes.length)
    (h : p.move back (root p boxes) = .ok m) : m = .halve (root p boxes).stock := by
  obtain ⟨d, hv, ha⟩ := bind_eq_ok_iff.1 h
  rcases Plan.verdict_whole hv rfl with ⟨-, hsmall⟩ | ⟨-, hdeep⟩ | ⟨-, -, found, hfound, rfl⟩
  · exact absurd hlarge (Nat.not_lt_of_le hsmall)
  · exact absurd (show Plan.maxDepth ≤ 0 from hdeep) (by decide)
  · cases found_eq_none hc (List.ne_nil_of_length_pos (Nat.zero_lt_of_lt hlarge)) hfound
    cases ha
    rfl

/-- The tree of a build over boxes that coincide. -/
theorem Built.halves (h : Built builder platform boxes tree p t places result)
    (hc : Box.Coincide boxes) (hlarge : builder.settings.leafThreshold < boxes.length) :
    t.items = Item.ofBoxes boxes ∧ t.All (Growth.Halves builder.settings.maxPerLeaf) := by
  rw [← (plan_eq h.plan).settings] at hlarge ⊢
  obtain ⟨hitems, hall⟩ := h.grows.halves_of_move fun m hm => move_root hc hlarge hm
  exact ⟨hitems.trans (order_rootStock_eq hc p), hall⟩

/-! ## The nodes -/

/-- **A node covers the region of its tree**, and nothing else. -/
theorem Grown.covers_iff (h : Grown boxes tree t places) {s : Growth} {js : List Nat}
    (hs : Drawn tree.nodes i s js) (hproper : s.Proper) (hsub : js.Sublist places) :
    tree.Covers i first last ↔ first = s.region.first ∧ last = s.region.last := by
  have hranges : tree.rangesBelow i = s.ranges := by
    rw [Tree.rangesBelow, h.visit_eq hs hsub, hs.rangesAt_eq]
  rw [Tree.Covers, hranges]
  constructor
  · intro htiles
    cases htiles.first_eq s.ranges_ne_nil hproper.tiles
    exact ⟨rfl, htiles.last_eq hproper.tiles⟩
  · rintro ⟨rfl, rfl⟩
    exact hproper.tiles

/-- **A tree that has grown by halving** is halved. -/
theorem Grown.halved (h : Grown boxes tree t places) (hall : t.All (Growth.Halves k)) :
    tree.Halved k boxes.length where
  root := (h.covers_iff h.drawn h.proper (.refl _)).2 ⟨h.first.symm, h.last.symm⟩
  covers i hi := by
    obtain ⟨s, js, hs, hu, -, hsub⟩ :=
      h.exists_subtree hall And.right (Array.getElem?_eq_getElem hi)
    exact ⟨_, _, (h.covers_iff hs hu.proper hsub).2 ⟨rfl, rfl⟩⟩
  leaf i first last node hnode hcovers := by
    obtain ⟨s, js, hs, hu, hp, hsub⟩ := h.exists_subtree hall And.right hnode
    obtain ⟨rfl, rfl⟩ := (h.covers_iff hs hu.proper hsub).1 hcovers
    rw [hs.isLeaf_iff hnode]
    cases s with
    | leaf r reason items => exact iff_of_true trivial hp.2
    | fork r apart left right => exact iff_of_false id (Nat.not_le_of_lt hp.1.2.1)
  halves i first last node hnode hcovers hlarge := by
    obtain ⟨s, js, hs, hu, hp, hsub⟩ := h.exists_subtree hall And.right hnode
    obtain ⟨rfl, rfl⟩ := (h.covers_iff hs hu.proper hsub).1 hcovers
    cases hs with
    | leaf hleaf => exact absurd hp.2 (Nat.not_le_of_lt hlarge)
    | @fork i l r region apart left right js ks hfork hj hk hl hr =>
      have hbranches : (js ++ ks).Sublist places := (List.sublist_cons_self i _).trans hsub
      have hlsub := (List.sublist_append_left js ks).trans hbranches
      have hrsub := (List.sublist_append_right js ks).trans hbranches
      obtain ⟨hfirst, hmid, hlast, -⟩ := hu.proper
      have hcut : left.region.last = region.first + region.size / 2 := hp.1.2.2
      refine ⟨l, r, by rw [Tree.child, hfork]; rfl, ?_, by rw [Tree.child, hfork]; rfl, ?_⟩
      · exact (h.covers_iff hl hu.fork.1.proper hlsub).2 ⟨hfirst.symm, hcut.symm⟩
      · exact (h.covers_iff hr hu.fork.2.proper hrsub).2 ⟨hcut.symm.trans hmid, hlast.symm⟩

/-- The counters of such a tree know the least depth at which leaves can hold all objects. -/
theorem Grown.isLeast_depth (h : Grown boxes tree t places) (hall : t.All (Growth.Halves k)) :
    IsLeast {i | boxes.length ≤ k * 2 ^ i} t.stats.maxLeafDepth := by
  obtain ⟨i, hi, hdepth⟩ := Growth.isLeast_cuts h.proper hall
  have hsize : t.region.size = boxes.length := by
    rw [Region.size, h.first, h.last, Nat.sub_zero]
  rw [hsize] at hi
  rw [h.depth, Nat.zero_add] at hdepth
  exact hdepth ▸ hi

/-! ## Complete builds -/

/-- **Every complete build over boxes that coincide halves them by position**, for any accepted
settings that do not make a leaf of all of them, any check, and whatever order the jobs are run in.
Every leaf is counted as one of an arbitrary split, the deepest leaf lies at the least depth at
which leaves can hold all objects, there is one chunk, and no object is moved. -/
theorem build_halved (ha : builder.Accepted) (hq : queue.waiting = []) (hc : Box.Coincide boxes)
    (hlarge : builder.settings.leafThreshold < boxes.length)
    (h : (builder.build boxes policy check queue).outcome = .ok (.complete tree)) :
    let stats := (builder.build boxes policy check queue).builder.stats
    tree.Halved builder.settings.maxPerLeaf boxes.length ∧
      stats.leaves = tree.leaves.length ∧ stats.arbitraryLeaves = tree.leaves.length ∧
      IsGreatest {d | ∃ node ∈ tree.leaves, node.depth = d} stats.maxLeafDepth ∧
      IsLeast {k | boxes.length ≤ builder.settings.maxPerLeaf * 2 ^ k} stats.maxLeafDepth ∧
      stats.chunks = 1 ∧ tree.order = Array.range boxes.length := by
  intro stats
  have hne : boxes ≠ [] := List.ne_nil_of_length_pos (Nat.zero_lt_of_lt hlarge)
  obtain ⟨p, t, places, hbuilt⟩ := built_of_complete ha hq hne h
  have hgrown := hbuilt.grown
  have hcounts := hbuilt.describes.counts
  obtain ⟨hitems, hall⟩ := hbuilt.halves hc hlarge
  have hstats : stats = { t.stats with chunks := t.jobs + 1 } :=
    congrArg Builder.stats hbuilt.result
  have hleaves : stats.leaves = tree.leaves.length := hcounts.leaves
  refine ⟨hgrown.halved hall, hleaves, ?_, ?_, ?_, ?_, ?_⟩
  · rw [← hleaves, hstats]
    exact hall.arbitraryLeaves_eq
  · have hdepths : {d | ∃ node ∈ tree.leaves, node.depth = d} =
        {d | ∃ node ∈ tree.nodes.toList, node.isLeaf = true ∧ node.depth = d} := by
      simp only [Tree.leaves, List.mem_filter, and_assoc]
    rw [hdepths]
    exact hcounts.maxLeafDepth
  · rw [hstats]
    exact hgrown.isLeast_depth hall
  · rw [hstats]
    exact congrArg Nat.succ hall.jobs_eq
  · rw [hgrown.order, hitems, map_index_ofBoxes, ← Array.toList_range, Array.toArray_toList]

/-- Three different boxes around one center. -/
def concentric : List Box :=
  [⟨⟨0, 0, 0⟩, ⟨4, 4, 4⟩⟩, ⟨⟨1, 1, 1⟩, ⟨3, 3, 3⟩⟩, ⟨⟨0, 1, 0⟩, ⟨4, 3, 4⟩⟩]

theorem concentric_coincide : Box.Coincide concentric := by
  have hcenters : ∀ b ∈ concentric, b.center = ⟨2, 2, 2⟩ := by decide +kernel
  intro a
  refine ⟨2, by decide +kernel, fun b hb => ?_⟩
  rw [← Box.get_center, hcenters b hb]
  cases a <;> rfl

theorem fine_halved : fine.settings.leafThreshold < concentric.length ∧
    Box.Coincide concentric ∧ ∃ tree,
    let result := fine.build concentric .fifo .never {}
    result.outcome = .ok (.complete tree) ∧ tree.Halved 1 3 ∧
      result.builder.stats.arbitraryLeaves = tree.leaves.length ∧
      IsLeast {k | 3 ≤ 1 * 2 ^ k} result.builder.stats.maxLeafDepth ∧
      result.builder.stats.chunks = 1 ∧ tree.order = Array.range 3 := by
  obtain ⟨tree, h⟩ : ∃ tree, (fine.build concentric .fifo .never {}).outcome =
      .ok (.complete tree) := BuildResult.exists_tree (by decide +kernel)
  obtain ⟨hhalved, -, harbitrary, -, hdepth, hchunks, horder⟩ :=
    build_halved fine_accepted rfl concentric_coincide (by decide) h
  exact ⟨by decide, concentric_coincide, tree, h, hhalved, harbitrary, hdepth, hchunks, horder⟩

end Builder

end BoxTree
