import BoxTree.Proofs.Tree.Drawn
import Mathlib.Order.Bounds.Basic
/-!
# Counters of nodes

The counters of a build come from the regions it worked on, the nodes of a tree from the chunks.
`Statistics.Counts` says of counters that they count some nodes. Those of a tree that has grown
count the nodes it is drawn in (`Drawn.counts`), since leaves and interior nodes add to both alike.
-/

namespace BoxTree

/-- The counters of some nodes. -/
structure Statistics.Counts (s : Statistics) (nodes : List Node) : Prop where
  leaves : s.leaves = (nodes.filter fun n => n.isLeaf).length
  interiorNodes : s.interiorNodes = (nodes.filter fun n => !n.isLeaf).length
  leafDepthSum : s.leafDepthSum = ((nodes.filter fun n => n.isLeaf).map Node.depth).sum
  maxLeafDepth : IsGreatest {d | ∃ n ∈ nodes, n.isLeaf = true ∧ n.depth = d} s.maxLeafDepth
  largestLeaf : IsGreatest {c | ∃ n ∈ nodes, n.isLeaf = true ∧ n.count = .ok c} s.largestLeaf
  /-- No leaf ends before it begins. -/
  counted : ∀ n ∈ nodes, ∃ c, n.count = .ok c
  /-- Below every node there is a leaf. -/
  deepest : ∀ n ∈ nodes, n.depth ≤ s.maxLeafDepth

/-- The nodes at some indices. -/
def Tree.nodesAt (nodes : Array Node) (places : List Nat) : List Node :=
  places.filterMap fun i => nodes[i]?

variable {s s' : Statistics} {nodes nodes' : List Node} {root : Node}

namespace Statistics.Counts

theorem perm (h : s.Counts nodes) (hp : nodes.Perm nodes') : s.Counts nodes' := by
  have hmem : ∀ {n}, n ∈ nodes ↔ n ∈ nodes' := hp.mem_iff
  have hleaves := hp.filter fun n => n.isLeaf
  exact ⟨h.leaves.trans hleaves.length_eq,
    h.interiorNodes.trans (hp.filter fun n => !n.isLeaf).length_eq,
    h.leafDepthSum.trans (hleaves.map Node.depth).sum_nat,
    by simpa only [hmem] using h.maxLeafDepth, by simpa only [hmem] using h.largestLeaf,
    fun n hn => h.counted n (hmem.2 hn), fun n hn => h.deepest n (hmem.2 hn)⟩

/-- The number of chunks is no count of nodes. -/
theorem withChunks (h : s.Counts nodes) (chunks : Nat) :
    ({ s with chunks := chunks } : Statistics).Counts nodes :=
  ⟨h.leaves, h.interiorNodes, h.leafDepthSum, h.maxLeafDepth, h.largestLeaf, h.counted, h.deepest⟩

theorem leaf {first last depth : Nat} {bounds : Box} (hle : first ≤ last) (reason : LeafReason) :
    (leafTally reason depth (last - first)).Counts [⟨bounds, .leaf first last, depth⟩] := by
  have hcount : Node.count ⟨bounds, .leaf first last, depth⟩ = .ok (last - first) := if_pos hle
  have htally : leafTally reason depth (last - first) = { reasonTally reason with
      leaves := 1, largestLeaf := last - first, leafDepthSum := depth, maxLeafDepth := depth } := by
    cases reason <;> simp [leafTally, reasonTally, add_eq]
  rw [htally]
  refine ⟨rfl, ?_, ?_, ?_, ?_, ?_, ?_⟩
  · cases reason <;> rfl
  · simp [Node.isLeaf]
  · simp [Node.isLeaf]
  · simp [Node.isLeaf, hcount]
  · simp [hcount]
  · simp

/-- **An interior node adds to the counters of the nodes below it.** -/
theorem fork (hl : s.Counts nodes) (hr : s'.Counts nodes') (hroot : root.isLeaf = false)
    (hdepth : root.depth ≤ s.maxLeafDepth) :
    (interiorTally + (s + s')).Counts (root :: (nodes ++ nodes')) := by
  have hcount : root.count = .ok 0 := by
    obtain ⟨bounds, kind, depth⟩ := root
    cases kind with
    | interior l r => rfl
    | leaf first last => cases hroot
  have hfilter : ((root :: (nodes ++ nodes')).filter fun n => n.isLeaf) =
      nodes.filter (fun n => n.isLeaf) ++ nodes'.filter fun n => n.isLeaf := by
    simp [hroot]
  -- the leaves among the nodes are those of the two parts
  have hunion : ∀ Q : Node → Nat → Prop,
      {d | ∃ n ∈ root :: (nodes ++ nodes'), n.isLeaf = true ∧ Q n d} =
        {d | ∃ n ∈ nodes, n.isLeaf = true ∧ Q n d} ∪
          {d | ∃ n ∈ nodes', n.isLeaf = true ∧ Q n d} := by
    intro Q
    ext d
    simp [hroot, or_and_right, exists_or]
  have hdeep : (interiorTally + (s + s')).maxLeafDepth = max s.maxLeafDepth s'.maxLeafDepth :=
    Nat.zero_max _
  have hlarge : (interiorTally + (s + s')).largestLeaf = max s.largestLeaf s'.largestLeaf :=
    Nat.zero_max _
  constructor
  · rw [hfilter, List.length_append, ← hl.leaves, ← hr.leaves]
    exact Nat.zero_add _
  · simp only [List.filter_cons, hroot, Bool.not_false, if_true, List.filter_append,
      List.length_cons, List.length_append, ← hl.interiorNodes, ← hr.interiorNodes]
    exact Nat.add_comm _ _
  · rw [hfilter, List.map_append, List.sum_append, ← hl.leafDepthSum, ← hr.leafDepthSum]
    exact Nat.zero_add _
  · rw [hunion fun n d => n.depth = d, hdeep]
    exact hl.maxLeafDepth.union hr.maxLeafDepth
  · rw [hunion fun n c => n.count = .ok c, hlarge]
    exact hl.largestLeaf.union hr.largestLeaf
  · rw [List.forall_mem_cons, List.forall_mem_append]
    exact ⟨⟨0, hcount⟩, hl.counted, hr.counted⟩
  · rw [hdeep, List.forall_mem_cons, List.forall_mem_append]
    exact ⟨le_max_of_le_left hdepth, fun n hn => le_max_of_le_left (hl.deepest n hn),
      fun n hn => le_max_of_le_right (hr.deepest n hn)⟩

/-- **The counters of all nodes of a tree** know its greatest depth. -/
theorem depth_eq {t : Tree} (h : s.Counts t.nodes.toList) : t.depth = s.maxLeafDepth := by
  obtain ⟨⟨n, hn, -, hdepth⟩, -⟩ := h.maxLeafDepth
  have hmax : (t.nodes.toList.map Node.depth).max? = some s.maxLeafDepth := by
    rw [List.max?_eq_some_iff]
    refine ⟨List.mem_map.2 ⟨n, hn, hdepth⟩, fun d hd => ?_⟩
    obtain ⟨m, hm, rfl⟩ := List.mem_map.1 hd
    exact h.deepest m hm
  rw [Tree.depth, List.foldl_max, hmax]
  exact Nat.zero_max _

end Statistics.Counts

namespace Drawn

variable {nodes : Array Node} {i : Nat} {t : Growth} {places : List Nat}

/-- **The counters of a tree count the nodes it is drawn in.** -/
theorem counts (h : Drawn nodes i t places) (ht : t.Proper) :
    t.stats.Counts (Tree.nodesAt nodes places) := by
  induction h with
  | @leaf i r reason items h =>
    have hnodes : Tree.nodesAt nodes [i] = [⟨r.extent.bounds, .leaf r.first r.last, r.depth⟩] := by
      simp [Tree.nodesAt, h]
    rw [hnodes]
    exact .leaf ht.1 reason
  | @fork i j k r apart left right js ks h _ _ hl hr ihl ihr =>
    obtain ⟨-, -, -, hdepth, -, -, -, -, htl, htr⟩ := ht
    have hnodes : Tree.nodesAt nodes (i :: (js ++ ks)) =
        ⟨r.extent.bounds, .interior j k, r.depth⟩ ::
          (Tree.nodesAt nodes js ++ Tree.nodesAt nodes ks) := by
      simp [Tree.nodesAt, h]
    rw [hnodes]
    refine .fork (ihl htl) (ihr htr) rfl ?_
    -- the root is less deep than its left child
    obtain ⟨node, hnode⟩ := hl.exists_root
    have hmem : node ∈ Tree.nodesAt nodes js := List.mem_filterMap.2 ⟨j, hl.root_mem, hnode⟩
    have hdeepest := (ihl htl).deepest node hmem
    rw [(hl.root_eq hnode).2, hdepth] at hdeepest
    exact Nat.le_of_succ_le hdeepest

end Drawn

/-- All indices of an array are those of its nodes. -/
theorem Tree.nodesAt_range (nodes : Array Node) :
    nodesAt nodes (List.range nodes.size) = nodes.toList := by
  have hmap : (List.range nodes.size).map (fun i => nodes[i]?) = nodes.toList.map some := by
    refine List.ext_getElem (by simp) fun i hi _ => ?_
    have hi' : i < nodes.size := by simpa using hi
    simp [hi']
  have hid : nodesAt nodes (List.range nodes.size) =
      ((List.range nodes.size).map fun i => nodes[i]?).filterMap id := by
    rw [List.filterMap_map]
    rfl
  rw [hid, hmap, List.filterMap_map]
  exact List.filterMap_some

end BoxTree
