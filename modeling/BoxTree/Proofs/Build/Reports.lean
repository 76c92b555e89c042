import BoxTree.Proofs.Build.Structure
import BoxTree.Proofs.Growth.Room
import BoxTree.Proofs.Machine.Submissions
import BoxTree.Proofs.Tree.Counts
/-!
# The reports of a build

After a complete build the reports of the builder describe the tree. Its counters were summed over
tasks that never saw the nodes of another one, and the bounds it reports were taken before anything
was built; still the counters count the nodes of the tree, and the bounds are those of its root, bit
for bit (`Builder.build_reported`).
-/

namespace BoxTree

/-- A tree has one more leaf than interior nodes. -/
theorem Growth.stats_full (t : Growth) : t.stats.leaves = t.stats.interiorNodes + 1 := by
  induction t with
  | leaf r reason items => cases reason <;> rfl
  | fork r apart left right ihl ihr =>
    simp only [stats, Statistics.add_eq, Statistics.interiorTally]
    omega

namespace Builder

/-- What the reports of a builder say about a tree. -/
structure Describes (b : Builder) (t : Tree) : Prop where
  counts : b.stats.Counts t.nodes.toList
  /-- Every leaf is counted under one reason. -/
  reasons : b.stats.maxDepthLeaves + b.stats.underThresholdLeaves + b.stats.cheaperLeaves +
    b.stats.arbitraryLeaves = b.stats.leaves
  nodes : b.stats.nodes = .ok t.nodes.size
  full : b.stats.leaves = b.stats.interiorNodes + 1
  depth : b.maxLeafDepth = t.depth
  rootBounds : t.nodes[0]?.map Node.bounds = some b.rootBounds

variable {builder : Builder} {boxes : List Box} {policy : Policy} {check : Check}
  {queue : JobQueue BuildJob} {tree : Tree} {p : Plan} {t : Growth} {places : List Nat}
  {platform : Platform} {result : Builder}

/-- The nodes of a tree that has grown. -/
theorem Grown.nodes_perm (h : Grown boxes tree t places) :
    (Tree.nodesAt tree.nodes places).Perm tree.nodes.toList := by
  rw [← Tree.nodesAt_range]
  exact h.places.filterMap _

/-- **What a complete build has counted describes its tree.** -/
theorem Built.describes (h : Built builder platform boxes tree p t places result) :
    result.Describes tree := by
  obtain ⟨hregion, -, -⟩ := h.grows.proper h.usable (root_sound _)
  have hgrown := h.grown
  have hcounts := (h.drawn.counts hgrown.proper).perm hgrown.nodes_perm
  have hleaves := t.stats_leaves
  have hsize : t.nodes = tree.nodes.size := by
    rw [← h.drawn.length_places, h.places.length_eq, List.length_range]
  have hchunks := hcounts.withChunks (t.jobs + 1)
  rw [h.result]
  refine ⟨hchunks, t.stats_reasons, ?_, t.stats_full, hchunks.depth_eq.symm, ?_⟩
  · have hlimit : t.nodes ≤ limit64 := h.nodes.trans (by decide)
    change addWithin limit64 t.stats.leaves t.stats.interiorNodes = _
    rw [addWithin, if_pos (hleaves ▸ hlimit), hleaves, hsize]
  · obtain ⟨node, hnode⟩ := h.drawn.exists_root
    rw [hnode, Option.map_some, (h.drawn.root_eq hnode).1, hregion, root,
      (plan_eq h.plan).platform]

/-- What a build over no boxes reports describes the single leaf. -/
theorem buildEmpty_describes (builder : Builder) (queue : JobQueue BuildJob) :
    (builder.cleared.buildEmpty queue).builder.Describes .empty := by
  have hcounts : (Statistics.leafTally .underThreshold 0 0).Counts Tree.empty.nodes.toList :=
    .leaf (Nat.le_refl 0) .underThreshold
  exact ⟨hcounts.withChunks 1, rfl, rfl, rfl, rfl, rfl⟩

/-- **A complete build has submitted as many jobs as it counts chunks.** -/
theorem submitted_of_complete (ha : builder.Accepted) (hq : queue.waiting = [])
    (hne : boxes ≠ [])
    (h : (builder.build boxes policy check queue).outcome = .ok (.complete tree)) :
    (builder.build boxes policy check queue).queue.submitted =
      queue.submitted + (builder.build boxes policy check queue).builder.stats.chunks := by
  obtain ⟨hn, hask⟩ := le_of_complete h
  rw [build_eq hn hne hask] at h ⊢
  rcases start_cases builder.settings boxes policy queue with ⟨f, -, hstart⟩ | ⟨p, m, hstart, hm⟩
  · rw [hstart] at h
    cases h
  · rw [hstart] at h ⊢
    simp only at h ⊢
    obtain ⟨lost, htracks, -, -⟩ := hm.tracks hq
    rw [Machine.run_eq_iterate] at h ⊢
    obtain ⟨sk, lost', hlast, -⟩ := htracks.iterate (hm.usable ha.validate) hn policy check
      (Machine.enoughSteps boxes.length)
    have hcount := Machine.submitted_iterate p policy check m (Machine.enoughSteps boxes.length)
    generalize (Machine.step p policy check)^[Machine.enoughSteps boxes.length] m = m'
      at h hlast hcount ⊢
    obtain ⟨hfail, hw, stats, hok⟩ := assemble_of_conclude h
    obtain ⟨-, chunks, hall⟩ := hlast.assembled hw hok
    have hfirst : m.queue.submitted = queue.submitted + m.nextChunk := by
      rw [hm.machine]
      exact Machine.submitted_queueAfter policy queue (some _)
    rw [conclude_eq hfail hw hok, hall.stats]
    change m'.queue.submitted = queue.submitted + m'.nextChunk
    omega

/-- **The reports of a complete build describe its tree**, for any boxes, any accepted settings, any
check, any platform, and whatever order the jobs are run in. Its chunks are the jobs it has
submitted, and one where there were no boxes. -/
theorem build_reported (ha : builder.Accepted) (hq : queue.waiting = [])
    (h : (builder.build boxes policy check queue).outcome = .ok (.complete tree)) :
    let result := builder.build boxes policy check queue
    result.builder.Describes tree ∧
      (boxes ≠ [] → result.queue.submitted = queue.submitted + result.builder.stats.chunks) ∧
      (boxes = [] → result.builder.stats.chunks = 1) := by
  intro result
  by_cases hempty : boxes = []
  · obtain ⟨-, hask⟩ := le_of_complete h
    cases eq_empty_of_complete hempty h
    subst hempty
    have hresult : result = builder.cleared.buildEmpty queue := build_empty hask
    rw [hresult]
    exact ⟨buildEmpty_describes builder queue, fun hne => absurd rfl hne, fun _ => rfl⟩
  · obtain ⟨p, t, places, hbuilt⟩ := built_of_complete ha hq hempty h
    exact ⟨hbuilt.describes, fun hne => submitted_of_complete ha hq hne h,
      fun hnone => absurd hnone hempty⟩

theorem fine_reported : ∃ tree,
    let result := fine.build row .fifo .never {}
    result.outcome = .ok (.complete tree) ∧ result.builder.Describes tree ∧ row ≠ [] ∧
      result.queue.submitted =
        ({} : JobQueue BuildJob).submitted + result.builder.stats.chunks := by
  obtain ⟨tree, h⟩ := fine_complete
  obtain ⟨hdescribes, hchunks, -⟩ := build_reported fine_accepted rfl h
  exact ⟨tree, h, hdescribes, nofun, hchunks nofun⟩

end Builder

end BoxTree
