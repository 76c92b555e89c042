import BoxTree.Proofs.Build.Endings
import BoxTree.Proofs.Build.Pairs
import BoxTree.Proofs.Growth.Threads
/-!
# Builds on more threads

How the work of a build is shared out between threads decides how its objects are ordered, which
side of the buffers they are on, and which parts are built apart. It does not decide the tree:
complete builds whose settings differ in nothing else have trees of one shape and the same counters,
and exact ones have the same tree (`Builder.build_threaded`).
-/

namespace BoxTree

namespace Builder

variable {builder builder' : Builder} {boxes : List Box} {policy policy' : Policy}
  {check check' : Check} {queue queue' : JobQueue BuildJob} {tree tree' : Tree}

/-- **Threads do not change a tree.** Over finite boxes, let two builds be complete whose settings
differ in nothing but thresholds and the number of threads. Their trees have the same kinds, depths
and leaf ranges in depth first order, and all counters but that of the chunks are equal. If the
builds are exact, their trees in depth first order agree bit for bit, and so do the orders of their
objects. -/
theorem build_threaded (ha : builder.Accepted) (ha' : builder'.Accepted)
    (hs : builder.settings.Akin builder'.settings boxes.length)
    (hfinite : ∀ b ∈ boxes, b.Finite) (hq : queue.waiting = []) (hq' : queue'.waiting = [])
    (h : (builder.build boxes policy check queue).outcome = .ok (.complete tree))
    (h' : (builder'.build boxes policy' check' queue').outcome = .ok (.complete tree')) :
    tree.shape = tree'.shape ∧
      { (builder.build boxes policy check queue).builder.stats with chunks := 0 } =
        { (builder'.build boxes policy' check' queue').builder.stats with chunks := 0 } ∧
      (builder.settings.search boxes.length = .exact →
        tree.preorder = tree'.preorder ∧ tree.order = tree'.order) := by
  obtain ⟨hn, hask⟩ := le_of_complete h
  obtain ⟨-, hask'⟩ := le_of_complete h'
  by_cases hempty : boxes = []
  · cases eq_empty_of_complete hempty h
    cases eq_empty_of_complete hempty h'
    subst hempty
    rw [build_empty hask, build_empty hask']
    exact ⟨rfl, rfl, fun _ => ⟨rfl, rfl⟩⟩
  · obtain ⟨p, t, places, hbuilt⟩ := built_of_complete ha hq hempty h
    obtain ⟨p', t', places', hbuilt'⟩ := built_of_complete ha' hq' hempty h'
    have hp := akin_of_plan hs hbuilt.plan hbuilt'.plan
    obtain ⟨hshape, hstats, -⟩ := hbuilt.twins hbuilt' hp (.refl _) hfinite hn
    refine ⟨hshape, hstats, fun hexact => ?_⟩
    have hsearch : p.search = .exact := (plan_eq hbuilt.plan).search.trans hexact
    have hroot : root p boxes = root p' boxes :=
      root_eq (fun b hb => (hfinite b hb).defined) hp.search
    have hmatch := hbuilt.grows.matches_exact hp hbuilt.usable hsearch (root_sound _)
      (hroot ▸ hbuilt'.grows)
    have hpreorder := hbuilt.grown.preorder_eq_of_matches hbuilt'.grown hmatch
    have horder : tree.preorder.order = tree'.preorder.order := by rw [hpreorder]
    exact ⟨hpreorder, horder⟩

/-- A builder like `fineExact` with two nested threads for all of its ranges. -/
def fineThreaded : Builder :=
  { settings :=
      { fineExact.settings with
        taskThreshold := 4, axisThreshold := 1, parallelBinning := 1, parallelPartition := 1,
        nestedThreads := 2 } }

theorem fineThreaded_accepted : fineThreaded.Accepted := ⟨_, rfl⟩

theorem fineExact_threaded : ∃ tree tree',
    (fineExact.build row .fifo .never {}).outcome = .ok (.complete tree) ∧
      (fineThreaded.build row .fifo .never {}).outcome = .ok (.complete tree') ∧
      fineExact.settings.search row.length = .exact ∧ tree.shape = tree'.shape ∧
      tree.preorder = tree'.preorder ∧ tree.order = tree'.order := by
  obtain ⟨tree, h⟩ := fineExact_complete
  obtain ⟨tree', h'⟩ : ∃ tree,
      (fineThreaded.build row .fifo .never {}).outcome = .ok (.complete tree) :=
    complete_of_exact fineThreaded_accepted rfl nofun (by decide) rfl rfl (fun _ => rfl)
      fun _ => rfl
  obtain ⟨hshape, -, hexact⟩ := build_threaded fineExact_accepted fineThreaded_accepted
    ⟨rfl, rfl, rfl, rfl⟩ row_finite rfl rfl h h'
  exact ⟨tree, tree', h, h', rfl, hshape, hexact rfl⟩

end Builder

end BoxTree
