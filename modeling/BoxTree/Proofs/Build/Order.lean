import BoxTree.Proofs.Build.Bounds
import BoxTree.Proofs.Build.Halting
import BoxTree.Proofs.Growth.Order
/-!
# The order of an exact build

Whatever order the jobs are run in, a task that begins to work on a region finds its three arrays
sorted along the axes and holding the same items, and so every partition fits into its halves. The
leaves of a complete tree therefore hold their objects in order along the first axis
(`Builder.build_sorted`).
-/

namespace BoxTree

open Sketch

/-- The arrays of a region hold the same items, each of them in order along its axis, when the
centroids that are not numbers are encoded in some way. -/
def Region.Sorted (nans : Item → Axis → Scalar.NaN) (r : Region) (b : Buffers) : Prop :=
  ∃ v, Plan.sortedItems b r = .ok v ∧ ∀ a, (v.get a).Perm v.x ∧ Item.Sorted nans a (v.get a)

variable {p : Plan} {back : Bool} {n : Nat} {root : Plot} {m : Machine} {sk : Sketch}
  {lost : List Site} {policy : Policy} {check : Check}

theorem Buffers.Fits.ne_released {b : Buffers} {width : Nat} (h : b.Fits width n back) :
    b ≠ .released := by
  rintro rfl
  have hsize := h.size_arrays (s := .front) nofun
  have hpos := h.pos
  change 0 = width at hsize
  omega

namespace Machine

/-- A build that has given up its buffers is to stop. -/
theorem Tracks.aborted_of_released (h : Tracks p back n root m sk lost)
    (hb : m.buffers = .released) : m.watch.aborted = true := by
  rw [← Bool.not_eq_false]
  intro hw
  exact (h.fits hw).1.ne_released hb

/-- **No task runs on buffers that were given up.** -/
theorem Tracks.idle_step (hp : p.Usable back) (hn : n ≤ limit32)
    (h : Tracks p back n root m sk lost) (policy : Policy) (check : Check)
    (hm : m.buffers = .released → m.running = none) :
    (m.step p policy check).buffers = .released → (m.step p policy check).running = none := by
  intro hb
  have hsteps := step_steps p policy check m
  generalize m.step p policy check = m' at hsteps hb ⊢
  cases hsteps with
  | rest hr hw => exact hr
  | refuse hr hj hask => rfl
  | skip hr hj hask => exact hr
  | start hr hj hask =>
    have hab := h.aborted_of_released hb
    rw [(Asking.ask_false hask).2] at hab
    cases hab
  | finish hr ht => rfl
  | balk hr ht hd => rfl
  | spoil hr ht hd hperform => rfl
  | @advance t work rest d table e w hr ht hd hperform =>
    exfalso
    -- a decision that is carried out leaves whole buffers, and any other one leaves them alone
    have hsame : e = effectOf m t → False := by
      rintro rfl
      rw [hm hb] at hr
      cases hr
    cases hw : m.watch.aborted with
    | true =>
      cases (Task.decide_of_aborted p check m.buffers t.table work hw).symm.trans hd
      cases hperform
      exact hsame rfl
    | false =>
      have hdecides := h.decides hw hr ht hn check
      rw [hd] at hdecides
      cases hdecides with
      | stopped =>
        cases hperform
        exact hsame rfl
      | done _ _ hv =>
        have hperforms := h.performs hw hr ht hp hv
        rw [hperform] at hperforms
        cases hperforms with
        | carried _ hf _ _ => exact hf.ne_released hb

theorem Tracks.idle (hp : p.Usable back) (hn : n ≤ limit32) (h : Tracks p back n root m sk lost)
    (policy : Policy) (check : Check) (hm : m.buffers ≠ .released) (k : Nat) :
    ((Machine.step p policy check)^[k] m).buffers = .released →
      ((Machine.step p policy check)^[k] m).running = none := by
  induction k with
  | zero => exact fun hb => absurd hb hm
  | succ k ih =>
    obtain ⟨sk', lost', hk, -⟩ := h.iterate hp hn policy check k
    rw [Function.iterate_succ_apply']
    exact hk.idle_step hp hn policy check ih

/-- **A task that begins to work on a region** finds its arrays in order, and can partition them by
any split. -/
theorem Tracks.sorted_next (hp : p.Usable back) (hexact : p.search = .exact)
    (h : Tracks p back n root m sk lost) (hsk : ∀ c ∈ sk.plots, Plot.Ordered p back n c.2)
    (hm : m.buffers = .released → m.running = none) {t : Task} {slot : Nat} {r : Region}
    {rest : List Work} (hr : m.running = some t) (ht : t.pending = .split slot r :: rest) :
    r.Sorted p.platform.nans m.buffers ∧
      ∀ s, ∃ out, Plan.partitionSorted m.buffers r s = .ok out := by
  obtain ⟨hf, hh⟩ := h.holds.resolve_left fun hh => by rw [hm hh.1] at hr; cases hr
  have hplot := hsk _ (h.mem_plots hr ht hh)
  have hlies : r.Lies n back := hplot.sound.lies
  have hsorted := hplot.sorted
  have hcoherent := hplot.sound.coherent rfl
  have hstock := Plan.stock_exact hexact m.buffers r
  have hwidth : p.width = 3 := by rw [Plan.width, hexact]
  change (p.stock m.buffers r).Sorted p.platform.nans at hsorted
  change (p.stock m.buffers r).Coherent at hcoherent
  rw [hstock] at hsorted hcoherent
  refine ⟨⟨_, ?_, fun a => ⟨hcoherent a, hsorted a⟩⟩, fun s => ?_⟩
  · rw [Plan.sortedItems, Plan.items_eq hf hlies (by omega), Plan.items_eq hf hlies (by omega),
      Plan.items_eq hf hlies (by omega)]
    rfl
  · obtain ⟨b', hpartition, -⟩ :=
      Plan.partitionSorted_eq (s := s) hp hf hlies hexact hstock hcoherent
    exact ⟨_, hpartition⟩

end Machine

namespace Builder

variable {builder : Builder} {boxes : List Box} {queue : JobQueue BuildJob} {tree : Tree}

/-- The root plot of an exact build is in order. -/
theorem root_ordered (p : Plan) (back : Bool) (boxes : List Box) :
    (Builder.root p boxes).Ordered p back boxes.length where
  sound := root_sound back
  sorted := by
    unfold Builder.root rootStock
    cases p.search with
    | exact =>
      intro a
      cases a <;> exact Item.sorted_sortAlong _ _ _
    | binning => trivial

/-- The objects of every leaf are in order along the first axis. -/
theorem Grown.sorted {t : Growth} {places : List Nat} (h : Grown boxes tree t places)
    {nans : Item → Axis → Scalar.NaN} (hsorted : t.Sorted nans) {node : Node} (hnode : node ∈ tree.leaves) :
    ∃ objects, tree.objects node = .ok objects ∧ objects.Pairwise fun i j =>
      ∃ b c, boxes[i]? = some b ∧ boxes[j]? = some c ∧
        Item.before nans .x ⟨b, i⟩ ⟨c, j⟩ = true := by
  obtain ⟨hmem, hleaf⟩ := List.mem_filter.1 hnode
  obtain ⟨i, hi⟩ := List.getElem?_of_mem hmem
  rw [Array.getElem?_toList] at hi
  obtain ⟨s, js, hs, hu, hs', -⟩ := h.exists_subtree hsorted (fun h => h) hi
  cases hs with
  | fork hfork =>
    cases hfork.symm.trans hi
    cases hleaf
  | @leaf _ r reason items hr =>
    cases hr.symm.trans hi
    refine ⟨_, Drawn.objects_leaf hu.proper hu.slices hu.last h.order, ?_⟩
    rw [List.pairwise_map]
    refine List.Pairwise.imp_of_mem (fun {o c} ho hc hbefore => ?_) hs'
    exact ⟨o.box, c.box, hu.items o ho, hu.items c hc, hbefore⟩

/-- **Every exact build is sorted.** At every call for a region that is to be split its three arrays
hold the same items, each of them in order along its axis, so that no partition of them fails; and
the leaves of a complete tree hold their objects in order along the first axis. A centroid that is
not a number stands where its encoding on the platform puts it. -/
theorem build_sorted (ha : builder.Accepted) (hq : queue.waiting = [])
    (hexact : builder.settings.search boxes.length = .exact) :
    (boxes.length ≤ limit32 → ∀ p m, start builder.settings boxes policy queue = .ok (p, m) →
      ∀ k t slot r rest, ((Machine.step p policy check)^[k] m).running = some t →
        t.pending = .split slot r :: rest →
          r.Sorted policy.platform.nans ((Machine.step p policy check)^[k] m).buffers ∧
          ∀ s, ∃ out,
            Plan.partitionSorted ((Machine.step p policy check)^[k] m).buffers r s = .ok out) ∧
    ∀ tree, (builder.build boxes policy check queue).outcome = .ok (.complete tree) →
      ∀ node ∈ tree.leaves, ∃ objects, tree.objects node = .ok objects ∧
        objects.Pairwise fun i j => ∃ b c, boxes[i]? = some b ∧ boxes[j]? = some c ∧
          Item.before policy.platform.nans .x ⟨b, i⟩ ⟨c, j⟩ = true := by
  refine ⟨fun hn p m hstart k t slot r rest hr ht => ?_, fun tree h node hnode => ?_⟩
  · rcases start_cases builder.settings boxes policy queue with ⟨f, -, herr⟩ | ⟨p', m', hok, hm⟩
    · cases herr.symm.trans hstart
    · cases hok.symm.trans hstart
      have hsearch : p.search = .exact := (plan_eq hm.plan).search.trans hexact
      have husable := hm.usable ha.validate
      obtain ⟨lost, htracks, -, -⟩ := hm.tracks hq
      obtain ⟨sk, lost', hk, hext⟩ := htracks.iterate husable hn policy check k
      rw [← (plan_eq hm.plan).platform]
      refine hk.sorted_next husable hsearch ?_ ?_ hr ht
      · refine hext.passed _ (Plan.passes_sorted husable) fun c hc => ?_
        cases List.mem_singleton.1 hc
        exact root_ordered p _ boxes
      · exact htracks.idle husable hn policy check hm.fits.ne_released k
  · by_cases hempty : boxes = []
    · cases eq_empty_of_complete hempty h
      cases List.mem_singleton.1 hnode
      exact ⟨[], rfl, .nil⟩
    · obtain ⟨p, t, places, hbuilt⟩ := built_of_complete ha hq hempty h
      have hsearch : p.search = .exact := (plan_eq hbuilt.plan).search.trans hexact
      rw [← (plan_eq hbuilt.plan).platform]
      exact hbuilt.grown.sorted
        (hbuilt.grows.sorted hbuilt.usable hsearch (root_ordered p _ boxes)) hnode

/-- A builder that searches every plane. -/
def fineExact : Builder := { settings := { fine.settings with strategy := .exact } }

theorem fineExact_accepted : fineExact.Accepted := ⟨_, rfl⟩

theorem fineExact_complete :
    ∃ tree, (fineExact.build row .fifo .never {}).outcome = .ok (.complete tree) :=
  complete_of_serial fineExact_accepted rfl rfl (fun _ => rfl) (by decide) fun _ => rfl

theorem fineExact_sorted : fineExact.settings.search row.length = .exact ∧
    ∃ tree, (fineExact.build row .fifo .never {}).outcome = .ok (.complete tree) ∧
      ∀ node ∈ tree.leaves, ∃ objects, tree.objects node = .ok objects ∧
        objects.Pairwise fun i j => ∃ b c, row[i]? = some b ∧ row[j]? = some c ∧
          Item.before Item.usualNaN .x ⟨b, i⟩ ⟨c, j⟩ = true := by
  obtain ⟨tree, h⟩ := fineExact_complete
  have hsorted := (build_sorted fineExact_accepted rfl rfl).2 tree h
  exact ⟨rfl, tree, h, hsorted⟩

end Builder

end BoxTree
