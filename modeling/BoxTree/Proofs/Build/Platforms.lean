import BoxTree.Proofs.Growth.Order
import BoxTree.Proofs.Partition.Pieces
import BoxTree.Proofs.Split.Merging
import BoxTree.Proofs.Tree.Finished
/-!
# Builds on other machines

A platform decides how pieces are put together, and where a centroid stands that is not a number.
Over boxes that are defined neither shows: a build starts from the same extent and the same arrays,
every search finds the same split, and so every step is the same (`Machine.Tracks.step_on`).
**A build ends alike on all platforms** (`Builder.build_on`), however it is scheduled and wherever it
is stopped.
-/

namespace BoxTree

variable {p : Plan} {back : Bool} {n : Nat} {m : Machine} {sk : Sketch} {lost : List Site}
  {b : Buffers} {r : Region} {work : Work}

/-- The same plan on another platform. -/
def Plan.on (p : Plan) (platform : Platform) : Plan := { p with platform }

@[simp] theorem Plan.settings_on (p : Plan) (platform : Platform) :
    (p.on platform).settings = p.settings :=
  rfl

/-- Boxes with finite corners are defined. -/
theorem Box.Finite.defined {b : Box} (h : b.Finite) : b.Defined := ⟨h.numeric, h.isNaN_centroid⟩

/-! ## Searches -/

/-- A search over boxes with numbers for coordinates finds the same on every platform. -/
theorem Plan.findSplit_on {σ : Type} (stop : Asking σ Bool) (table : Array Scalar)
    (h : ∀ items, Plan.items b r 0 = .ok items → ∀ o ∈ items, o.box.Numeric)
    (platform : Platform) :
    (p.on platform).findSplit stop b r table = p.findSplit stop b r table := by
  have hsame : (p.on platform).search = p.search := rfl
  simp only [findSplit, hsame]
  cases p.search with
  | exact => rfl
  | binning =>
    cases hitems : Plan.items b r 0 with
    | error f => rfl
    | ok items =>
      -- the way the bins are put together is all that is left of the platform
      simp only [Asking.ofFault_ok, pure_bind, Bins.find]
      rw [Bins.gather_congr (h items hitems)]
      rfl

/-- **What a task decides** over such boxes is decided on every platform. -/
theorem Task.decide_on {σ : Type} (stop : Asking σ Bool) (table : Array Scalar)
    (h : ∀ items, Plan.items b work.region 0 = .ok items → ∀ o ∈ items, o.box.Numeric)
    (platform : Platform) :
    Task.decide (p.on platform) stop b table work = Task.decide p stop b table work := by
  cases work with
  | split slot r =>
    have hfind : (p.on platform).findSplit stop b r table = p.findSplit stop b r table :=
      Plan.findSplit_on stop table h platform
    simp only [Task.decide, decideSplit, hfind]
    rfl
  | halve slot r => rfl

/-- What is decided is carried out in the same way on every platform. -/
theorem Effect.perform_on (e : Effect) (w : Work) (d : Decision) (platform : Platform) :
    e.perform (p.on platform) w d = e.perform p w d := by
  cases d with
  | divide s =>
    have hpartition : ∀ b r, (p.on platform).partition b r s = p.partition b r s := fun _ _ => rfl
    rw [perform, perform, divide, divide, hpartition, Plan.settings_on]
  | _ => rfl

/-! ## Steps -/

/-- A sound plot whose boxes have numbers for coordinates. -/
structure Plot.Numeric (p : Plan) (back : Bool) (n : Nat) (q : Plot) : Prop where
  sound : q.Sound p back n
  numeric : ∀ o ∈ q.stock.order, o.box.Numeric

theorem Plot.Numeric.passes (hp : p.Usable back) : p.Passes back (Plot.Numeric p back n) := by
  intro q m hq hm
  have hsound := Plan.move_sound hp hq.sound hm
  cases m with
  | leaf reason => trivial
  | halve stock => exact ⟨hsound.1, fun o ho => hq.numeric o (hsound.2.mem_iff.1 ho)⟩
  | fork apart left right =>
    obtain ⟨hl, hr, hforks⟩ := hsound
    exact ⟨⟨hl, fun o ho => hq.numeric o (hforks.items.mem_iff.1 (List.mem_append_left _ ho))⟩,
      ⟨hr, fun o ho => hq.numeric o (hforks.items.mem_iff.1 (List.mem_append_right _ ho))⟩⟩

namespace Machine

/-- **What a step reads**: of a policy, which job is next and which are kept; of a plan, what is
decided about the work at hand and how decisions are carried out. -/
theorem step_congr {p' : Plan} {policy policy' : Policy} {check : Check}
    (hsubmit : ∀ (q : JobQueue BuildJob) (j : BuildJob), q.submit policy j = q.submit policy' j)
    (hstart : ∀ q : JobQueue BuildJob, q.start? policy = q.start? policy')
    (hdecide : ∀ task work rest, m.running = some task → task.pending = work :: rest →
      (Task.decide p (Watch.shouldStop check) m.buffers task.table work).runFrom m.watch =
        (Task.decide p' (Watch.shouldStop check) m.buffers task.table work).runFrom m.watch)
    (hperform : ∀ (e : Effect) (w : Work) (d : Decision), e.perform p w d = e.perform p' w d) :
    m.step p policy check = m.step p' policy' check := by
  obtain ⟨buffers, watch, queue, nextChunk, reports, failure, running⟩ := m
  cases running with
  | none => simp only [step, hstart]
  | some task =>
    obtain ⟨chunk, stats, table, pending⟩ := task
    cases pending with
    | nil => rfl
    | cons work rest =>
      have hnext := hdecide _ work rest rfl rfl
      simp only [step, Machine.work, hnext, hperform, hsubmit]

/-- The platform of a policy does not matter to a step. -/
theorem step_policy_on (p : Plan) (policy : Policy) (check : Check) (platform : Platform)
    (m : Machine) : m.step p (policy.on platform) check = m.step p policy check :=
  step_congr (fun _ _ => rfl) (fun _ => rfl) (fun _ _ _ _ _ => rfl) fun _ _ _ => rfl

/-- **A step is the same on every platform** where what is left to build has numbers for
coordinates. -/
theorem Tracks.step_on {root : Plot} (h : Tracks p back n root m sk lost)
    (hsk : ∀ c ∈ sk.plots, Plot.Numeric p back n c.2) (policy : Policy) (check : Check)
    (platform : Platform) :
    m.step (p.on platform) (policy.on platform) check = m.step p policy check := by
  refine step_congr (fun _ _ => rfl) (fun _ => rfl) (fun task work rest hr ht => ?_)
    fun e w d => e.perform_on w d platform
  -- a build that is to stop decides nothing, and any other one holds the items of its plots
  cases hw : m.watch.aborted with
  | true => rw [Task.decide_of_aborted _ _ _ _ _ hw, Task.decide_of_aborted _ _ _ _ _ hw]
  | false =>
    obtain ⟨hf, hh⟩ := h.fits hw
    have hplot := hsk _ (h.mem_plots hr ht hh)
    rw [Task.decide_on _ _ _ platform]
    intro items hitems
    cases (Plan.items_eq hf hplot.sound.lies hf.pos).symm.trans hitems
    rw [← Plan.order_stock]
    exact hplot.numeric

/-- **A run is the same on every platform.** -/
theorem Tracks.iterate_on {root : Plot} (hp : p.Usable back) (hn : n ≤ limit32)
    (h : Tracks p back n root m sk lost) (hsk : ∀ c ∈ sk.plots, Plot.Numeric p back n c.2)
    (policy : Policy) (check : Check) (platform : Platform) (k : Nat) :
    (Machine.step (p.on platform) (policy.on platform) check)^[k] m =
      (Machine.step p policy check)^[k] m := by
  induction k with
  | zero => rw [Function.iterate_zero, Function.iterate_zero]
  | succ k ih =>
    obtain ⟨sk', lost', hk, hext⟩ := h.iterate hp hn policy check k
    rw [Function.iterate_succ_apply', Function.iterate_succ_apply', ih]
    exact hk.step_on (hext.passed _ (Plot.Numeric.passes hp) hsk) policy check platform

end Machine

namespace Builder

variable {s : Settings} {builder : Builder} {boxes : List Box} {queue : JobQueue BuildJob}

/-! ## Builds -/

/-- Builds over defined boxes have the same plan but for their platform. -/
theorem plan_on (h : ∀ b ∈ boxes, b.Defined) (s : Settings) (platform platform' : Platform) :
    plan s platform' boxes = (plan s platform boxes).map fun p => p.on platform' := by
  unfold plan
  rw [platform.extent_eq h, platform'.extent_eq h]
  cases mulWithin limit64 (max s.nestedThreads 1) 4 <;> rfl

/-- Defined boxes are sorted in the same way on every platform. -/
theorem sortAlong_on (h : ∀ b ∈ boxes, b.Defined) (nans nans' : Item → Axis → Scalar.NaN)
    (a : Axis) :
    Item.sortAlong a (Item.ofBoxes boxes) nans = Item.sortAlong a (Item.ofBoxes boxes) nans' := by
  refine Item.sortAlong_congr (fun o ho => ?_) nans nans'
  exact (h o.box (List.mem_of_getElem? (getElem?_of_mem_ofBoxes ho))).centroid a

theorem prepare_on (h : ∀ b ∈ boxes, b.Defined) (search : Search) (second : Bool)
    (nans nans' : Item → Axis → Scalar.NaN) :
    prepare search nans second boxes = prepare search nans' second boxes := by
  cases search with
  | exact => simp only [prepare, sortAlong_on h nans nans']
  | binning => rfl

/-- Plans with one search have the same root plot over defined boxes. -/
theorem root_eq {p p' : Plan} (h : ∀ b ∈ boxes, b.Defined) (hsearch : p.search = p'.search) :
    root p boxes = root p' boxes := by
  simp only [root, rootStock, p.platform.extent_eq h, p'.platform.extent_eq h, hsearch,
    sortAlong_on h p.platform.nans p'.platform.nans]

/-- The root plot over defined boxes has numbers for coordinates. -/
theorem root_numeric (h : ∀ b ∈ boxes, b.Defined) (p : Plan) (back : Bool) :
    (root p boxes).Numeric p back boxes.length where
  sound := root_sound back
  numeric o ho := by
    have hmem := (order_rootStock p boxes).mem_iff.1 ho
    exact (h o.box (List.mem_of_getElem? (getElem?_of_mem_ofBoxes hmem))).numeric

/-- **A build over defined boxes starts alike on all platforms.** -/
theorem start_on (h : ∀ b ∈ boxes, b.Defined) (s : Settings) (policy : Policy)
    (queue : JobQueue BuildJob) (platform : Platform) :
    start s boxes (policy.on platform) queue =
      (start s boxes policy queue).map fun begun => (begun.1.on platform, begun.2) := by
  simp only [start]
  change (plan s platform boxes >>= _) = _
  rw [plan_on h s policy.platform platform]
  cases plan s policy.platform boxes with
  | error f => rfl
  | ok p =>
    have hprepare := prepare_on h p.search (needsBack p boxes.length) p.platform.nans platform.nans
    change (prepare p.search platform.nans (needsBack p boxes.length) boxes >>= _) =
      Except.map _ (prepare p.search p.platform.nans (needsBack p boxes.length) boxes >>= _)
    rw [hprepare]
    cases prepare p.search platform.nans (needsBack p boxes.length) boxes <;> rfl

/-- **A build over defined boxes ends alike on all platforms**, with the same questions asked, the
same queue and the same reports left behind. -/
theorem build_on (ha : builder.Accepted) (hq : queue.waiting = []) (h : ∀ b ∈ boxes, b.Defined)
    (policy : Policy) (check : Check) (platform : Platform) :
    builder.build boxes (policy.on platform) check queue =
      builder.build boxes policy check queue := by
  rcases build_cases builder boxes check with ⟨left, outcome, polls, -, heq⟩ | ⟨hn, hbuild⟩
  · rw [heq, heq]
  · obtain ⟨p, buffers, -, hhere⟩ := hbuild policy.platform
    obtain ⟨p', buffers', -, hthere⟩ := hbuild platform
    obtain ⟨hstart, heq⟩ := hhere policy queue rfl
    obtain ⟨hstart', heq'⟩ := hthere (policy.on platform) queue rfl
    rw [start_on h, hstart] at hstart'
    cases hstart'
    have hm := starts_of_start hstart
    obtain ⟨lost, htracks, -, -⟩ := hm.tracks hq
    have hroot : ∀ c ∈ (Sketch.bare ⟨0, 0⟩ (root p boxes)).plots,
        Plot.Numeric p (needsBack p boxes.length) boxes.length c.2 := by
      intro c hc
      cases List.mem_singleton.1 hc
      exact root_numeric h p _
    have hrun := htracks.iterate_on (hm.usable ha.validate) hn hroot policy check platform
      (Machine.enoughSteps boxes.length)
    rw [heq, heq', Machine.run_eq_iterate, Machine.run_eq_iterate, ← hrun]
    rfl

end Builder

end BoxTree
