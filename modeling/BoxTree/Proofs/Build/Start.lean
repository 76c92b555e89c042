import BoxTree.Build.Builder
import BoxTree.Proofs.Machine.Runs
/-!
# Where a build starts

The machine of a build whose settings were accepted has a single job, and its sketch is bare: the
**root plot**, which is sound and holds the items of all boxes (`Builder.Starts.tracks`). From there
every build goes on until it is finished (`Builder.Starts.isFinished_iterate`).
-/

namespace BoxTree

open Chunk Sketch Buffers

namespace Builder

/-- The items of all boxes, in the arrays of a search. -/
def rootStock (p : Plan) (boxes : List Box) : Stock :=
  let items := Item.ofBoxes boxes
  let sorted := fun a => Item.sortAlong a items p.platform.nans
  match p.search with
  | .exact => .sorted ⟨sorted .x, sorted .y, sorted .z⟩
  | .binning => .single items

/-- The plot of a whole build. -/
def root (p : Plan) (boxes : List Box) : Plot :=
  ⟨⟨0, boxes.length, p.platform.extent boxes, 0, .front⟩, false, rootStock p boxes⟩

variable {p : Plan} {boxes : List Box} {policy : Policy} {queue : JobQueue BuildJob} {m : Machine}
  {s : Settings} {b : Builder} {check : Check}

/-- A builder whose settings were accepted when it was made. -/
def Accepted (b : Builder) : Prop := ∃ fresh, ofSettings b.settings = .ok fresh

theorem Accepted.validate (h : b.Accepted) : b.settings.validate = .ok () := by
  obtain ⟨fresh, h⟩ := h
  obtain ⟨u, hu, -⟩ := map_eq_ok_iff.1 h
  exact hu

/-- What accepted settings meet. -/
structure Meets (s : Settings) : Prop where
  leafThreshold : 0 < s.leafThreshold
  maxPerLeaf : s.leafThreshold ≤ s.maxPerLeaf
  intersectionCost : s.intersectionCost.isFinite = true ∧ 0 < s.intersectionCost
  taskThreshold : 0 < s.taskThreshold

/-- **Settings are accepted** when they meet all four conditions. -/
theorem validate_eq_ok_iff : s.validate = .ok () ↔ Meets s := by
  have hnone : s.validate = .ok () ↔ s.problem? = none := by
    unfold Settings.validate
    cases s.problem? <;> simp
  rw [hnone, Settings.problem?]
  constructor
  · intro h
    split at h
    · cases h
    · rename_i hleaf
      split at h
      · cases h
      · rename_i hmax
        split at h
        · cases h
        · rename_i hcost
          split at h
          · cases h
          · rename_i htask
            simp only [Bool.not_eq_true', Bool.not_eq_false, Bool.and_eq_true,
              decide_eq_true_iff] at hcost
            exact ⟨Nat.not_lt.1 hleaf, Nat.not_lt.1 hmax, hcost, Nat.not_lt.1 htask⟩
  · rintro ⟨hleaf, hmax, ⟨hfinite, hpos⟩, htask⟩
    rw [if_neg (Nat.not_lt.2 hleaf), if_neg (Nat.not_lt.2 hmax), if_neg (by simp [hfinite, hpos]),
      if_neg (Nat.not_lt.2 htask)]

/-- Leaves of a build with accepted settings may hold something. -/
theorem maxPerLeaf_pos (h : s.validate = .ok ()) : 0 < s.maxPerLeaf := by
  obtain ⟨hpos, hle, -, -⟩ := validate_eq_ok_iff.1 h
  exact hpos.trans_le hle

theorem length_ofBoxes (boxes : List Box) : (Item.ofBoxes boxes).length = boxes.length :=
  List.length_mapIdx

theorem map_box_ofBoxes (boxes : List Box) : (Item.ofBoxes boxes).map Item.box = boxes := by
  refine List.ext_getElem (by rw [List.length_map, length_ofBoxes]) fun i _ _ => ?_
  simp only [Item.ofBoxes, List.getElem_map, List.getElem_mapIdx]

/-- The items are numbered by their places. -/
theorem map_index_ofBoxes (boxes : List Box) :
    (Item.ofBoxes boxes).map Item.index = List.range boxes.length := by
  have hlen : ((Item.ofBoxes boxes).map Item.index).length = (List.range boxes.length).length := by
    rw [List.length_map, length_ofBoxes, List.length_range]
  refine List.ext_getElem hlen fun i _ _ => ?_
  simp only [Item.ofBoxes, List.getElem_map, List.getElem_mapIdx, List.getElem_range]

/-- An item holds the box at its place. -/
theorem getElem?_of_mem_ofBoxes {o : Item} (h : o ∈ Item.ofBoxes boxes) :
    boxes[o.index]? = some o.box := by
  obtain ⟨i, hi, rfl⟩ := List.mem_mapIdx.1 h
  exact List.getElem?_eq_getElem hi

theorem sortAlong_perm (a : Axis) (items : List Item) (nans : Item → Axis → Scalar.NaN) :
    (Item.sortAlong a items nans).Perm items :=
  List.mergeSort_perm _ _

/-- The first array of a build holds the items of all boxes. -/
theorem order_rootStock (p : Plan) (boxes : List Box) :
    (rootStock p boxes).order.Perm (Item.ofBoxes boxes) := by
  unfold rootStock
  cases p.search with
  | exact => exact sortAlong_perm .x _ _
  | binning => exact .refl _

theorem root_sound (back : Bool) :
    (root p boxes).Sound p back boxes.length where
  lies := ⟨Nat.zero_le _, Nat.le_refl _, nofun⟩
  suits := by
    unfold root rootStock
    cases p.search <;> trivial
  coherent := by
    intro _
    unfold root rootStock
    cases p.search with
    | exact =>
      intro a
      refine .trans ?_ (sortAlong_perm .x _ _).symm
      cases a <;> exact sortAlong_perm _ _ _
    | binning => trivial
  length := (order_rootStock p boxes).length_eq.trans (length_ofBoxes boxes)
  spans := by
    have hboxes := (order_rootStock p boxes).map Item.box
    rw [map_box_ofBoxes] at hboxes
    exact (p.platform.spans_extent boxes).perm hboxes.symm

/-! ## The first machine -/

/-- Arrays of one length make buffers. -/
theorem ofArrays_fits {n : Nat} (arrays : List (List Item)) (second : Bool)
    (hne : arrays ≠ []) (hlen : ∀ a ∈ arrays, a.length = n) :
    ∃ b, Buffers.ofArrays arrays second = .ok b ∧ b.Fits arrays.length n second ∧
      b.front = (arrays.map List.toArray).toArray := by
  obtain ⟨first, rest, rfl⟩ := List.exists_cons_of_ne_nil hne
  have hall : ((first :: rest).all fun a => a.length = first.length) = true := by
    rw [List.all_eq_true]
    intro a ha
    rw [decide_eq_true_iff, hlen a ha, hlen first List.mem_cons_self]
  have hsizes : ∀ a ∈ (((first :: rest).map List.toArray).toArray), a.size = n := by
    intro a ha
    obtain ⟨l, hl, rfl⟩ := List.mem_map.1 (List.mem_toArray.1 ha)
    exact hlen l hl
  refine ⟨_, if_pos hall, ⟨Nat.succ_pos _, by simp, ?_, ?_⟩, rfl⟩
  · cases second <;> simp
  · intro s a ha
    cases s with
    | front => exact hsizes a ha
    | back =>
      cases second with
      | true => exact hsizes a ha
      | false => exact absurd ha (Array.not_mem_empty a)

/-- **The first buffers** hold the items of all boxes. -/
theorem prepare_eq (p : Plan) (second : Bool) (boxes : List Box) :
    ∃ b, prepare p.search p.platform.nans second boxes = .ok b ∧
      b.Fits p.width boxes.length second ∧ p.stock b (root p boxes).region = (root p boxes).stock := by
  have hlen := length_ofBoxes boxes
  have hsorted : ∀ a, (Item.sortAlong a (Item.ofBoxes boxes) p.platform.nans).length = boxes.length :=
    fun a => (sortAlong_perm a _ _).length_eq.trans hlen
  cases hsearch : p.search with
  | exact =>
    have hall : ∀ l ∈ Axis.all.map fun a => Item.sortAlong a (Item.ofBoxes boxes) p.platform.nans,
        l.length = boxes.length := by
      intro l hl
      obtain ⟨axis, -, rfl⟩ := List.mem_map.1 hl
      exact hsorted axis
    obtain ⟨b, hb, hf, hfront⟩ := ofArrays_fits _ second (by simp [Axis.all]) hall
    have hwidth : p.width = 3 := by rw [Plan.width, hsearch]
    refine ⟨b, hb, hwidth ▸ hf, ?_⟩
    rw [Plan.stock_exact hsearch]
    simp [root, rootStock, hsearch, Buffers.part, Buffers.arrays, hfront, Axis.all, (hsorted _).le]
  | binning =>
    have hall : ∀ a ∈ [Item.ofBoxes boxes], a.length = boxes.length := by simpa using hlen
    obtain ⟨b, hb, hf, hfront⟩ := ofArrays_fits _ second (List.cons_ne_nil _ _) hall
    have hwidth : p.width = 1 := by rw [Plan.width, hsearch]
    refine ⟨b, hb, hwidth ▸ hf, ?_⟩
    rw [Plan.stock_binning hsearch]
    simp [root, rootStock, hsearch, Buffers.part, Buffers.arrays, hfront, hlen.le]

/-- What the plan of a build says. -/
structure Planned (s : Settings) (platform : Platform) (boxes : List Box) (p : Plan) : Prop where
  settings : p.settings = s
  search : p.search = s.search boxes.length
  nested : p.nested = s.wantsNested p.search boxes.length
  pieces : mulWithin limit64 (max s.nestedThreads 1) 4 = .ok p.pieces
  extent : p.extent = platform.extent boxes
  platform : p.platform = platform

theorem plan_eq {platform : Platform} (h : plan s platform boxes = .ok p) :
    Planned s platform boxes p := by
  obtain ⟨pieces, hpieces, heq⟩ := bind_eq_ok_iff.1 h
  cases heq
  exact ⟨rfl, rfl, rfl, hpieces, rfl, rfl⟩

/-- Whether there is a plan does not depend on the boxes or the platform. -/
theorem plan_error_iff {platform : Platform} {f : Fault} :
    plan s platform boxes = .error f ↔
      mulWithin limit64 (max s.nestedThreads 1) 4 = .error f := by
  unfold plan
  cases mulWithin limit64 (max s.nestedThreads 1) 4 with
  | error f' => simp
  | ok pieces => exact iff_of_false nofun nofun

/-- Accepted settings make usable plans. -/
theorem usable_of_plan {platform : Platform} (hs : s.validate = .ok ())
    (h : plan s platform boxes = .ok p) : p.Usable (needsBack p boxes.length) where
  back hexact := by rw [needsBack, hexact]
  pos := by
    rw [(plan_eq h).settings]
    exact maxPerLeaf_pos hs

/-- **A build starts with its root plot.** -/
structure Starts (s : Settings) (boxes : List Box) (policy : Policy) (queue : JobQueue BuildJob)
    (p : Plan) (m : Machine) : Prop where
  plan : plan s policy.platform boxes = .ok p
  machine : m = machine policy queue m.buffers (policy.platform.extent boxes) boxes.length
  fits : m.buffers.Fits p.width boxes.length (needsBack p boxes.length)
  stock : p.stock m.buffers (root p boxes).region = (root p boxes).stock

/-- A build does not start only where it would have too many pieces. -/
theorem start_cases (s : Settings) (boxes : List Box) (policy : Policy)
    (queue : JobQueue BuildJob) :
    (∃ f, plan s policy.platform boxes = .error f ∧ start s boxes policy queue = .error f) ∨
    ∃ p m, start s boxes policy queue = .ok (p, m) ∧ Starts s boxes policy queue p m := by
  simp only [start]
  cases hplan : plan s policy.platform boxes with
  | error f => exact .inl ⟨f, rfl, rfl⟩
  | ok p =>
    obtain ⟨b, hb, hf, hstock⟩ := prepare_eq p (needsBack p boxes.length) boxes
    refine .inr ⟨p, machine policy queue b p.extent boxes.length, ?_, ⟨hplan, ?_, hf, hstock⟩⟩
    · rw [ok_bind, hb]
      rfl
    · rw [(plan_eq hplan).extent]
      rfl

namespace Starts

variable (h : Starts s boxes policy queue p m)
include h

/-- The first job is for the region of the root plot. -/
theorem queue_eq : m.queue = queue.submit policy ⟨0, (root p boxes).region⟩ := by
  rw [h.machine, root, (plan_eq h.plan).platform]
  rfl

theorem usable (hs : s.validate = .ok ()) : p.Usable (needsBack p boxes.length) :=
  usable_of_plan hs h.plan

/-- The first job waits, unless it is not kept. -/
theorem waiting (hq : queue.waiting = []) :
    ∃ dropped, m.sites ++ dropped = [⟨⟨0, 0⟩, false, (root p boxes).region⟩] ∧
      m.queue.waiting.length + dropped.length = 1 ∧
      ((∀ k, policy.keeps k = true) → dropped = []) := by
  have hsites : m.sites = m.queue.waiting.map BuildJob.site := by
    rw [h.machine]
    exact List.append_nil _
  rw [hsites, h.queue_eq]
  by_cases hk : policy.keeps queue.submitted = true
  · refine ⟨[], ?_, ?_, fun _ => rfl⟩
    · rw [JobQueue.waiting_submit _ hk, hq]
      rfl
    · rw [JobQueue.waiting_submit _ hk, hq]
      rfl
  · refine ⟨[⟨⟨0, 0⟩, false, (root p boxes).region⟩], ?_, ?_, fun hall => absurd (hall _) hk⟩
    · rw [JobQueue.submit_of_not_keeps _ hk]
      change queue.waiting.map _ ++ _ = _
      rw [hq]
      rfl
    · rw [JobQueue.submit_of_not_keeps _ hk]
      change queue.waiting.length + _ = _
      rw [hq]
      rfl

/-- **The first machine has a bare sketch.** -/
theorem tracks (hq : queue.waiting = []) :
    ∃ lost, m.Tracks p (needsBack p boxes.length) boxes.length (root p boxes)
        (.bare ⟨0, 0⟩ (root p boxes)) lost ∧
      ((∀ k, policy.keeps k = true) → lost = []) ∧
      m.fuel ≤ Machine.enoughSteps boxes.length := by
  obtain ⟨lost, hsites, hlen, hkept⟩ := h.waiting hq
  have hmachine := h.machine
  have hrunning : m.running = none := by rw [hmachine]; rfl
  have hwaiting : m.sites = m.queue.waiting.map BuildJob.site := by
    rw [Machine.sites, hrunning]
    exact List.append_nil _
  refine ⟨lost, ⟨.of_eq hsites, rfl, ?_, ⟨rfl, rfl, Nat.zero_le _⟩, ?_, .inr ⟨h.fits, h.stock⟩, ?_,
    fun _ => by rw [hmachine]; rfl⟩, hkept, ?_⟩
  · intro t
    exact ⟨fun hb => by cases hb; assumption, .bare⟩
  · intro c hc
    cases List.mem_singleton.1 hc
    exact root_sound _
  · intro _
    -- the chunk of the first job is a blank one, whether the job waits or was dropped
    have hchunks : m.chunks lost = [blank 0] := by
      have hblank := congrArg (List.map fun site : Site => blank site.place.chunk) hsites
      rw [List.map_append, hwaiting, List.map_map] at hblank
      have hreports : m.reports = [] := by rw [hmachine]; rfl
      rw [Machine.chunks, hrunning, hreports]
      exact (congrArg _ (List.append_nil _)).trans hblank
    have htallies : m.tallies = [] := by rw [hmachine]; rfl
    have hnext : m.nextChunk = 1 := by rw [hmachine]; rfl
    rw [hchunks, htallies, hnext]
    exact ⟨.refl _, .refl _, ⟨_, List.mem_singleton_self _, rfl, rfl⟩, rfl, rfl⟩
  · have hfuel := congrArg fuelOf hsites
    rw [fuelOf_append] at hfuel
    rw [Machine.fuel_of_idle hrunning, Machine.enoughSteps]
    have hroot : fuelOf [⟨⟨0, 0⟩, false, (root p boxes).region⟩] = 6 * (boxes.length - 1) + 3 := rfl
    omega

/-- **A build is finished** after the steps it is given, whether it is stopped, fails or neither. -/
theorem isFinished_iterate (hs : s.validate = .ok ()) (hq : queue.waiting = [])
    (hn : boxes.length ≤ limit32) (check : Check) :
    ((Machine.step p policy check)^[Machine.enoughSteps boxes.length] m).isFinished = true := by
  obtain ⟨lost, htracks, -, hfuel⟩ := h.tracks hq
  obtain ⟨sk, lost', -, hext⟩ :=
    htracks.iterate (h.usable hs) hn policy check (Machine.enoughSteps boxes.length)
  rw [← Bool.not_eq_false]
  intro hnot
  -- every step so far has used up fuel, and one more can be taken
  have := hext.fuel hnot
  have := Machine.fuel_pos hnot
  omega

end Starts

end Builder

end BoxTree
