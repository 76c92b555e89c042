import BoxTree.Proofs.Growth.Views
import BoxTree.Proofs.Machine.Runs
/-!
# Who owns which objects

At every point of a build each range of the object buffers is owned by a waiting job, by a piece of
work of the running task, or by a leaf that is finished, and no two of them overlap. Whatever a task
reads or writes lies inside the region it works on (`Machine.Tracks.owns`), which is why no access
can fail and no finished leaf is written again (`Machine.Tracks.owned`).
-/

namespace BoxTree

open Sketch Buffers

/-- A failure of an access: there is no such array, no such range in it, or an assertion does not
hold. -/
def Failure.IsAccess : Failure → Prop
  | .fault (.indexOutOfRange ..) | .fault (.rangeOutOfRange ..) | .fault (.assertion _) => True
  | .fault (.overflow _) | .fault (.check _) | .error _ => False

/-! ## Ranges -/

/-- The range of a region. -/
def Region.range (r : Region) : Nat × Nat := (r.first, r.last)

/-- Regions that do not overlap. -/
def Region.Apart (r s : Region) : Prop := r.last ≤ s.first ∨ s.last ≤ r.first

/-- The regions of the parts of a sketch, from left to right. -/
def Sketch.regions : Sketch → List Region
  | bare _ q => [q.region]
  | leaf _ r _ _ => [r]
  | fork _ _ _ left right => left.regions ++ right.regions

variable {sk : Sketch} {first last n k : Nat} {p : Plan} {b : Buffers} {back : Bool}

/-- **The parts of a sketch tile what it covers.** -/
theorem Sketch.Covers.tiles (h : sk.Covers first last) :
    Tiles first last (sk.regions.map Region.range) := by
  induction sk generalizing first last with
  | bare a q => exact ⟨h.1, h.1.le.trans (h.2.2.trans h.2.1.ge), h.2.1⟩
  | leaf a r reason items => exact ⟨h.1, h.1.le.trans (h.2.2.trans h.2.1.ge), h.2.1⟩
  | fork a r apart left right ihl ihr =>
    obtain ⟨mid, hl, hr⟩ := h
    rw [Sketch.regions, List.map_append]
    exact (ihl hl).append (ihr hr)

/-- No two ranges of a tiling overlap. -/
theorem Tiles.pairwise {ranges : List (Nat × Nat)} (h : Tiles first last ranges) :
    ranges.Pairwise fun x y => x.2 ≤ y.1 := by
  -- whatever follows begins at or behind the first place that is left
  have hbehind : ∀ {first : Nat} {ranges : List (Nat × Nat)}, Tiles first last ranges →
      ∀ range ∈ ranges, first ≤ range.1 := by
    intro first ranges h
    induction ranges generalizing first with
    | nil => exact fun _ hmem => by cases hmem
    | cons range rest ih =>
      rw [List.forall_mem_cons]
      exact ⟨h.1.ge, fun range' hmem => h.1 ▸ h.2.1.trans (ih h.2.2 range' hmem)⟩
  induction ranges generalizing first with
  | nil => exact .nil
  | cons range rest ih => exact .cons (hbehind h.2.2) (ih h.2.2)

theorem Sketch.regions_perm (sk : Sketch) :
    sk.regions.Perm (sk.sites.map Site.region ++ sk.leaves.map Prod.fst) := by
  induction sk with
  | bare a q => exact .refl _
  | leaf a r reason items => exact .refl _
  | fork a r apart left right ihl ihr =>
    refine (ihl.append ihr).trans ?_
    simp only [Sketch.sites, Sketch.plots, Sketch.leaves, List.map_append]
    rw [← Multiset.coe_eq_coe]
    simp only [← Multiset.coe_add]
    abel

/-! ## Working on a region -/

namespace Machine

/-- The regions a build has still to work on. -/
def regions (m : Machine) : List Region :=
  m.queue.waiting.map BuildJob.region ++
    m.running.toList.flatMap fun t => t.pending.map Work.region

/-- How a task decides about a piece of work. -/
def deciding (p : Plan) (check : Check) (m : Machine) (t : Task) (w : Work) :
    Except Failure (Decision × Array Scalar) × Watch :=
  (Task.decide p (Watch.shouldStop check) m.buffers t.table w).runFrom m.watch

/-- What a task decides about a piece of work and carries out. -/
def worked (p : Plan) (check : Check) (m : Machine) (t : Task) (w : Work) : Except Failure Effect :=
  (m.deciding p check t w).1 >>= fun d => Effect.perform p (effectOf m t) w d.1

/-- The views of the buffers a task takes for a piece of work. One that is to stop takes none. -/
def viewed (p : Plan) (check : Check) (m : Machine) (t : Task) (w : Work) : List View :=
  if m.watch.aborted then []
  else
    w.searched p ++
      match (m.deciding p check t w).1 with
      | .ok d => d.1.views p m.buffers.hasBack w.region
      | .error _ => []

/-- What is right about a task that works on a region it owns. -/
structure Owns (p : Plan) (check : Check) (back : Bool) (n : Nat) (m : Machine) (t : Task)
    (w : Work) : Prop where
  /-- Every view lies inside the region, on arrays that are there, and can be taken. -/
  views : ∀ v ∈ m.viewed p check t w, v.Within w.region m.buffers.front.size m.buffers.hasBack ∧
    ∃ items, v.items m.buffers = .ok items
  /-- Nothing is read but through the views. -/
  reads : ∀ b : Buffers, b.Fits p.width n back →
    (∀ v ∈ m.viewed p check t w, v.items b = v.items m.buffers) →
    ({ m with buffers := b } : Machine).deciding p check t w = m.deciding p check t w ∧
      (({ m with buffers := b } : Machine).worked p check t w).map (·.on .released) =
        (m.worked p check t w).map (·.on .released)
  /-- Nothing is written outside the region. -/
  writes : ∀ e, m.worked p check t w = .ok e →
    Keeps w.region.first w.region.last m.buffers e.buffers
  /-- No access fails. -/
  faults : ∀ f, m.worked p check t w = .error f → ¬ f.IsAccess

/-- What is right about the ranges of a build some of whose regions have been made leaves. -/
structure Owned (p : Plan) (policy : Policy) (check : Check) (back : Bool) (n : Nat)
    (made : List Region) (m : Machine) : Prop where
  /-- No two of them overlap. -/
  apart : (m.regions ++ made).Pairwise Region.Apart
  /-- They tile the objects of a build that is not to stop and loses no job. -/
  tiles : (∀ k, policy.keeps k = true) → m.watch.aborted = false →
    ∃ regions : List Region, regions.Perm (m.regions ++ made) ∧ Tiles 0 n (regions.map Region.range)
  owns : ∀ t w rest, m.running = some t → t.pending = w :: rest → m.Owns p check back n t w
  /-- The order of the objects can be read as a whole. -/
  whole : m.watch.aborted = false → ∃ items, m.buffers.view .front 0 0 n = .ok items
  /-- Finished leaves stay as they are, until the buffers of a failed build are released. -/
  settled : ∀ r ∈ made, ∃ items, ∀ j,
    let later := (Machine.step p policy check)^[j] m
    later.buffers = .released ∨ later.buffers.part .front 0 r.first r.last = items

variable {root : Plot} {m : Machine} {lost : List Site} {task : Task} {work : Work}
  {rest : List Work} {policy : Policy} {check : Check} {made : List Region}

/-- A task that is to stop does nothing. -/
theorem owns_of_aborted (hw : m.watch.aborted = true) : m.Owns p check back n task work := by
  have hdeciding : ∀ b : Buffers, ({ m with buffers := b } : Machine).deciding p check task work =
      (.ok (.stop, task.table), m.watch) :=
    fun b => Task.decide_of_aborted p check b task.table work hw
  have hworked : ∀ b : Buffers, ({ m with buffers := b } : Machine).worked p check task work =
      .ok ((effectOf m task).on b) := by
    intro b
    rw [worked, hdeciding]
    rfl
  refine ⟨?_, fun b _ _ => ⟨(hdeciding b).trans (hdeciding m.buffers).symm, ?_⟩, ?_, ?_⟩
  · rw [viewed, if_pos hw]
    exact fun _ hv => by cases hv
  · rw [hworked b]
    have hnow := hworked m.buffers
    change m.worked p check task work = _ at hnow
    rw [hnow]
    rfl
  · intro e he
    cases (hworked m.buffers).symm.trans he
    exact .refl _ _ _
  · intro f hf
    cases (hworked m.buffers).symm.trans hf

section Owns

variable (h : Tracks p back n root m sk lost) (hw : m.watch.aborted = false)
  (hr : m.running = some task) (ht : task.pending = work :: rest)
include h hw hr ht

/-- The views of a task lie inside the region it works on. -/
theorem Tracks.viewed_within (hp : p.Usable back) :
    ∀ v ∈ m.viewed p check task work, v.Within work.region p.width back := by
  have hlies : work.region.Lies n back := (h.sound_next hw hr ht).lies
  intro v hv
  rw [viewed, if_neg (by rw [hw]; exact Bool.false_ne_true)] at hv
  rcases List.mem_append.1 hv with hv | hv
  · exact Work.searched_within hlies hv
  · split at hv
    · rw [(h.fits hw).1.hasBack_eq] at hv
      exact Decision.views_within hp hlies hv
    · cases hv

variable (hn : n ≤ limit32)
include hn

/-- What is decided is the verdict about the plot that is next, or to stop. -/
theorem Tracks.verdict_of_deciding {d : Decision} {table : Array Scalar} {w : Watch}
    (hd : m.deciding p check task work = (.ok (d, table), w)) :
    d = .stop ∨ p.verdict (p.plot m.buffers work.halved work.region) = .ok d := by
  have hdecides := h.decides hw hr ht hn check
  change Decides check _ m.watch (m.deciding p check task work) at hdecides
  rw [hd] at hdecides
  cases hdecides with
  | stopped => exact .inl rfl
  | done _ _ hv => exact .inr hv

/-- **Only its views matter to a task.** -/
theorem Tracks.worked_congr (hp : p.Usable back) {b : Buffers} (hf : b.Fits p.width n back)
    (hsame : ∀ v ∈ m.viewed p check task work, v.items b = v.items m.buffers) :
    ({ m with buffers := b } : Machine).deciding p check task work =
        m.deciding p check task work ∧
      (({ m with buffers := b } : Machine).worked p check task work).map (·.on .released) =
        (m.worked p check task work).map (·.on .released) := by
  rw [viewed, if_neg (by rw [hw]; exact Bool.false_ne_true)] at hsame
  have hdeciding : ({ m with buffers := b } : Machine).deciding p check task work =
      m.deciding p check task work := by
    have hcongr := Task.decide_congr (Watch.shouldStop check) task.table fun v hv =>
      hsame v (List.mem_append_left _ hv)
    exact congrArg (fun decide => Asking.runFrom decide m.watch) hcongr
  refine ⟨hdeciding, ?_⟩
  rw [worked, worked, hdeciding]
  rcases hd : m.deciding p check task work with ⟨f | ⟨d, table⟩, w⟩
  · rfl
  · rw [hd] at hsame
    rcases h.verdict_of_deciding hw hr ht hn hd with rfl | hv
    · rfl
    · obtain ⟨hfits, -⟩ := h.fits hw
      refine Effect.perform_congr (e := effectOf m task) hp hfits hf (h.sound_next hw hr ht) hv ?_
      intro v hmem
      rw [← hfits.hasBack_eq] at hmem
      exact hsame v (List.mem_append_right _ hmem)

/-- What a task changes lies inside the region it works on. -/
theorem Tracks.keeps_worked (hp : p.Usable back) {e : Effect}
    (he : m.worked p check task work = .ok e) :
    Keeps work.region.first work.region.last m.buffers e.buffers := by
  obtain ⟨⟨d, table⟩, hd, hperform⟩ := bind_eq_ok_iff.1 he
  rcases h.verdict_of_deciding hw hr ht hn (Prod.ext hd rfl) with rfl | hv
  · cases hperform
    exact .refl _ _ _
  · have hperforms := h.performs hw hr ht hp hv
    simp only at hperform
    rw [hperform] at hperforms
    cases hperforms with
    | carried _ _ hk => exact hk

/-- **No access of a task fails.** -/
theorem Tracks.not_isAccess (hp : p.Usable back) {f : Failure}
    (hfail : m.worked p check task work = .error f) : ¬ f.IsAccess := by
  rcases bind_eq_error hfail with hd | ⟨⟨d, table⟩, hd, hperform⟩
  · have hdecides := h.decides hw hr ht hn check
    change Decides check _ m.watch (m.deciding p check task work) at hdecides
    generalize m.deciding p check task work = decided at hdecides hd
    cases hdecides with
    | failed =>
      cases hd
      exact id
    | broke hv =>
      cases hd
      obtain ⟨operation, rfl⟩ := Plan.verdict_error hv
      exact id
    | stopped => cases hd
    | done => cases hd
  · rcases h.verdict_of_deciding hw hr ht hn (Prod.ext hd rfl) with rfl | hv
    · cases hperform
    · have hperforms := h.performs hw hr ht hp hv
      simp only at hperform
      rw [hperform] at hperforms
      cases hperforms with
      | full => exact id
      | uncounted => exact id
      | broke hm =>
        obtain ⟨operation, rfl⟩ := Plan.move_error hm
        exact id

/-- **A task owns the region it works on.** -/
theorem Tracks.owns (hp : p.Usable back) : m.Owns p check back n task work where
  views v hv := by
    obtain ⟨hf, -⟩ := h.fits hw
    have hwithin := h.viewed_within hw hr ht hp v hv
    rw [hf.front, hf.hasBack_eq]
    exact ⟨hwithin, _, hwithin.items_eq hf (h.sound_next hw hr ht).lies.last_le⟩
  reads _ hf hsame := h.worked_congr hw hr ht hn hp hf hsame
  writes _ he := h.keeps_worked hw hr ht hn hp he
  faults _ hfail := h.not_isAccess hw hr ht hn hp hfail

end Owns

theorem map_region_sites (m : Machine) : m.sites.map Site.region = m.regions := by
  simp only [sites, regions, List.map_append, List.map_map, List.map_flatMap, Task.sites]
  rfl

/-- **A build with a sketch is owned**, its leaves by the sketch. -/
theorem Tracks.owned (hp : p.Usable back) (hn : n ≤ limit32) (h : Tracks p back n root m sk lost)
    (policy : Policy) (check : Check) (hmade : (sk.leaves.map Prod.fst).Perm made)
    (hlost : (∀ k, policy.keeps k = true) → m.watch.aborted = false → lost = []) :
    m.Owned p policy check back n made := by
  have hregions : (m.regions ++ made ++ lost.map Site.region).Perm sk.regions := by
    have hsites := h.sites.map Site.region
    rw [List.map_append, map_region_sites] at hsites
    refine .trans ?_ ((hsites.append hmade.symm).trans sk.regions_perm.symm)
    rw [List.append_assoc, List.append_assoc]
    exact List.perm_append_comm.append_left _
  have htiles := h.covers.tiles
  refine ⟨?_, ?_, ?_, ?_, ?_⟩
  · have hpairwise := htiles.pairwise
    rw [List.pairwise_map] at hpairwise
    have hapart : sk.regions.Pairwise Region.Apart := hpairwise.imp fun hle => .inl hle
    have hall := (hregions.pairwise_iff fun hapart => hapart.symm).2 hapart
    exact (List.pairwise_append.1 hall).1
  -- jobs that are lost leave gaps in the tiling of the sketch, so there must be none
  · intro hkeeps hw
    rw [hlost hkeeps hw, List.map_nil, List.append_nil] at hregions
    exact ⟨sk.regions, hregions.symm, htiles⟩
  · intro task work rest hr ht
    by_cases hw : m.watch.aborted = true
    · exact owns_of_aborted hw
    · exact h.owns ((Bool.not_eq_true _).mp hw) hr ht hn hp
  · intro hw
    obtain ⟨hf, -⟩ := h.fits hw
    exact ⟨_, hf.view_eq (s := .front) nofun hf.pos (Nat.zero_le _) (Nat.le_refl _)⟩
  · intro r hr
    obtain ⟨⟨r, items⟩, hleaf, rfl⟩ := List.mem_map.1 (hmade.mem_iff.2 hr)
    refine ⟨items, fun j => ?_⟩
    -- later sketches still have the leaf, with the same items
    obtain ⟨sk', lost', hlater, hext⟩ := h.iterate hp hn policy check j
    obtain ⟨new, hleaves, -⟩ := hext.leaves
    rcases hlater.holds with ⟨hreleased, -⟩ | ⟨-, hholds⟩
    · exact .inl hreleased
    · exact .inr (hholds.leaf (hleaves.mem_iff.2 (List.mem_append_right _ hleaf)))

end Machine

end BoxTree
