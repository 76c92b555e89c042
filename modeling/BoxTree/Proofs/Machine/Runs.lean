import BoxTree.Proofs.Machine.Fuel
/-!
# Every step, every run

What the kinds of steps keep is put together: from a build with a sketch every step leads to a build
with a sketch (`Machine.Tracks.step`), and `Machine.Extends` says how the two are related. Both hold
of a whole run by induction.
-/

namespace BoxTree

open Chunk Sketch Buffers Asking

/-- The regions that a number of steps make leaves of, the last one first. -/
def Machine.leavesMade (p : Plan) (policy : Policy) (check : Check) : Nat → Machine → List Region
  | 0, _ => []
  | k + 1, m => leavesMade p policy check k (m.step p policy check) ++ (m.leafMade p check).toList

/-- How a number of steps change a build and its sketch, which make leaves of regions. -/
structure Machine.Extends (p : Plan) (back : Bool) (policy : Policy) (check : Check) (root : Plot)
    (k : Nat) (made : List Region) (m m' : Machine) (sk sk' : Sketch) (lost lost' : List Site) :
    Prop where
  leaves : ∃ leaves, sk'.leaves.Perm (leaves ++ sk.leaves) ∧ leaves.map Prod.fst = made
  /-- Every plot has come from an earlier one by moves. -/
  passed : ∀ Q, p.Passes back Q → (∀ c ∈ sk.plots, Q c.2) → ∀ c ∈ sk'.plots, Q c.2
  aborted : m.watch.aborted = true → m'.watch.aborted = true
  /-- A build is stopped by its check or for want of room. -/
  stopped : m.watch.aborted = false → m'.watch.aborted = true →
    (∃ k, check k ≠ .proceed) ∨ ¬ Roomy p back root
  kept : (∀ k, policy.keeps k = true) → m'.watch.aborted = false → lost' = lost
  rests : m.isFinished = true → m'.isFinished = true
  fuel : m'.isFinished = false → m'.fuel + k ≤ m.fuel

variable {p : Plan} {back : Bool} {n : Nat} {root : Plot} {m m' m'' : Machine}
  {sk sk' sk'' : Sketch} {lost lost' lost'' : List Site} {policy : Policy} {check : Check}

/-- What a decision makes a leaf of is a leaf of the sketch. -/
theorem Plan.leaves_of_act {a l r : Address} {q : Plot} {d : Decision} {mv : Move}
    (h : p.act back q d = .ok mv) :
    (mv.sketch a l r q).leaves.map Prod.fst = (d.leafOf q.region).toList := by
  cases d with
  | stop =>
    cases h
    rfl
  | leaf reason =>
    cases h
    rfl
  | giveUp =>
    cases h
    rfl
  | cut =>
    cases h
    rfl
  | divide s =>
    obtain ⟨⟨stock, halves⟩, -, rfl⟩ := map_eq_ok_iff.1 h
    simp only [Plan.divided]
    split <;> rfl

/-- The plots of a sketch keep what the move of one of them passes on. -/
theorem Sketch.Grafts.passes {a b l r : Address} {q : Plot} {mv : Move} {Q : Plot → Prop}
    (h : Grafts a q (mv.sketch b l r q) sk sk') (hm : p.move back q = .ok mv) (hQ : p.Passes back Q)
    (hsk : ∀ c ∈ sk.plots, Q c.2) : ∀ c ∈ sk'.plots, Q c.2 := by
  obtain ⟨others, hold, hgraft⟩ := h.plots_perm
  have hleaves := hQ q mv (hsk _ h.mem_plots) hm
  intro c hc
  rcases List.mem_append.1 (hgraft.mem_iff.1 hc) with hc | hc
  · cases mv with
    | leaf reason => cases hc
    | halve stock =>
      cases List.mem_singleton.1 hc
      exact hleaves
    | fork apart left right =>
      rcases List.mem_append.1 hc with hc | hc
      · cases List.mem_singleton.1 hc
        exact hleaves.1
      · cases List.mem_singleton.1 hc
        exact hleaves.2
  · exact hsk c (hold.mem_iff.2 (List.mem_cons_of_mem _ hc))

namespace Machine

/-- A finished build has nothing left to do. -/
theorem fuel_of_isFinished (h : m.isFinished = true) : m.fuel = 0 := by
  rw [isFinished, Bool.and_eq_true, Option.isNone_iff_eq_none, List.isEmpty_iff] at h
  rw [fuel, sites, h.1, h.2]
  rfl

/-- A build that is not finished has steps left. -/
theorem fuel_pos (h : m.isFinished = false) : 0 < m.fuel := by
  rw [isFinished, Bool.and_eq_false_iff] at h
  rw [fuel]
  rcases h with hr | hw
  · cases hrunning : m.running with
    | none =>
      rw [hrunning] at hr
      cases hr
    | some task =>
      rw [Option.toList_some, List.length_singleton]
      omega
  · have := List.length_pos_iff.2 (List.isEmpty_eq_false_iff.1 hw)
    omega

namespace Extends

theorem refl (p : Plan) (back : Bool) (policy : Policy) (check : Check) (root : Plot) (m : Machine)
    (sk : Sketch) (lost : List Site) :
    Extends p back policy check root 0 [] m m sk sk lost lost where
  leaves := ⟨[], .refl _, rfl⟩
  passed _ _ := id
  aborted := id
  stopped hnot hab := by
    rw [hnot] at hab
    cases hab
  kept _ _ := rfl
  rests := id
  fuel _ := Nat.le_refl _

theorem trans {k k' : Nat} {made made' : List Region}
    (h : Extends p back policy check root k made m m' sk sk' lost lost')
    (h' : Extends p back policy check root k' made' m' m'' sk' sk'' lost' lost'') :
    Extends p back policy check root (k' + k) (made' ++ made) m m'' sk sk'' lost lost'' where
  leaves := by
    obtain ⟨first, hfirst, rfl⟩ := h.leaves
    obtain ⟨second, hsecond, rfl⟩ := h'.leaves
    refine ⟨second ++ first, hsecond.trans ?_, List.map_append⟩
    rw [List.append_assoc]
    exact hfirst.append_left second
  passed Q hQ hsk := h'.passed Q hQ (h.passed Q hQ hsk)
  aborted hab := h'.aborted (h.aborted hab)
  stopped hnot hab := by
    cases hmid : m'.watch.aborted with
    | true => exact h.stopped hnot hmid
    | false => exact h'.stopped hmid hab
  kept hall hnot := by
    have hmid : m'.watch.aborted = false := by
      rw [← Bool.not_eq_true]
      intro hab
      rw [h'.aborted hab] at hnot
      cases hnot
    rw [h'.kept hall hnot, h.kept hall hmid]
  rests hfin := h'.rests (h.rests hfin)
  fuel hnot := by
    have hmid : m'.isFinished = false := by
      rw [← Bool.not_eq_true]
      intro hfin
      rw [h'.rests hfin] at hnot
      cases hnot
    have := h'.fuel hnot
    have := h.fuel hmid
    omega

end Extends

/-- A build that has used up fuel was not finished. -/
theorem rests_of_fuel_lt (h : m'.fuel < m.fuel) (hfin : m.isFinished = true) :
    m'.isFinished = true := by
  rw [fuel_of_isFinished hfin] at h
  exact absurd h (Nat.not_lt_zero _)

/-- A step that makes no leaf, drops nothing, and stops nothing. -/
theorem Extends.quiet (hmade : m.leafMade p check = none)
    (hab : m'.watch.aborted = m.watch.aborted) (hrests : m.isFinished = true → m'.isFinished = true)
    (hfuel : m'.isFinished = false → m'.fuel < m.fuel) :
    Extends p back policy check root 1 (m.leafMade p check).toList m m' sk sk lost lost where
  leaves := ⟨[], .refl _, by rw [hmade]; rfl⟩
  passed _ _ := id
  aborted h := hab.trans h
  stopped hnot h := by
    rw [hab, hnot] at h
    cases h
  kept _ _ := rfl
  rests := hrests
  fuel := hfuel

/-- Builds with the same sketch have the same fuel at their sites. -/
theorem Tracks.fuelOf_sites (h : Tracks p back n root m sk lost)
    (h' : Tracks p back n root m' sk lost) : fuelOf m'.sites = fuelOf m.sites :=
  fuelOf_perm ((List.perm_append_right_iff lost).1 (h'.sites.trans h.sites.symm))

/-- A build that is stopped by a step drops one of its sites, or all of a task. -/
theorem Tracks.stop_step {dropped : List Site} (h : Tracks p back n root m sk lost)
    (hsites : m.sites.Perm (m'.sites ++ dropped)) (hab : m'.watch.aborted = true)
    (hbuffers : m'.buffers = .released ∨ m'.buffers = m.buffers)
    (hmade : m.leafMade p check = none)
    (hwhy : m.watch.aborted = false → (∃ k, check k ≠ .proceed) ∨ ¬ Roomy p back root)
    (hfuel : m'.fuel < m.fuel) :
    ∃ sk' lost', Tracks p back n root m' sk' lost' ∧
      Extends p back policy check root 1 (m.leafMade p check).toList m m' sk sk' lost lost' := by
  refine ⟨sk, dropped ++ lost, h.stop ?_ hab hbuffers, ⟨[], .refl _, ?_⟩, fun _ _ => id,
    fun _ => hab, fun hw _ => hwhy hw, fun _ hw => ?_, rests_of_fuel_lt hfuel, fun _ => hfuel⟩
  · rw [← List.append_assoc]
    exact hsites.symm.append_right lost
  · rw [hmade]
    rfl
  · rw [hab] at hw
    cases hw

variable {task : Task} {work : Work} {rest : List Work}

/-- The sites of a build whose task has work left. -/
theorem sites_of_pending (hr : m.running = some task) (ht : task.pending = work :: rest) :
    m.sites = m.queue.waiting.map BuildJob.site ++
      (work.site task.chunk.id :: rest.map (Work.site task.chunk.id)) := by
  rw [sites, hr, Option.toList_some, List.flatMap_singleton, Task.sites, ht, List.map_cons]

/-- The sites of a build after a piece of work. -/
theorem sites_advanced (policy : Policy) (m : Machine) (w : Watch) (e : Effect)
    (table : Array Scalar) (rest : List Work) :
    (m.advanced policy w e table rest).sites =
      (queueAfter policy m.queue e.job).waiting.map BuildJob.site ++
        (e.work ++ rest).map (Work.site e.chunk.id) := by
  simp only [sites, advanced, Option.toList_some, List.flatMap_singleton, Task.sites]

theorem fuel_of_running (hr : m.running = some task) :
    m.fuel = fuelOf m.sites + 2 * m.queue.waiting.length + 1 := by
  rw [fuel, hr]
  rfl

theorem fuel_of_idle (hr : m.running = none) :
    m.fuel = fuelOf m.sites + 2 * m.queue.waiting.length := by
  rw [fuel, hr]
  rfl

/-- Dropping work of the running task uses up fuel. -/
theorem fuel_drop (hr : m.running = some task) (hq : m'.queue.waiting = m.queue.waiting)
    {dropped : List Site} (hsites : m.sites.Perm (m'.sites ++ dropped))
    (hless : fuelOf dropped + 1 > m'.running.toList.length) : m'.fuel < m.fuel := by
  have hsum := fuelOf_perm hsites
  rw [fuelOf_append] at hsum
  rw [fuel_of_running hr, fuel, hq]
  omega

/-- Taking a job off the queue and dropping it uses up fuel. -/
theorem fuel_refuse (m' : Machine) {j : BuildJob} {queue : JobQueue BuildJob}
    (hr : m.running = none)
    (hj : m.queue.start? policy = some (j, queue)) (hr' : m'.running = none)
    (hq : m'.queue.waiting = queue.waiting) :
    m.sites.Perm (m'.sites ++ [j.site]) ∧ m'.fuel < m.fuel := by
  have hwaiting := JobQueue.perm_of_start? hj
  have hsites : m.sites.Perm (m'.sites ++ [j.site]) := by
    simp only [sites, hr, hr', hq, Option.toList_none, List.flatMap_nil, List.append_nil]
    exact (hwaiting.map _).trans (List.perm_append_singleton _ _).symm
  refine ⟨hsites, ?_⟩
  have hsum := fuelOf_perm hsites
  have hlen := hwaiting.length_eq
  rw [fuelOf_append] at hsum
  rw [List.length_cons] at hlen
  rw [fuel_of_idle hr, fuel_of_idle hr', hq]
  omega

/-! ## Work -/

section Work

variable (h : Tracks p back n root m sk lost) (hw : m.watch.aborted = false)
  (hr : m.running = some task) (ht : task.pending = work :: rest)
include h hw

/-- The buffers of a build that is not to stop are whole. -/
theorem Tracks.fits : m.buffers.Fits p.width n back ∧ sk.Holds p m.buffers :=
  h.holds.resolve_left fun hh => by rw [hw] at hh; cases hh.2

include hr ht

/-- The plot that is next is sound. -/
theorem Tracks.sound_next : (p.plot m.buffers work.halved work.region).Sound p back n :=
  h.sound _ (h.mem_plots hr ht (h.fits hw).2)

/-- **What is decided** about the plot that is next is its verdict. -/
theorem Tracks.decides (hn : n ≤ limit32) (check : Check) :
    Decides check (p.verdict (p.plot m.buffers work.halved work.region)) m.watch
      ((Task.decide p (Watch.shouldStop check) m.buffers task.table work).runFrom m.watch) :=
  Task.decide_decides (h.fits hw).1 (h.sound_next hw hr ht).lies hn task.table m.watch

/-- **What is decided is carried out**, or fails for want of room. -/
theorem Tracks.performs (hp : p.Usable back) {d : Decision}
    (hv : p.verdict (p.plot m.buffers work.halved work.region) = .ok d) :
    Performs p back n (effectOf m task) work.slot (p.plot m.buffers work.halved work.region)
      (Effect.perform p (effectOf m task) work d) := by
  have hledger := h.ledger hw
  simp only [chunks, tallies, hr, Option.toList_some, List.map_singleton,
    List.singleton_append] at hledger
  have hslot := hledger.slot_eq (h.mem_plots hr ht (h.fits hw).2)
  exact Effect.perform_performs hp (e := effectOf m task) (h.fits hw).1 hslot rfl rfl
    (h.sound_next hw hr ht) hv

/-- Where the plot that is next has no verdict, there is no room for the tree. -/
theorem Tracks.not_roomy_of_verdict {f : Fault}
    (hv : p.verdict (p.plot m.buffers work.halved work.region) = .error f) :
    ¬ Roomy p back root := by
  intro hroom
  obtain ⟨mv, hm, -⟩ := h.room hroom hw hr ht
  rw [Plan.move, hv] at hm
  cases hm

/-- Where a verdict cannot be carried out, there is no room for the tree. -/
theorem Tracks.not_roomy_of_perform (hp : p.Usable back) {d : Decision} {f : Failure}
    (hv : p.verdict (p.plot m.buffers work.halved work.region) = .ok d)
    (hperform : Effect.perform p (effectOf m task) work d = .error f) : ¬ Roomy p back root := by
  intro hroom
  obtain ⟨mv, hm, hslots, hcounters⟩ := h.room hroom hw hr ht
  have hperforms := h.performs hw hr ht hp hv
  rw [hperform] at hperforms
  cases hperforms with
  | full hm' hfull =>
    cases hm.symm.trans hm'
    exact Nat.not_le_of_lt hfull hslots
  | uncounted hm' hover =>
    cases hm.symm.trans hm'
    exact hover hcounters
  | broke hm' => cases hm.symm.trans hm'

/-- **Carrying out a verdict** grafts what comes of its plot onto the sketch. -/
theorem Tracks.advance_step (hp : p.Usable back) {d : Decision} {table : Array Scalar} {e : Effect}
    {w : Watch} (hw' : w.aborted = false)
    (hv : p.verdict (p.plot m.buffers work.halved work.region) = .ok d)
    (hperform : Effect.perform p (effectOf m task) work d = .ok e)
    (hmade : m.leafMade p check = d.leafOf work.region) :
    ∃ sk' lost', Tracks p back n root (m.advanced policy w e table rest) sk' lost' ∧
      Extends p back policy check root 1 (m.leafMade p check).toList m
        (m.advanced policy w e table rest) sk sk' lost lost' := by
  have hperforms := h.performs hw hr ht hp hv
  rw [hperform] at hperforms
  obtain ⟨sk', mv, l, r, dropped, hm, hnext, hg, hjobs, hkept⟩ :=
    h.advance policy w table hp hr ht hw hperforms
  have hact : p.act back (p.plot m.buffers work.halved work.region) d = .ok mv := by
    rw [Plan.move, hv] at hm
    exact hm
  have hfuel : (m.advanced policy w e table rest).fuel < m.fuel := by
    have hless := Move.fuel_lt (a := ⟨task.chunk.id, work.slot⟩) (l := l) (r := r) hm
      (Plan.move_sound hp (h.sound_next hw hr ht) hm)
    have hgraft := hg.fuel_eq
    have hbefore := fuelOf_perm h.sites
    have hafter := fuelOf_perm hnext.sites
    rw [fuelOf_append] at hbefore hafter
    rw [fuelOf_append] at hafter
    rw [fuel_of_running hr, fuel_of_running rfl]
    -- what is dropped is counted once with the lost sites and once with the waiting jobs
    change _ + 2 * (queueAfter policy m.queue e.job).waiting.length + 1 < _
    omega
  refine ⟨sk', dropped ++ lost, hnext, ⟨_, hg.leaves_perm, ?_⟩, fun Q hQ => hg.passes hm hQ, ?_, ?_,
    fun hall _ => ?_, rests_of_fuel_lt hfuel, fun _ => hfuel⟩
  · rw [Plan.leaves_of_act hact, hmade]
    rfl
  · intro hab
    rw [hw] at hab
    cases hab
  · intro _ hab
    change w.aborted = true at hab
    rw [hw'] at hab
    cases hab
  · rw [hkept hall]
    rfl

end Work

/-- A task that is to stop does nothing more. -/
theorem Tracks.stop_work {table : Array Scalar} {w : Watch} (h : Tracks p back n root m sk lost)
    (hr : m.running = some task) (ht : task.pending = work :: rest) (hw : w.aborted = true)
    (hmade : m.leafMade p check = none)
    (hwhy : m.watch.aborted = false → (∃ k, check k ≠ .proceed) ∨ ¬ Roomy p back root) :
    ∃ sk' lost', Tracks p back n root (m.advanced policy w (effectOf m task) table rest) sk' lost' ∧
      Extends p back policy check root 1 (m.leafMade p check).toList m
        (m.advanced policy w (effectOf m task) table rest) sk sk' lost lost' := by
  have hsites : m.sites.Perm ((m.advanced policy w (effectOf m task) table rest).sites ++
      [work.site task.chunk.id]) := by
    rw [sites_of_pending hr ht, sites_advanced]
    exact List.perm_middle.trans (List.perm_append_singleton _ _).symm
  refine h.stop_step hsites hw (.inr rfl) hmade hwhy (fuel_drop hr rfl hsites ?_)
  have hpos := (work.site task.chunk.id).fuel_pos
  rw [fuelOf_cons]
  change _ > 1
  omega

/-- A task that fails leaves nothing of its work. -/
theorem Tracks.fail_work {b : Buffers} {w : Watch} {f : Failure}
    (h : Tracks p back n root m sk lost) (hr : m.running = some task)
    (hb : b = .released ∨ b = m.buffers) (hmade : m.leafMade p check = none)
    (hwhy : m.watch.aborted = false → (∃ k, check k ≠ .proceed) ∨ ¬ Roomy p back root) :
    ∃ sk' lost',
      Tracks p back n root (fail { m with running := none, watch := w, buffers := b } f) sk' lost' ∧
      Extends p back policy check root 1 (m.leafMade p check).toList m
        (fail { m with running := none, watch := w, buffers := b } f) sk sk' lost lost' := by
  have hsites : m.sites.Perm
      ((fail { m with running := none, watch := w, buffers := b } f).sites ++ task.sites) := by
    simp only [Machine.sites, hr, Option.toList_some, List.flatMap_singleton]
    exact .of_eq (congrArg (· ++ task.sites) (List.append_nil _).symm)
  refine h.stop_step hsites rfl hb hmade hwhy (fuel_drop hr rfl hsites ?_)
  exact Nat.succ_pos _

/-- A job is started. -/
theorem Tracks.start_step {j : BuildJob} {queue : JobQueue BuildJob} {w : Watch}
    (h : Tracks p back n root m sk lost) (hr : m.running = none)
    (hj : m.queue.start? policy = some (j, queue)) (hw : w.aborted = false)
    (hnot : m.watch.aborted = false) :
    ∃ sk' lost', Tracks p back n root
        { m with queue := queue, watch := w, running := some (taskOf j) } sk' lost' ∧
      Extends p back policy check root 1 (m.leafMade p check).toList m
        { m with queue := queue, watch := w, running := some (taskOf j) } sk sk' lost lost' := by
  have hnext := h.start (w := w) hr hj hnot
  have hfuel : fuel { m with queue := queue, watch := w, running := some (taskOf j) } < m.fuel := by
    -- the job no longer waits, and runs instead
    have hlen := (JobQueue.perm_of_start? hj).length_eq
    rw [List.length_cons] at hlen
    rw [fuel_of_idle hr, fuel_of_running rfl, h.fuelOf_sites hnext]
    change fuelOf m.sites + 2 * queue.waiting.length + 1 < _
    omega
  exact ⟨sk, lost, hnext, .quiet (leafMade_of_idle hr) (hw.trans hnot.symm)
    (rests_of_fuel_lt hfuel) fun _ => hfuel⟩

/-- The running task ends. -/
theorem Tracks.finish_step (policy : Policy) (check : Check) (h : Tracks p back n root m sk lost)
    (hr : m.running = some task) (ht : task.pending = []) :
    ∃ sk' lost', Tracks p back n root (complete { m with running := none } task) sk' lost' ∧
      Extends p back policy check root 1 (m.leafMade p check).toList m
        (complete { m with running := none } task) sk sk' lost lost' := by
  have hnext := h.finish hr ht
  have hfuel : fuel (complete { m with running := none } task) < m.fuel := by
    rw [fuel_of_running hr, fuel_of_idle rfl, h.fuelOf_sites hnext]
    exact Nat.lt_succ_self _
  exact ⟨sk, lost, hnext, .quiet (leafMade_of_done hr ht) rfl (rests_of_fuel_lt hfuel)
    fun _ => hfuel⟩

/-- **Every step keeps what is known of a build.** -/
theorem Tracks.step (hp : p.Usable back) (hn : n ≤ limit32) (h : Tracks p back n root m sk lost)
    (policy : Policy) (check : Check) :
    ∃ sk' lost', Tracks p back n root (m.step p policy check) sk' lost' ∧
      Extends p back policy check root 1 (m.leafMade p check).toList m (m.step p policy check) sk
        sk' lost lost' := by
  generalize hm' : m.step p policy check = m'
  have hsteps := step_steps p policy check m
  rw [hm'] at hsteps
  clear hm'
  cases hsteps with
  | rest hr hw =>
    refine ⟨sk, lost, h, .quiet (leafMade_of_idle hr) rfl id fun hfin => ?_⟩
    simp [isFinished, hr, hw] at hfin
  | @refuse j queue f w hr hj hask =>
    obtain ⟨k, text, hk, -⟩ := ask_error hask
    obtain ⟨hsites, hfuel⟩ :=
      fuel_refuse (fail { m with queue := queue, watch := w } f) hr hj rfl rfl
    exact h.stop_step hsites rfl (.inr rfl) (leafMade_of_idle hr)
      (fun _ => .inl (fires_of_failed hk)) hfuel
  | @skip j queue w hr hj hask =>
    obtain ⟨hab, hwhy⟩ := ask_true hask
    obtain ⟨hsites, hfuel⟩ :=
      fuel_refuse { m with queue := queue.finish false, watch := w } hr hj hr rfl
    exact h.stop_step hsites hab (.inr rfl) (leafMade_of_idle hr)
      (fun hnot => .inl (fires_of_stop hnot hwhy)) hfuel
  | start hr hj hask =>
    obtain ⟨hw, hnot⟩ := ask_false hask
    exact h.start_step hr hj hw hnot
  | finish hr ht => exact h.finish_step policy check hr ht
  | @balk task work rest f w hr ht hd =>
    -- either the check failed, or the plot has no verdict and the root no tree
    refine h.fail_work hr (.inr rfl) (leafMade_of_balk hr ht hd) fun hw => ?_
    have hdecides := h.decides hw hr ht hn check
    rw [hd] at hdecides
    cases hdecides with
    | failed hk => exact .inl (fires_of_failed hk)
    | broke hv => exact .inr (h.not_roomy_of_verdict hw hr ht hv)
  | @spoil task work rest d table f w hr ht hd hperform =>
    refine h.fail_work hr (.inl rfl) (leafMade_of_spoil hr ht hd hperform) fun hw => .inr ?_
    have hdecides := h.decides hw hr ht hn check
    rw [hd] at hdecides
    cases hdecides with
    | stopped => cases hperform
    | done _ _ hv => exact h.not_roomy_of_perform hw hr ht hp hv hperform
  | @advance task work rest d table e w hr ht hd hperform =>
    have hmade := leafMade_of_advance hr ht hd hperform
    by_cases hw : m.watch.aborted = true
    -- a build that is to stop decides so without looking at its buffers
    · cases (Task.decide_of_aborted p check m.buffers task.table work hw).symm.trans hd
      cases hperform
      exact h.stop_work hr ht hw hmade fun hnot => by rw [hw] at hnot; cases hnot
    · rw [Bool.not_eq_true] at hw
      have hdecides := h.decides hw hr ht hn check
      rw [hd] at hdecides
      cases hdecides with
      | stopped hab hwhy =>
        cases hperform
        exact h.stop_work hr ht hab hmade fun _ => .inl (fires_of_stop hw hwhy)
      | done _ hw' hv => exact h.advance_step hw hr ht hp hw' hv hperform hmade

/-- **Every run keeps what is known of a build.** -/
theorem Tracks.iterate (hp : p.Usable back) (hn : n ≤ limit32) (h : Tracks p back n root m sk lost)
    (policy : Policy) (check : Check) (k : Nat) :
    ∃ sk' lost', Tracks p back n root ((Machine.step p policy check)^[k] m) sk' lost' ∧
      Extends p back policy check root k (m.leavesMade p policy check k) m
        ((Machine.step p policy check)^[k] m) sk sk' lost lost' := by
  induction k generalizing m sk lost with
  | zero => exact ⟨sk, lost, h, .refl p back policy check root m sk lost⟩
  | succ k ih =>
    obtain ⟨sk', lost', hnext, hfirst⟩ := h.step hp hn policy check
    obtain ⟨sk'', lost'', hlast, hrest⟩ := ih hnext
    exact ⟨sk'', lost'', hlast, hfirst.trans hrest⟩

/-- A run takes steps until it is finished. -/
theorem run_eq_iterate (p : Plan) (policy : Policy) (check : Check) (k : Nat) (m : Machine) :
    m.run p policy check k = (Machine.step p policy check)^[k] m := by
  induction k generalizing m with
  | zero => rfl
  | succ k ih =>
    rw [run, Function.iterate_succ_apply, ← ih]
    split
    · rename_i hfin
      -- a machine that is finished stays as it is, however many steps are left
      have hfixed : ∀ k, m.run p policy check k = m := by
        intro k
        cases k with
        | zero => rfl
        | succ k => rw [run, if_pos hfin]
      rw [step_of_isFinished hfin, hfixed]
    · rfl

end Machine

end BoxTree
