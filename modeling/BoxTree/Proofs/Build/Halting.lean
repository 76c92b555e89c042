import BoxTree.Proofs.Build.Schedule
import BoxTree.Proofs.Growth.Room
import BoxTree.Proofs.Machine.Halting
/-!
# How a build heeds its check

A build without nested threads asks one question after the other. As long as it is given leave to
proceed it goes on, and it is complete when no question was answered otherwise. The first other
answer ends it: no question follows, and nothing changes after it (`Builder.build_heeded`).
-/

namespace BoxTree

namespace Builder

variable {builder : Builder} {boxes : List Box} {p : Plan} {policy : Policy} {check : Check}
  {queue : JobQueue BuildJob} {k count : Nat} {m : Machine} {platform : Platform}

/-- How a build ends whose check does not give leave to proceed at question `k`. -/
structure Halts (builder : Builder) (boxes : List Box) (policy : Policy) (check : Check)
    (queue : JobQueue BuildJob) (k : Nat) (result : BuildResult) : Prop where
  polls : result.polls = k + 1
  cancelled : check k = .stop → result.outcome = .ok .cancelled
  /-- The first question is asked by the building thread, where a failed check is its own fault. -/
  faulted : ∀ text, check k = .failed text → k = 0 → result.outcome = .error (.fault (.check text))
  /-- All others are asked in tasks. -/
  panicked : ∀ text, check k = .failed text → 0 < k →
    result.outcome = .error (.error (.taskPanicked (text.getD "unknown panic")))
  unsubmitted : k = 0 → result.queue = queue
  /-- The machine stays as it was before the step that asks the question. -/
  untouched : 0 < k → ∃ p m i, start builder.settings boxes policy queue = .ok (p, m) ∧
    ((Machine.step p policy check)^[i] m).watch.polls ≤ k ∧
    k < ((Machine.step p policy check)^[i + 1] m).watch.polls ∧
    ∀ j, i ≤ j → Machine.Untouched ((Machine.step p policy check)^[i] m)
      ((Machine.step p policy check)^[j] m)

theorem polls_conclude (builder : Builder) (p : Plan) (count : Nat) (m : Machine) :
    (builder.conclude p count m).polls = m.watch.polls := by
  unfold conclude
  split
  · rfl
  · split
    · rfl
    · split <;> rfl

/-- A number that is passed is passed in one step. -/
theorem exists_passing {f : Nat → Nat} {last : Nat} (hfirst : f 0 ≤ k) (hlast : k < f last) :
    ∃ i, f i ≤ k ∧ k < f (i + 1) := by
  induction last with
  | zero => exact absurd hfirst (Nat.not_le_of_lt hlast)
  | succ last ih =>
    by_cases h : k < f last
    · exact ih h
    · exact ⟨last, Nat.le_of_not_lt h, hlast⟩

/-- A build that has failed reports its failure. -/
theorem outcome_of_failure {e : BuildError} (h : m.failure = some e) :
    (builder.conclude p count m).outcome = .error (.error e) := by
  unfold conclude
  rw [h]

/-- A build that is to stop and has not failed is cancelled. -/
theorem outcome_of_aborted (h : m.failure = none) (hw : m.watch.aborted = true) :
    (builder.conclude p count m).outcome = .ok .cancelled := by
  simp only [conclude, h, hw, if_true]

/-- Without nested threads the pieces of a build are four. -/
theorem plan_serial (h : builder.settings.nestedThreads = 0) (platform : Platform)
    (boxes : List Box) :
    ∃ p, plan builder.settings platform boxes = .ok p ∧ p.nested = false := by
  have hpieces : mulWithin limit64 (max builder.settings.nestedThreads 1) 4 = .ok 4 := by
    rw [h]
    rfl
  have hplan : ∃ p, plan builder.settings platform boxes = .ok p := by
    rw [plan, hpieces]
    exact ⟨_, rfl⟩
  obtain ⟨p, hp⟩ := hplan
  refine ⟨p, hp, ?_⟩
  simp only [(plan_eq hp).nested, Settings.wantsNested, h]
  rfl

/-- The tree of a build without nested threads has room. -/
theorem roomy_of_serial (ha : builder.Accepted)
    (hplan : plan builder.settings platform boxes = .ok p) (hnested : p.nested = false)
    (hne : boxes ≠ []) (hn : boxes.length ≤ 2 ^ 31) :
    Roomy p (needsBack p boxes.length) (root p boxes) :=
  .of_le (usable_of_plan ha.validate hplan) hnested (root_sound _) rfl (List.length_pos_iff.2 hne)
    hn

/-- **A build without nested threads that no check stops is complete.** -/
theorem complete_of_serial (ha : builder.Accepted) (hserial : builder.settings.nestedThreads = 0)
    (hq : queue.waiting = []) (hkeeps : ∀ k, policy.keeps k = true) (hn : boxes.length ≤ 2 ^ 31)
    (hcalm : ∀ k, check k = .proceed) :
    ∃ tree, (builder.build boxes policy check queue).outcome = .ok (.complete tree) := by
  by_cases hempty : boxes = []
  · have hask : check.ask 0 = .ok false := by rw [Check.ask, hcalm]
    subst hempty
    rw [build_empty hask]
    exact ⟨_, rfl⟩
  · obtain ⟨p, hplan, hnested⟩ := plan_serial hserial policy.platform boxes
    exact complete_of_roomy ha hq hempty (Nat.le_trans hn (by decide)) hplan
      (roomy_of_serial ha hplan hnested hempty hn) hkeeps hcalm

/-- A build whose first question is not answered with leave to proceed has not begun. -/
theorem halts_first (hle : boxes.length ≤ limit32) (hk : check 0 ≠ .proceed) :
    Halts builder boxes policy check queue 0 (builder.build boxes policy check queue) := by
  have hle : ¬ limit32 < boxes.length := Nat.not_lt_of_le hle
  have hzero : ¬ 0 < 0 := Nat.lt_irrefl 0
  cases hask : check 0 with
  | proceed => exact absurd hask hk
  | stop =>
    simp only [build, if_neg hle, Check.ask, hask]
    exact ⟨rfl, fun _ => rfl, fun _ h => (by cases hask.symm.trans h),
      fun _ h => (by cases hask.symm.trans h), fun _ => rfl, fun h => absurd h hzero⟩
  | failed text =>
    simp only [build, if_neg hle, Check.ask, hask]
    refine ⟨rfl, fun h => (by cases hask.symm.trans h), fun text' h _ => ?_,
      fun _ _ h => absurd h hzero, fun _ => rfl, fun h => absurd h hzero⟩
    cases hask.symm.trans h
    rfl

/-- **Builds of a machine** end as the answers of the check say. -/
theorem Starts.halts (h : Starts builder.settings boxes policy queue p m) (ha : builder.Accepted)
    (hnested : p.nested = false) (hq : queue.waiting = []) (hne : boxes ≠ [])
    (hn : boxes.length ≤ 2 ^ 31) (hkeeps : ∀ k, policy.keeps k = true)
    (hstart : start builder.settings boxes policy queue = .ok (p, m)) (hask : check 0 = .proceed) :
    let result := builder.cleared.conclude p boxes.length
      (m.run p policy check (Machine.enoughSteps boxes.length))
    (check.Calm result.polls → ∃ tree, result.outcome = .ok (.complete tree)) ∧
      ∀ k < result.polls, check.Calm k → check k ≠ .proceed →
        Halts builder boxes policy check queue k result := by
  intro result
  have hle : boxes.length ≤ limit32 := Nat.le_trans hn (by decide)
  have husable := h.usable ha.validate
  have hroom := roomy_of_serial ha h.plan hnested hne hn
  obtain ⟨lost, htracks, -, -⟩ := h.tracks hq
  have hfirst : m.Hears check := by
    rw [h.machine]
    exact .on (Watch.follows_of_calm (Check.Calm.succ nofun hask)) rfl
  have hhears := htracks.hears husable hle hroom hnested policy hfirst
  have hlast := hhears (Machine.enoughSteps boxes.length)
  rw [← Machine.run_eq_iterate] at hlast
  have hpolls : result.polls =
      (m.run p policy check (Machine.enoughSteps boxes.length)).watch.polls :=
    polls_conclude _ _ _ _
  rw [hpolls]
  refine ⟨fun hcalm => h.complete ha hq hle hkeeps hroom (hlast.aborted hcalm),
    fun k hlt hcalm hk => ?_⟩
  have hwatch := hlast.turned hcalm hk hlt
  have hpos : 0 < k := by
    rcases Nat.eq_zero_or_pos k with rfl | hpos
    · exact absurd hask hk
    · exact hpos
  refine ⟨hpolls.trans (congrArg Watch.polls hwatch), fun hstop => ?_, fun _ _ hzero => by omega,
    fun text hfailed _ => ?_, fun hzero => by omega, fun _ => ?_⟩
  · exact outcome_of_aborted (hlast.failure_of_stop hwatch hstop) (congrArg Watch.aborted hwatch)
  · exact outcome_of_failure (hlast.failure_of_failed hwatch hfailed)
  · have hbegin : m.watch.polls ≤ k := by
      rw [h.machine]
      exact hpos
    rw [Machine.run_eq_iterate] at hlt
    obtain ⟨i, hbefore, hafter⟩ := exists_passing
      (f := fun i => ((Machine.step p policy check)^[i] m).watch.polls) hbegin hlt
    refine ⟨p, m, i, hstart, hbefore, hafter, fun j hij => ?_⟩
    refine htracks.untouched husable hle hroom policy hij ?_
    rw [(hhears (i + 1)).turned hcalm hk hafter]

/-- **A build heeds its check.** Without nested threads and over at most `2 ^ 31` boxes, with no job
lost, a build whose questions are all answered with leave to proceed is complete. The first other
answer is the last one: a build that is told to stop is cancelled, and one whose check fails reports
the text it left, or is itself ended by the fault if it had asked its first question. After that
answer no node is written, no object moved and no job submitted. -/
theorem build_heeded (ha : builder.Accepted) (hserial : builder.settings.nestedThreads = 0)
    (hq : queue.waiting = []) (hkeeps : ∀ k, policy.keeps k = true) (hn : boxes.length ≤ 2 ^ 31) :
    (check.Calm (builder.build boxes policy check queue).polls →
      ∃ tree, (builder.build boxes policy check queue).outcome = .ok (.complete tree)) ∧
    ∀ k < (builder.build boxes policy check queue).polls, check.Calm k → check k ≠ .proceed →
      Halts builder boxes policy check queue k (builder.build boxes policy check queue) := by
  have hle : boxes.length ≤ limit32 := Nat.le_trans hn (by decide)
  by_cases hask : check 0 = .proceed
  · have hgo : check.ask 0 = .ok false := by rw [Check.ask, hask]
    by_cases hempty : boxes = []
    · subst hempty
      rw [build_empty hgo]
      refine ⟨fun _ => ⟨_, rfl⟩, fun k hk _ hne => absurd ?_ hne⟩
      cases Nat.lt_one_iff.1 hk
      exact hask
    · rw [build_eq hle hempty hgo]
      obtain ⟨p', hplan, hnested⟩ := plan_serial hserial policy.platform boxes
      rcases start_cases builder.settings boxes policy queue with
        ⟨f, herr, -⟩ | ⟨p, m, hstart, hm⟩
      · cases hplan.symm.trans herr
      · cases hplan.symm.trans hm.plan
        rw [hstart]
        exact hm.halts ha hnested hq hempty hn hkeeps hstart hask
  · have hhalts := @halts_first builder boxes policy check queue hle hask
    refine ⟨fun hcalm => absurd (hcalm 0 ?_) hask, fun k hlt _ _ => ?_⟩
    · rw [hhalts.polls]
      exact Nat.one_pos
    · rw [hhalts.polls] at hlt
      cases Nat.lt_one_iff.1 hlt
      exact hhalts

/-- The check fails at the fifth question. -/
theorem fine_heeded :
    let check : Check := fun k => if k = 4 then .failed none else .proceed
    (fine.build row .fifo check {}).polls = 5 ∧
      (fine.build row .fifo check {}).outcome =
        .error (.error (.taskPanicked "unknown panic")) := by
  intro check
  have hpolls : 4 < (fine.build row .fifo check {}).polls := by decide +kernel
  have hhalts := (@build_heeded fine row .fifo check {} fine_accepted rfl rfl (fun _ => rfl)
    (by decide)).2 4 hpolls (by unfold Check.Calm; decide) (by decide)
  exact ⟨hhalts.polls, hhalts.panicked none rfl (by decide)⟩

end Builder

end BoxTree
