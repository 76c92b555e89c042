import BoxTree.Proofs.Build.Platforms
import BoxTree.Proofs.Machine.Counts
/-!
# Builds one after another

A builder and a queue can be used again, however the last build on them ended. Each build leaves the
queue idle (`Builder.build_idle`) and forgets what the builder found out before
(`Builder.build_afresh`), so that a whole session of builds goes as if each of them had a builder
and a queue of its own (`Builder.session_afresh`).
-/

namespace BoxTree

/-- A build to be made: its boxes, its check, and what the machine chooses while it lasts. -/
structure Trial where
  boxes : List Box
  check : Check
  platform : Platform := .usual

namespace Builder

variable {builder builder' fresh : Builder} {boxes : List Box} {p : Plan} {policy : Policy}
  {check : Check} {queue queue' : JobQueue BuildJob} {m m' : Machine} {count : Nat}

/-- A build that is made, oldest jobs first. -/
def attempt (builder : Builder) (queue : JobQueue BuildJob) (trial : Trial) : BuildResult :=
  builder.build trial.boxes (.on .fifo trial.platform) trial.check queue

/-- Builds one after another on the same builder and the same queue. -/
def session (builder : Builder) (queue : JobQueue BuildJob) : List Trial → List BuildResult
  | [] => []
  | trial :: rest =>
    let result := builder.attempt queue trial
    result :: session result.builder result.queue rest

theorem settings_conclude (builder : Builder) (p : Plan) (count : Nat) (m : Machine) :
    (builder.conclude p count m).builder.settings = builder.settings := by
  unfold conclude
  split
  · rfl
  · split
    · rfl
    · split <;> rfl

/-- A build keeps the settings of its builder. -/
theorem settings_build (builder : Builder) (boxes : List Box) (policy : Policy) (check : Check)
    (queue : JobQueue BuildJob) :
    (builder.build boxes policy check queue).builder.settings = builder.settings := by
  rcases build_cases builder boxes check with
    ⟨left, outcome, polls, hleft, heq⟩ | ⟨-, h⟩
  · rw [heq]
    rcases hleft with rfl | ⟨-, rfl⟩ <;> rfl
  · obtain ⟨p, buffers, -, h⟩ := h policy.platform
    rw [(h policy queue rfl).2]
    exact settings_conclude builder.cleared p boxes.length _

/-- **A build leaves an idle queue idle**, however it ends, and no job of it counts as faulted. -/
theorem build_idle (ha : builder.Accepted) (hq : queue.waiting = [])
    (hidle : queue.outstanding = 0) :
    (builder.build boxes policy check queue).queue.outstanding = 0 ∧
      (builder.build boxes policy check queue).queue.panicked = queue.panicked := by
  rcases build_cases builder boxes check with ⟨left, outcome, polls, -, heq⟩ | ⟨hn, h⟩
  · rw [heq]
    exact ⟨hidle, rfl⟩
  · obtain ⟨p, buffers, -, h⟩ := h policy.platform
    obtain ⟨hstart, heq⟩ := h policy queue rfl
    have hfin := (starts_of_start hstart).isFinished_iterate ha.validate hq hn check
    have hbalanced :
        (machine policy queue buffers p.extent boxes.length).Balanced queue.panicked := by
      obtain ⟨houtstanding, hpanicked⟩ := Machine.outstanding_queueAfter policy queue
        (some ⟨0, 0, boxes.length, p.extent, 0, .front⟩)
      rw [hq, hidle, List.length_nil, Nat.zero_add] at houtstanding
      exact ⟨houtstanding, hpanicked⟩
    have hlast : ((Machine.step p policy check)^[Machine.enoughSteps boxes.length]
        (machine policy queue buffers p.extent boxes.length)).Balanced queue.panicked :=
      hbalanced.iterate _
    rw [heq, queue_conclude, Machine.run_eq_iterate]
    exact ⟨hlast.rested hfin, hlast.panicked⟩

/-- What a build leaves besides its queue does not tell anything of the queue. -/
theorem conclude_with_queue (builder : Builder) (p : Plan) (count : Nat) (m : Machine)
    (queue : JobQueue BuildJob) : builder.conclude p count { m with queue := queue } =
      { builder.conclude p count m with queue := queue } := by
  have hassemble : assemble { m with queue := queue } count = assemble m count := rfl
  simp only [conclude, hassemble]
  cases m.failure with
  | some e => rfl
  | none =>
    cases m.watch.aborted with
    | true => rfl
    | false => cases assemble m count <;> rfl

/-- Two machines that differ in the counts of their queues leave the same. -/
theorem conclude_eq_of_reset (builder : Builder) (p : Plan) (count : Nat)
    (h : m.reset = m'.reset) :
    builder.conclude p count m = { builder.conclude p count m' with queue := m.queue } := by
  have hqueue : m = { m' with queue := m.queue } := by
    obtain ⟨buffers, watch, queue, nextChunk, reports, failure, running⟩ := m
    obtain ⟨rfl, rfl, -, rfl, rfl, rfl, rfl⟩ := Machine.mk.inj h
    rfl
  rw [hqueue]
  exact conclude_with_queue builder p count m' m.queue

/-- Nothing of a builder but its settings matters for what it builds. -/
theorem build_congr (h : builder.settings = builder'.settings) (boxes : List Box) (policy : Policy)
    (check : Check) (queue : JobQueue BuildJob) :
    builder.build boxes policy check queue = builder'.build boxes policy check queue := by
  have hcleared : builder.cleared = builder'.cleared := by rw [cleared, cleared, h]
  simp only [build, hcleared]

/-- **A build does not depend on what was built before**, neither with its builder nor on its
queue. -/
theorem build_afresh (hs : builder.settings = builder'.settings) (hq : queue.waiting = [])
    (hq' : queue'.waiting = []) (trial : Trial) :
    builder.attempt queue trial =
      { builder'.attempt queue' trial with queue := (builder.attempt queue trial).queue } := by
  obtain ⟨boxes, check, platform⟩ := trial
  have hbuilder := build_congr hs boxes (.on .fifo platform) check
  simp only [attempt, hbuilder]
  rcases build_cases builder' boxes check with ⟨left, outcome, polls, -, heq⟩ | ⟨-, h⟩
  · rw [heq, heq]
  · obtain ⟨p, buffers, -, h⟩ := h platform
    have hreset : (machine (.on .fifo platform) queue buffers p.extent boxes.length).reset =
        (machine (.on .fifo platform) queue' buffers p.extent boxes.length).reset := by
      simp only [machine, Machine.reset, JobQueue.reset, JobQueue.submit, Policy.on, Policy.fifo,
        hq, hq']
      rfl
    have hlast := Machine.reset_iterate p check hreset (Machine.enoughSteps boxes.length)
    rw [← funext (Machine.step_policy_on p .fifo check platform), ← Machine.run_eq_iterate,
      ← Machine.run_eq_iterate] at hlast
    rw [(h _ queue rfl).2, (h _ queue' rfl).2, queue_conclude]
    exact conclude_eq_of_reset builder'.cleared p boxes.length hlast

/-- **Builds one after another do not disturb each other.** On one builder and one queue that is
idle at first, jobs run oldest first, let builds follow one another, each over boxes of its own and
with a check that may stop it or fail at any question. After each of them no job is outstanding,
none counts as faulted, and what it has found out and how it has ended is what a new builder on a
new queue would have found out and how that would have ended: on any platform, where the boxes are
defined, and on the same platform else. -/
theorem session_afresh (h : ofSettings builder.settings = .ok fresh) (hq : queue.waiting = [])
    (hidle : queue.outstanding = 0) (trials : List Trial) :
    List.Forall₂ (fun trial result =>
        result.queue.outstanding = 0 ∧ result.queue.panicked = queue.panicked ∧
          ∀ platform, platform = trial.platform ∨ (∀ b ∈ trial.boxes, b.Defined) →
            let alone := fresh.attempt {} { trial with platform }
            result.outcome = alone.outcome ∧ result.builder = alone.builder ∧
              result.polls = alone.polls)
      trials (builder.session queue trials) := by
  have ha : builder.Accepted := ⟨fresh, h⟩
  have hs : builder.settings = fresh.settings := by
    obtain ⟨-, -, rfl⟩ := map_eq_ok_iff.1 h
    rfl
  have hfresh : fresh.Accepted := ⟨fresh, hs ▸ h⟩
  clear h
  -- what a build leaves is what the rest of the session starts with
  induction trials generalizing builder queue with
  | nil => exact .nil
  | cons trial rest ih =>
    have hwaiting : (builder.attempt queue trial).queue.waiting = [] := waiting_build ha hq
    obtain ⟨hrest, hpanicked⟩ : (builder.attempt queue trial).queue.outstanding = 0 ∧
        (builder.attempt queue trial).queue.panicked = queue.panicked := build_idle ha hq hidle
    have hsame : (builder.attempt queue trial).builder.settings = builder.settings :=
      settings_build builder _ _ _ queue
    have heq : builder.attempt queue trial = { fresh.attempt {} trial with
        queue := (builder.attempt queue trial).queue } := build_afresh hs hq rfl trial
    have halone : ∀ platform, platform = trial.platform ∨ (∀ b ∈ trial.boxes, b.Defined) →
        fresh.attempt {} { trial with platform } = fresh.attempt {} trial := by
      rintro platform (rfl | hdefined)
      · rfl
      · have hon : ∀ platform, fresh.attempt {} { trial with platform } =
            fresh.build trial.boxes .fifo trial.check {} :=
          build_on hfresh rfl hdefined .fifo trial.check
        exact (hon platform).trans (hon trial.platform).symm
    refine .cons ⟨hrest, hpanicked, fun platform hplatform => ?_⟩ ?_
    · simp only [halone platform hplatform]
      rw [heq]
      exact ⟨rfl, rfl, rfl⟩
    · have hnext := ih hwaiting hrest (by rw [Accepted, hsame]; exact ha) (hsame.trans hs)
      rw [hpanicked] at hnext
      exact hnext

/-- Builds over the row: one that is complete, one that is told to stop, one whose check fails, and
one that is complete again, with a build over no boxes in between. -/
def trials : List Trial :=
  [{ boxes := row, check := .never },
    { boxes := row, check := fun k => if k = 3 then .stop else .proceed },
    { boxes := [], check := .never },
    { boxes := row, check := fun k => if k = 4 then .failed none else .proceed },
    { boxes := row, check := .never }]

theorem fine_afresh :
    ((fine.session {} trials).map BuildResult.isComplete = [true, false, true, false, true]) ∧
      List.Forall₂ (fun trial result =>
          result.queue.outstanding = 0 ∧ result.queue.panicked = 0 ∧
            ∀ platform, platform = trial.platform ∨ (∀ b ∈ trial.boxes, b.Defined) →
              let alone := fine.attempt {} { trial with platform }
              result.outcome = alone.outcome ∧ result.builder = alone.builder ∧
                result.polls = alone.polls)
        trials (fine.session {} trials) :=
  ⟨by decide +kernel, @session_afresh fine fine {} rfl rfl rfl trials⟩

end Builder

end BoxTree
