import BoxTree.Proofs.Machine.Submissions
/-!
# What a queue counts

The counts of a queue tell of its past, not of what is left to do. One of them is bound to the
present: the jobs that are outstanding are those that wait and the one that runs
(`Machine.Balanced`), so that a build that rests leaves none. And a build whose jobs are run oldest
first looks at no count at all: with the counts set back it goes on in the same way
(`Machine.reset_step`).
-/

namespace BoxTree

/-- The queue with its counts set back. -/
def JobQueue.reset {J : Type} (queue : JobQueue J) : JobQueue J := { waiting := queue.waiting }

namespace Machine

/-- The machine with the counts of its queue set back. -/
def reset (m : Machine) : Machine := { m with queue := m.queue.reset }

/-- The jobs of a build that are outstanding wait or run, and none has ended in a fault since the
queue had counted `panicked` of them. -/
structure Balanced (panicked : Nat) (m : Machine) : Prop where
  outstanding : m.queue.outstanding = m.queue.waiting.length + m.running.toList.length
  panicked : m.queue.panicked = panicked

variable {p : Plan} {policy : Policy} {check : Check} {m m' : Machine} {panicked : Nat}

/-- A job that is submitted is outstanding if it waits. -/
theorem outstanding_queueAfter (policy : Policy) (queue : JobQueue BuildJob)
    (job : Option BuildJob) :
    (queueAfter policy queue job).outstanding + queue.waiting.length =
      queue.outstanding + (queueAfter policy queue job).waiting.length ∧
      (queueAfter policy queue job).panicked = queue.panicked := by
  cases job with
  | none => exact ⟨rfl, rfl⟩
  | some j =>
    simp only [queueAfter, JobQueue.submit]
    split
    · refine ⟨?_, rfl⟩
      simp only [List.length_append, List.length_singleton]
      omega
    · exact ⟨rfl, rfl⟩

/-- One job less is outstanding when a job is taken off the queue and finished. -/
theorem Balanced.take {j : BuildJob} {queue : JobQueue BuildJob} (h : m.Balanced panicked)
    (hr : m.running = none) (hj : m.queue.start? policy = some (j, queue)) :
    queue.outstanding = queue.waiting.length + 1 ∧ queue.panicked = panicked := by
  obtain ⟨houtstanding, hpanicked⟩ := JobQueue.counts_of_start? hj
  have hlen := (JobQueue.perm_of_start? hj).length_eq
  have hbefore := h.outstanding
  rw [hr, hlen] at hbefore
  exact ⟨houtstanding.trans hbefore, hpanicked.trans h.panicked⟩

/-- **Every step leaves a build balanced.** -/
theorem Balanced.step (h : m.Balanced panicked) : (m.step p policy check).Balanced panicked := by
  have hsteps := step_steps p policy check m
  generalize m.step p policy check = m' at hsteps ⊢
  -- whatever ends a task takes it off the outstanding jobs
  have hdone : ∀ {t : Task}, m.running = some t →
      m.queue.outstanding - 1 = m.queue.waiting.length := by
    intro t hr
    rw [h.outstanding, hr]
    rfl
  cases hsteps with
  | rest hr hw => exact h
  | refuse hr hj hask =>
    obtain ⟨houtstanding, hpanicked⟩ := h.take hr hj
    exact ⟨congrArg (· - 1) houtstanding, hpanicked⟩
  | skip hr hj hask =>
    obtain ⟨houtstanding, hpanicked⟩ := h.take hr hj
    refine ⟨(congrArg (· - 1) houtstanding).trans ?_, hpanicked⟩
    rw [hr]
    rfl
  | start hr hj hask => exact ⟨(h.take hr hj).1, (h.take hr hj).2⟩
  | finish hr ht => exact ⟨hdone hr, h.panicked⟩
  | balk hr ht hd => exact ⟨hdone hr, h.panicked⟩
  | spoil hr ht hd hperform => exact ⟨hdone hr, h.panicked⟩
  | @advance t work rest d table e w hr ht hd hperform =>
    obtain ⟨houtstanding, hpanicked⟩ := outstanding_queueAfter policy m.queue e.job
    have hbefore := h.outstanding
    rw [hr, Option.toList_some, List.length_singleton] at hbefore
    refine ⟨?_, hpanicked.trans h.panicked⟩
    simp only [advanced, Option.toList_some, List.length_singleton]
    omega

/-- **Every run leaves a build balanced.** -/
theorem Balanced.iterate (h : m.Balanced panicked) (k : Nat) :
    ((Machine.step p policy check)^[k] m).Balanced panicked := by
  induction k generalizing m with
  | zero => exact h
  | succ k ih => exact ih h.step

/-- **A build that rests has no job outstanding.** -/
theorem Balanced.rested (h : m.Balanced panicked) (hfin : m.isFinished = true) :
    m.queue.outstanding = 0 := by
  rw [isFinished, Bool.and_eq_true, Option.isNone_iff_eq_none, List.isEmpty_iff] at hfin
  rw [h.outstanding, hfin.1, hfin.2]
  rfl

/-! ## Counts set back -/

/-- **Oldest first, a step does not look at the counts.** -/
theorem reset_step (p : Plan) (check : Check) (m : Machine) :
    (m.step p .fifo check).reset = (m.reset.step p .fifo check).reset := by
  obtain ⟨buffers, watch, queue, nextChunk, reports, failure, running⟩ := m
  cases running with
  | none =>
    cases hw : queue.waiting with
    | nil =>
      have hnone : queue.start? .fifo = none := JobQueue.start?_eq_none_iff.2 hw
      have hnone' : queue.reset.start? .fifo = none := JobQueue.start?_eq_none_iff.2 hw
      simp only [step, reset, hnone, hnone']
      rfl
    | cons j rest =>
      have hj := JobQueue.start?_fifo hw
      have hj' := @JobQueue.start?_fifo _ queue.reset _ _ hw
      simp only [step, reset, hj, hj', startJob]
      rcases (Watch.shouldStop check).runFrom watch with ⟨f | stop, w⟩
      · rfl
      · cases stop <;> rfl
  | some t =>
    obtain ⟨chunk, stats, table, pending⟩ := t
    cases pending with
    | nil => rfl
    | cons w rest =>
      simp only [step, reset, work]
      rcases (Task.decide p (Watch.shouldStop check) buffers table w).runFrom watch with
        ⟨f | ⟨d, table'⟩, w'⟩
      · rfl
      · simp only
        cases Effect.perform p { buffers, chunk, stats, nextChunk } w d with
        | error f => rfl
        | ok e =>
          obtain ⟨buffers', chunk', stats', nextChunk', work', job⟩ := e
          cases job <;> rfl

/-- **Oldest first, a run does not look at the counts.** -/
theorem reset_iterate (p : Plan) (check : Check) {m m' : Machine} (h : m.reset = m'.reset)
    (k : Nat) :
    ((Machine.step p .fifo check)^[k] m).reset = ((Machine.step p .fifo check)^[k] m').reset := by
  induction k generalizing m m' with
  | zero => exact h
  | succ k ih =>
    refine ih ?_
    rw [reset_step, h, ← reset_step]

end Machine

end BoxTree
