import BoxTree.Proofs.Machine.Submissions
/-!
# Lost jobs

A queue is free to drop any job it is given. Chunks are numbered as jobs are submitted, so that the
numbers of a build fall into those that were dropped and those that were kept; a job that was kept
waits or was started, and one that was started is running or has reported its chunk. No step of a
build that goes on mixes these up (`Machine.Deals.step`).
-/

namespace BoxTree

open Asking

/-- The chunk numbers whose submissions are kept, out of a build's first ones. -/
def Policy.kept (policy : Policy) (first count : Nat) : List Nat :=
  (List.range count).filter fun id => policy.keeps (first + id)

namespace Policy

variable {policy : Policy} {first count : Nat}

theorem kept_succ (h : policy.keeps (first + count) = true) :
    policy.kept first (count + 1) = policy.kept first count ++ [count] := by
  rw [kept, List.range_succ, List.filter_append, List.filter_singleton, h]
  rfl

theorem kept_succ_of_not (h : ¬ policy.keeps (first + count) = true) :
    policy.kept first (count + 1) = policy.kept first count := by
  rw [Bool.not_eq_true] at h
  rw [kept, List.range_succ, List.filter_append, List.filter_singleton, h]
  exact List.append_nil _

theorem mem_kept {id : Nat} :
    id ∈ policy.kept first count ↔ id < count ∧ policy.keeps (first + id) = true := by
  rw [kept, List.mem_filter, List.mem_range]

theorem nodup_kept (policy : Policy) (first count : Nat) : (policy.kept first count).Nodup :=
  List.nodup_range.filter _

end Policy

namespace Machine

/-- The chunk number of the job that the next step starts, if it starts one. -/
def jobStarted (policy : Policy) (m : Machine) : Option Nat :=
  match m.running with
  | some _ => none
  | none => (m.queue.start? policy).map fun taken => taken.1.chunk

/-- The chunk numbers of the jobs that a number of steps start, the last one first. -/
def jobsStarted (p : Plan) (policy : Policy) (check : Check) : Nat → Machine → List Nat
  | 0, _ => []
  | k + 1, m =>
    jobsStarted p policy check k (m.step p policy check) ++ (m.jobStarted policy).toList

/-- What has become of the jobs of a build whose first submission was number `first`, when those of
`ran` have been started. -/
structure Deals (policy : Policy) (first : Nat) (ran : List Nat) (m : Machine) : Prop where
  submitted : m.queue.submitted = first + m.nextChunk
  kept : (ran ++ m.queue.waiting.map BuildJob.chunk).Perm (policy.kept first m.nextChunk)
  reported : ran.Perm ((m.running.toList.map fun t => t.chunk.id) ++
    m.reports.map fun r => r.chunk.id)

variable {p : Plan} {policy : Policy} {check : Check} {m : Machine} {first : Nat} {ran : List Nat}

theorem jobStarted_of_idle (hr : m.running = none) :
    m.jobStarted policy = (m.queue.start? policy).map fun taken => taken.1.chunk := by
  simp only [jobStarted, hr]

theorem jobStarted_of_running {t : Task} (hr : m.running = some t) :
    m.jobStarted policy = none := by
  simp only [jobStarted, hr]

/-- A job that is submitted gets the next number. It waits if it is kept. -/
theorem kept_queueAfter {queue : JobQueue BuildJob} {job : Option BuildJob} {count : Nat}
    (hsubmitted : queue.submitted = first + count) (hjob : ∀ j, job = some j → j.chunk = count)
    (h : (ran ++ queue.waiting.map BuildJob.chunk).Perm (policy.kept first count)) :
    (ran ++ (queueAfter policy queue job).waiting.map BuildJob.chunk).Perm
      (policy.kept first (count + job.toList.length)) := by
  cases job with
  | none => exact h
  | some j =>
    have hchunk := hjob j rfl
    rw [Option.toList_some, List.length_singleton, queueAfter]
    by_cases hk : policy.keeps queue.submitted = true
    · rw [JobQueue.waiting_submit j hk, List.map_append, List.map_singleton, hchunk,
        ← List.append_assoc, Policy.kept_succ (hsubmitted ▸ hk)]
      exact h.append_right _
    · rw [JobQueue.submit_of_not_keeps j hk, Policy.kept_succ_of_not (hsubmitted ▸ hk)]
      exact h

/-- **A step of a build that goes on** deals with its jobs: it starts one, works on, or reports. -/
theorem Deals.step (h : m.Deals policy first ran)
    (hw : (m.step p policy check).watch.aborted = false) :
    (m.step p policy check).Deals policy first ((m.jobStarted policy).toList ++ ran) := by
  have hsteps := step_steps p policy check m
  generalize m.step p policy check = m' at hsteps hw ⊢
  cases hsteps with
  | rest hr hwaiting =>
    rw [jobStarted_of_idle hr, JobQueue.start?_eq_none_iff.2 hwaiting]
    exact h
  | refuse => cases hw
  | skip hr hj hask =>
    obtain ⟨hab, -⟩ := ask_true hask
    cases hab.symm.trans hw
  | @start j queue w hr hj hask =>
    have hwaiting := (JobQueue.perm_of_start? hj).map BuildJob.chunk
    have hreported := h.reported
    rw [hr] at hreported
    rw [jobStarted_of_idle hr, hj]
    refine ⟨(JobQueue.submitted_of_start? hj).trans h.submitted, ?_, hreported.cons j.chunk⟩
    -- the job moves from those that wait to those that were started
    exact (List.perm_middle.symm.trans (hwaiting.symm.append_left ran)).trans h.kept
  | @finish t hr ht =>
    have hidle : m.watch.aborted = false := hw
    have hreported := h.reported
    rw [hr] at hreported
    rw [jobStarted_of_running hr]
    refine ⟨h.submitted, h.kept, ?_⟩
    simp only [complete, hidle]
    exact hreported
  | balk => cases hw
  | spoil => cases hw
  | @advance t work rest d table e w hr ht hd hperform =>
    have hnumbers := Effect.numbers_perform rfl hperform
    have hreported := h.reported
    rw [hr] at hreported
    rw [jobStarted_of_running hr]
    refine ⟨?_, ?_, ?_⟩
    · simp only [advanced, submitted_queueAfter, h.submitted, hnumbers.nextChunk]
      exact Nat.add_assoc _ _ _
    · simp only [advanced, hnumbers.nextChunk]
      exact kept_queueAfter h.submitted hnumbers.job h.kept
    · simp only [advanced, Option.toList_some, List.map_singleton, hnumbers.chunk]
      exact hreported

/-- **A run that goes on** deals with its jobs. -/
theorem Deals.iterate (h : m.Deals policy first ran)
    (hw : ∀ i, ((Machine.step p policy check)^[i] m).watch.aborted = false) (k : Nat) :
    ((Machine.step p policy check)^[k] m).Deals policy first
      (m.jobsStarted p policy check k ++ ran) := by
  induction k generalizing m ran with
  | zero => exact h
  | succ k ih =>
    rw [jobsStarted, List.append_assoc]
    exact ih (h.step (hw 1)) fun i => hw (i + 1)

/-- **In the end** the jobs that were started are those that were kept, and all have reported. -/
theorem Deals.rested (h : m.Deals policy first ran) (hr : m.running = none)
    (hwaiting : m.queue.waiting = []) :
    ran.Perm (policy.kept first m.nextChunk) ∧ ran.Perm (m.reports.map fun r => r.chunk.id) := by
  have hkept := h.kept
  have hreported := h.reported
  rw [hwaiting, List.map_nil, List.append_nil] at hkept
  rw [hr] at hreported
  exact ⟨hkept, hreported⟩

end Machine

end BoxTree
