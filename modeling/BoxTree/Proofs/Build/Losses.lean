import BoxTree.Proofs.Build.Halting
import BoxTree.Proofs.Machine.Losses
/-!
# Builds that lose jobs

A task does not know whether the parts it submits are ever built. What becomes of them shows only
when the chunks are put in order: a build whose jobs were all run is complete, and any other one
names the first chunk that is not there, so that no tree is ever returned that lacks a part
(`Builder.build_accounted`).
-/

namespace BoxTree

open Chunk Sketch

namespace Machine

variable {p : Plan} {back : Bool} {n i : Nat} {root : Plot} {m : Machine} {sk : Sketch}
  {lost : List Site}

/-- **A build that rests and has lost a job** is not assembled. It names the first chunk that was
not reported. -/
theorem Tracks.assemble_of_unreported (h : Tracks p back n root m sk lost)
    (hw : m.watch.aborted = false) (hr : m.running = none) (hroom : Roomy p back root)
    (hnodup : (m.reports.map fun r => r.chunk.id).Nodup)
    (hfirst : IsLeast {i | i < m.nextChunk ∧ i ∉ m.reports.map fun r => r.chunk.id} i) :
    Builder.assemble m n = .error (.error (MergeFault.unreported i).toError) := by
  obtain ⟨⟨hi, hnot⟩, hleast⟩ := hfirst
  have hbefore : ∀ j < i, j ∈ m.reports.map fun r => r.chunk.id := fun j hj =>
    by_contra fun hmissing => Nat.not_le_of_lt hj (hleast ⟨hj.trans hi, hmissing⟩)
  obtain ⟨t, hgrows, -, hwithin⟩ := hroom
  -- the counters are summed before the chunks are looked at, and the whole tree has room for them
  obtain ⟨more, hsum⟩ := ((h.becomes t).2 hgrows).stats_le
  rw [hsum] at hwithin
  rcases Builder.totals_cases m.reports with htotals | ⟨-, hover⟩
  · have hcollect := Builder.collect_eq_error hnodup hi hnot hbefore
    rw [h.assemble_eq hw, htotals, hcollect]
    rfl
  · rw [h.sum_reports hw hr] at hover
    exact absurd hwithin.left hover

end Machine

namespace Builder

variable {builder : Builder} {boxes : List Box} {p : Plan} {policy : Policy} {check : Check}
  {queue : JobQueue BuildJob} {m : Machine}

/-- How a build ends that has submitted a number of jobs, when `ran` are the chunk numbers of those
that were run. -/
structure Accounts (boxes : List Box) (policy : Policy) (queue : JobQueue BuildJob) (jobs : Nat)
    (ran : List Nat) (result : BuildResult) : Prop where
  submitted : result.queue.submitted = queue.submitted + jobs
  /-- No job is run twice. -/
  nodup : ran.Nodup
  /-- The chunks are numbered as their jobs are submitted. -/
  kept : ∀ id, id ∈ ran ↔ id < jobs ∧ policy.keeps (queue.submitted + id) = true
  complete : (∃ tree, result.outcome = .ok (.complete tree)) ↔ ∀ id < jobs, id ∈ ran
  structured : ∀ tree, result.outcome = .ok (.complete tree) → tree.Structured boxes.length
  lost : ∀ id, IsLeast {id | id < jobs ∧ id ∉ ran} id →
    result.outcome = .error (.error (.internal s!"chunk {id} was never reported"))

/-- In a list that lacks a number below a bound there is a first one that it lacks. -/
theorem exists_first_lost {ran : List Nat} {jobs : Nat} (h : ¬ ∀ id < jobs, id ∈ ran) :
    ∃ id, IsLeast {id | id < jobs ∧ id ∉ ran} id := by
  have hlost : ∃ id, id < jobs ∧ id ∉ ran := by
    by_contra hnone
    exact h fun id hid => by_contra fun hnot => hnone ⟨id, hid, hnot⟩
  classical
  exact ⟨Nat.find hlost, Nat.find_spec hlost, fun id hid => Nat.find_min' hlost hid⟩

/-- The first job of a build waits, unless it is dropped. -/
theorem Starts.deals (h : Starts builder.settings boxes policy queue p m)
    (hq : queue.waiting = []) : m.Deals policy queue.submitted [] := by
  rw [h.machine]
  have hwaiting :
      ([] ++ queue.waiting.map BuildJob.chunk).Perm (policy.kept queue.submitted 0) := by
    rw [hq]
    exact .refl _
  let first : BuildJob := ⟨0, 0, boxes.length, policy.platform.extent boxes, 0, .front⟩
  have hfirst : ∀ j : BuildJob, some first = some j → j.chunk = 0 :=
    fun j hj => by cases hj; rfl
  exact ⟨Machine.submitted_queueAfter policy queue (some first),
    Machine.kept_queueAfter rfl hfirst hwaiting, .refl _⟩

/-- A build that rests ends as its jobs say. -/
theorem Starts.accounts (h : Starts builder.settings boxes policy queue p m)
    (ha : builder.Accepted) (hq : queue.waiting = []) (hn : boxes.length ≤ limit32)
    (hroom : Roomy p (needsBack p boxes.length) (root p boxes)) (hcalm : ∀ k, check k = .proceed)
    {result : BuildResult} (hresult : result = builder.cleared.conclude p boxes.length
      (m.run p policy check (Machine.enoughSteps boxes.length)))
    (hstructured : ∀ tree, result.outcome = .ok (.complete tree) →
      tree.Structured boxes.length) :
    ∃ jobs, Accounts boxes policy queue jobs
      (m.jobsStarted p policy check (Machine.enoughSteps boxes.length)) result := by
  have hsteps := h.not_aborted ha hq hn hroom hcalm
  have hdeals := (h.deals hq).iterate hsteps (Machine.enoughSteps boxes.length)
  have hw := hsteps (Machine.enoughSteps boxes.length)
  obtain ⟨hr, hwaiting, sk, lost, hlast, -⟩ := h.rested ha hq hn check
  rw [Machine.run_eq_iterate] at hr hwaiting hlast hresult
  rw [List.append_nil] at hdeals
  obtain ⟨hkept, hreported⟩ := hdeals.rested hr hwaiting
  generalize (Machine.step p policy check)^[Machine.enoughSteps boxes.length] m = last at *
  generalize m.jobsStarted p policy check (Machine.enoughSteps boxes.length) = ran at *
  have hnodup := hkept.nodup_iff.2 (policy.nodup_kept _ _)
  have hlost : ∀ id, IsLeast {id | id < last.nextChunk ∧ id ∉ ran} id →
      result.outcome = .error (.error (MergeFault.unreported id).toError) := by
    intro id hfirst
    simp only [hreported.mem_iff] at hfirst
    have herr := hlast.assemble_of_unreported hw hr hroom (hreported.nodup_iff.1 hnodup) hfirst
    simp only [hresult, conclude, hlast.failure hw, hw, herr]
    rfl
  refine ⟨last.nextChunk, ?_, hnodup, fun id => hkept.mem_iff.trans Policy.mem_kept, ⟨?_, ?_⟩,
    hstructured, hlost⟩
  · rw [hresult, queue_conclude]
    exact hdeals.submitted
  · rintro ⟨tree, hcomplete⟩
    by_contra hall
    obtain ⟨id, hleast⟩ := exists_first_lost hall
    cases hcomplete.symm.trans (hlost id hleast)
  · intro hall
    have hids : (last.reports.map fun r => r.chunk.id).Perm (List.range last.nextChunk) := by
      refine hreported.symm.trans ?_
      rw [List.perm_ext_iff_of_nodup hnodup List.nodup_range]
      intro id
      rw [List.mem_range]
      exact ⟨fun hid => (Policy.mem_kept.1 (hkept.mem_iff.1 hid)).1, hall id⟩
    obtain ⟨chunks, hcollect, -, -⟩ := collect_eq hids
    obtain ⟨-, -, hl⟩ := hlast.done_of_collect hw hcollect
    rw [hresult]
    exact conclude_of_roomy hlast hw hr hwaiting hl hroom

/-- **A build does not overlook a lost job.** Let a build without nested threads over up to `2 ^ 31`
boxes go on unstopped, whatever jobs its queue keeps and in whatever order they are run. It runs the
jobs that were kept, none of them twice, and is complete exactly when these are all of them. Then it
has a whole tree; else it names the first chunk whose job was not run. -/
theorem build_accounted (ha : builder.Accepted) (hserial : builder.settings.nestedThreads = 0)
    (hq : queue.waiting = []) (hne : boxes ≠ []) (hn : boxes.length ≤ 2 ^ 31)
    (hcalm : ∀ k, check k = .proceed) :
    ∃ p m jobs, start builder.settings boxes policy queue = .ok (p, m) ∧
      Accounts boxes policy queue jobs
        (m.jobsStarted p policy check (Machine.enoughSteps boxes.length))
        (builder.build boxes policy check queue) := by
  obtain ⟨p, hplan, hnested⟩ := plan_serial hserial policy.platform boxes
  have hle : boxes.length ≤ limit32 := hn.trans (by decide)
  have hask : check.ask 0 = .ok false := by rw [Check.ask, hcalm]
  have hroom := roomy_of_serial ha hplan hnested hne hn
  have hstructured : ∀ tree, (builder.build boxes policy check queue).outcome =
      .ok (.complete tree) → tree.Structured boxes.length := by
    intro tree h
    obtain ⟨t, places, hgrown⟩ := grown_of_complete ha hq h
    exact hgrown.structured fun hempty => absurd hempty hne
  rcases start_cases builder.settings boxes policy queue with ⟨f, herr, -⟩ | ⟨p', m, hstart, hm⟩
  · cases hplan.symm.trans herr
  · cases hplan.symm.trans hm.plan
    have hresult := @build_eq builder boxes policy check queue hle hne hask
    rw [hstart] at hresult
    obtain ⟨jobs, haccounts⟩ := hm.accounts ha hq hle hroom hcalm hresult hstructured
    exact ⟨p, m, jobs, hstart, haccounts⟩

/-- Where only the first job is kept, the part that it submits is missed. -/
theorem fine_accounted : ∃ p m jobs,
    start fine.settings row (.keeping .fifo 1) {} = .ok (p, m) ∧
      Accounts row (.keeping .fifo 1) {} jobs
        (m.jobsStarted p (.keeping .fifo 1) .never (Machine.enoughSteps row.length))
        (fine.build row (.keeping .fifo 1) .never {}) ∧
      (fine.build row (.keeping .fifo 1) .never {}).outcome =
        .error (.error (.internal s!"chunk {1} was never reported")) := by
  obtain ⟨p, m, jobs, hstart, h⟩ := @build_accounted fine row (.keeping .fifo 1) .never {}
    fine_accepted rfl rfl nofun (by decide) fun _ => rfl
  have hcount : (fine.build row (.keeping .fifo 1) .never {}).queue.submitted = 0 + 2 := by
    decide +kernel
  have hjobs : jobs = 2 := Nat.add_left_cancel (h.submitted.symm.trans hcount)
  have hzero := (h.kept 0).2 ⟨by omega, rfl⟩
  have hone : ¬ (1 < jobs ∧ Policy.keeps (.keeping .fifo 1) (0 + 1) = true) :=
    fun hkept => absurd hkept.2 (by decide)
  refine ⟨p, m, jobs, hstart, h, h.lost 1 ⟨⟨by omega, mt (h.kept 1).1 hone⟩, ?_⟩⟩
  rintro id ⟨-, hid⟩
  exact Nat.pos_of_ne_zero fun heq => hid (heq ▸ hzero)

end Builder

end BoxTree
