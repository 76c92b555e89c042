import BoxTree.Jobs.Manager
import Mathlib.Algebra.Order.Group.Multiset
import Mathlib.Tactic.Abel
/-!
# What happens at a manager

A job that is submitted waits until a free hand takes it off the queue. It leaves its mark, submits
its followers one after the other, and finishes. A manager with threads has as many hands; an inline
one has the hand of whoever waits. Between any two of these events the counts of the manager are
those of its past (`Workshop.Runs.tells`), and jobs that are taken oldest first are started in the
order of their submission (`Workshop.Runs.starts_append_waiting`).
-/

namespace BoxTree

/-! ## Jobs and all that come of them -/

namespace Job

mutual

/-- A job and all jobs that come of it. -/
def all : Job → List Job
  | mk mark js faults => mk mark js faults :: allOf js

/-- Jobs and all that come of them. -/
def allOf : List Job → List Job
  | [] => []
  | j :: js => all j ++ allOf js

end

@[simp] theorem allOf_nil : allOf [] = [] := by rw [allOf]

theorem allOf_cons (j : Job) (js : List Job) :
    allOf (j :: js) = j :: (allOf j.followers ++ allOf js) := by
  cases j
  rw [allOf, all]
  rfl

theorem allOf_eq_flatMap (js : List Job) : allOf js = js.flatMap all := by
  induction js with
  | nil => rw [allOf]; rfl
  | cons j js ih => rw [allOf, ih, List.flatMap_cons]

theorem allOf_append (js ks : List Job) : allOf (js ++ ks) = allOf js ++ allOf ks := by
  simp only [allOf_eq_flatMap, List.flatMap_append]

theorem sizeAll_cons (j : Job) (js : List Job) :
    sizeAll (j :: js) = sizeAll j.followers + 1 + sizeAll js := by
  cases j
  rw [sizeAll, size]
  rfl

theorem sizeAll_append (js ks : List Job) : sizeAll (js ++ ks) = sizeAll js + sizeAll ks := by
  induction js with
  | nil => rw [List.nil_append, sizeAll, Nat.zero_add]
  | cons j js ih => rw [List.cons_append, sizeAll_cons, sizeAll_cons, ih, ← Nat.add_assoc]

end Job

/-! ## Events -/

/-- What happens at a manager. -/
inductive JobEvent where
  /-- A job is submitted from outside. -/
  | offered (j : Job)
  /-- A job is submitted by a running one. -/
  | followed (j : Job)
  | started (j : Job)
  | finished (j : Job)

namespace JobEvent

/-- The job that is submitted from outside. -/
def offer? : JobEvent → Option Job
  | offered j => some j
  | _ => none

/-- The job that is submitted, from outside or by a running job. -/
def submission? : JobEvent → Option Job
  | offered j | followed j => some j
  | _ => none

/-- The job that is started. -/
def start? : JobEvent → Option Job
  | started j => some j
  | _ => none

/-- The job that has finished. -/
def finish? : JobEvent → Option Job
  | finished j => some j
  | _ => none

/-- The jobs that were submitted from outside. -/
def offers (es : List JobEvent) : List Job := es.filterMap offer?

/-- All jobs that were submitted, in their order. -/
def submissions (es : List JobEvent) : List Job := es.filterMap submission?

/-- The jobs that were started, in their order. -/
def starts (es : List JobEvent) : List Job := es.filterMap start?

/-- The jobs that have finished. -/
def finishes (es : List JobEvent) : List Job := es.filterMap finish?

theorem offers_append (es es' : List JobEvent) : offers (es ++ es') = offers es ++ offers es' :=
  List.filterMap_append

theorem starts_append (es es' : List JobEvent) : starts (es ++ es') = starts es ++ starts es' :=
  List.filterMap_append

theorem offers_concat (es : List JobEvent) (e : JobEvent) :
    offers (es ++ [e]) = offers es ++ e.offer?.toList := by
  cases e <;> simp [offers, offer?]

theorem submissions_concat (es : List JobEvent) (e : JobEvent) :
    submissions (es ++ [e]) = submissions es ++ e.submission?.toList := by
  cases e <;> simp [submissions, submission?]

theorem starts_concat (es : List JobEvent) (e : JobEvent) :
    starts (es ++ [e]) = starts es ++ e.start?.toList := by
  cases e <;> simp [starts, start?]

theorem finishes_concat (es : List JobEvent) (e : JobEvent) :
    finishes (es ++ [e]) = finishes es ++ e.finish?.toList := by
  cases e <;> simp [finishes, finish?]

/-- Every event is a submission, a start or an end. -/
theorem length_eq (es : List JobEvent) :
    es.length = (submissions es).length + (starts es).length + (finishes es).length := by
  induction es with
  | nil => rfl
  | cons e es ih =>
    rw [List.length_cons, ih]
    cases e <;> simp only [submissions, starts, finishes, List.filterMap_cons, submission?, start?,
      finish?, List.length_cons] <;> omega

end JobEvent

/-! ## Managers at work -/

/-- A running job with the jobs it has still to submit. -/
structure RunningJob where
  job : Job
  rest : List Job

/-- A manager and its running jobs. -/
structure Workshop where
  manager : Manager
  running : List RunningJob := []

/-- How many jobs can run at a time. -/
def Manager.hands (m : Manager) : Nat := max m.threads 1

theorem Manager.hands_pos (m : Manager) : 0 < m.hands :=
  Nat.zero_lt_one.trans_le (le_max_right _ _)

namespace Workshop

open JobEvent

/-- One event, where waiting jobs are taken in the order of a policy. -/
inductive Step (p : Policy) : Workshop → JobEvent → Workshop → Prop
  | offer (w : Workshop) (j : Job) :
    Step p w (.offered j) { w with manager := w.manager.submit j }
  | start {w : Workshop} {j : Job} {queue : JobQueue Job}
      (hfree : w.running.length < w.manager.hands)
      (hnext : w.manager.queue.start? p = some (j, queue)) :
    Step p w (.started j)
      ⟨{ w.manager with queue := queue, log := w.manager.log ++ [j.mark] },
        w.running ++ [⟨j, j.followers⟩]⟩
  | follow (m : Manager) (before after : List RunningJob) (j next : Job) (rest : List Job) :
    Step p ⟨m, before ++ ⟨j, next :: rest⟩ :: after⟩ (.followed next)
      ⟨m.submit next, before ++ ⟨j, rest⟩ :: after⟩
  | finish (m : Manager) (before after : List RunningJob) (j : Job) :
    Step p ⟨m, before ++ ⟨j, []⟩ :: after⟩ (.finished j)
      ⟨{ m with queue := m.queue.finish j.faults }, before ++ after⟩

/-- Events one after the other. -/
inductive Runs (p : Policy) (w : Workshop) : List JobEvent → Workshop → Prop
  | rest : Runs p w [] w
  | step {es : List JobEvent} {e : JobEvent} {w' w'' : Workshop} (h : Runs p w es w')
      (hstep : Step p w' e w'') : Runs p w (es ++ [e]) w''

/-- What the events at a manager that was idle tell of it. -/
structure Tells (m : Manager) (es : List JobEvent) (w : Workshop) : Prop where
  /-- A job that was submitted was started or waits. -/
  submitted : (starts es ++ w.manager.queue.waiting).Perm (submissions es)
  /-- A job that was started has finished or is running. -/
  started : (finishes es ++ w.running.map RunningJob.job).Perm (starts es)
  /-- All jobs that come of those from outside were started, or they will come of those that wait or
  of those that running jobs have still to submit. -/
  due : (starts es ++ (Job.allOf w.manager.queue.waiting ++
    w.running.flatMap fun r => Job.allOf r.rest)).Perm (Job.allOf (offers es))
  /-- The jobs that are outstanding were submitted and have not finished. -/
  outstanding : w.manager.queue.outstanding + (finishes es).length = (submissions es).length
  /-- What has panicked has finished with a fault. -/
  panicked : w.manager.queue.panicked = m.queue.panicked + (finishes es).countP Job.faults
  log : w.manager.log = m.log ++ (starts es).map Job.mark
  threads : w.manager.threads = m.threads

variable {p : Policy} {m : Manager} {w w' w'' : Workshop} {es es' : List JobEvent} {e : JobEvent}

/-- The manager keeps every job. -/
theorem waiting_submit (m : Manager) (j : Job) :
    (m.submit j).queue.waiting = m.queue.waiting ++ [j] ∧
      (m.submit j).queue.outstanding = m.queue.outstanding + 1 ∧
      (m.submit j).queue.panicked = m.queue.panicked :=
  ⟨rfl, rfl, rfl⟩

/-- Nothing has happened yet. -/
theorem tells_nil (hq : m.queue.waiting = []) (hidle : m.queue.outstanding = 0) :
    Tells m [] ⟨m, []⟩ where
  submitted := by rw [hq]; exact .refl _
  started := .refl _
  due := by rw [hq]; exact .of_eq (by simp [starts, offers])
  outstanding := hidle
  panicked := rfl
  log := (List.append_nil _).symm
  threads := rfl

/-- The jobs that are outstanding wait or run. -/
theorem Tells.outstanding_eq (h : Tells m es w) :
    w.manager.queue.outstanding = w.manager.queue.waiting.length + w.running.length := by
  have hsubmitted := h.submitted.length_eq
  have hstarted := h.started.length_eq
  have houtstanding := h.outstanding
  rw [List.length_append] at hsubmitted hstarted
  rw [List.length_map] at hstarted
  omega

/-- A submission leaves the counts those of the past, whoever it comes from. -/
theorem Tells.submit {running running' : List RunningJob} {j : Job} {m' : Manager}
    (h : Tells m es ⟨m', running⟩) (hsubmission : e.submission? = some j)
    (hjobs : running'.map RunningJob.job = running.map RunningJob.job)
    (hdue : (Job.allOf [j] ++ running'.flatMap fun r => Job.allOf r.rest).Perm
      (Job.allOf e.offer?.toList ++ running.flatMap fun r => Job.allOf r.rest)) :
    Tells m (es ++ [e]) ⟨m'.submit j, running'⟩ := by
  have hstart : e.start? = none := by cases e <;> first | rfl | cases hsubmission
  have hfinish : e.finish? = none := by cases e <;> first | rfl | cases hsubmission
  have hstarts : starts (es ++ [e]) = starts es := by
    rw [starts_concat, hstart, Option.toList_none, List.append_nil]
  have hfinishes : finishes (es ++ [e]) = finishes es := by
    rw [finishes_concat, hfinish, Option.toList_none, List.append_nil]
  have hsubmissions : submissions (es ++ [e]) = submissions es ++ [j] := by
    rw [submissions_concat, hsubmission, Option.toList_some]
  obtain ⟨hwaiting, houtstanding, hpanicked⟩ := waiting_submit m' j
  constructor
  case submitted =>
    rw [hstarts, hsubmissions, hwaiting, ← List.append_assoc]
    exact h.submitted.append_right [j]
  case started =>
    rw [hfinishes, hstarts, hjobs]
    exact h.started
  case due =>
    have hbefore := h.due
    rw [hstarts, hwaiting, offers_concat, Job.allOf_append, Job.allOf_append]
    rw [← Multiset.coe_eq_coe] at hbefore hdue ⊢
    simp only [← Multiset.coe_add] at hbefore hdue ⊢
    rw [← hbefore, add_assoc (Job.allOf m'.queue.waiting : Multiset Job), hdue]
    abel
  case outstanding =>
    rw [hfinishes, hsubmissions, houtstanding, List.length_append, List.length_singleton,
      ← h.outstanding]
    exact Nat.add_right_comm _ _ _
  case panicked =>
    rw [hfinishes]
    exact hpanicked.trans h.panicked
  case log =>
    rw [hstarts]
    exact h.log
  case threads => exact h.threads

/-- A job that is taken off the queue is one less that waits and one more that runs. -/
theorem Tells.start {queue : JobQueue Job} {j : Job} (h : Tells m es w)
    (hnext : w.manager.queue.start? p = some (j, queue)) :
    Tells m (es ++ [.started j])
      ⟨{ w.manager with queue := queue, log := w.manager.log ++ [j.mark] },
        w.running ++ [⟨j, j.followers⟩]⟩ := by
  obtain ⟨houtstanding, hpanicked⟩ := JobQueue.counts_of_start? hnext
  have hwaiting := JobQueue.perm_of_start? hnext
  have hstarts : starts (es ++ [.started j]) = starts es ++ [j] := starts_concat es _
  have hfinishes : finishes (es ++ [.started j]) = finishes es := by
    simp [finishes_concat, finish?]
  have hsubmissions : submissions (es ++ [.started j]) = submissions es := by
    simp [submissions_concat, submission?]
  have hoffers : offers (es ++ [.started j]) = offers es := by simp [offers_concat, offer?]
  constructor
  case submitted =>
    rw [hstarts, hsubmissions, List.append_assoc]
    exact (hwaiting.symm.append_left _).trans h.submitted
  case started =>
    rw [hstarts, hfinishes, List.map_append, ← List.append_assoc]
    exact h.started.append_right [j]
  case due =>
    -- the job itself was started, and what comes of it is due from it
    have hall := hwaiting.flatMap_right Job.all
    rw [← Job.allOf_eq_flatMap, ← Job.allOf_eq_flatMap, Job.allOf_cons] at hall
    have hbefore := h.due
    rw [hstarts, hoffers]
    simp only [List.flatMap_append, List.flatMap_singleton]
    rw [← Multiset.coe_eq_coe] at hbefore hall ⊢
    simp only [← Multiset.coe_add, ← Multiset.cons_coe, ← Multiset.singleton_add] at hbefore hall ⊢
    rw [← hbefore, hall]
    abel
  case outstanding =>
    rw [hfinishes, hsubmissions, ← h.outstanding]
    exact congrArg (· + _) houtstanding
  case panicked =>
    rw [hfinishes, ← h.panicked]
    exact hpanicked
  case log =>
    rw [hstarts, List.map_append, ← List.append_assoc, ← h.log]
    rfl
  case threads => exact h.threads

/-- A job that has finished is one less that runs. -/
theorem Tells.finish {m' : Manager} {before after : List RunningJob} {j : Job}
    (h : Tells m es ⟨m', before ++ ⟨j, []⟩ :: after⟩) :
    Tells m (es ++ [.finished j])
      ⟨{ m' with queue := m'.queue.finish j.faults }, before ++ after⟩ := by
  have hstarts : starts (es ++ [.finished j]) = starts es := by simp [starts_concat, start?]
  have hfinishes : finishes (es ++ [.finished j]) = finishes es ++ [j] := finishes_concat es _
  have hsubmissions : submissions (es ++ [.finished j]) = submissions es := by
    simp [submissions_concat, submission?]
  have hoffers : offers (es ++ [.finished j]) = offers es := by simp [offers_concat, offer?]
  constructor
  case submitted =>
    rw [hstarts, hsubmissions]
    exact h.submitted
  case started =>
    rw [hstarts, hfinishes]
    refine .trans ?_ h.started
    simp only [List.map_append, List.map_cons, List.append_assoc, List.singleton_append]
    exact .append_left _ List.perm_middle.symm
  case due =>
    have hbefore := h.due
    rw [hstarts, hoffers]
    simp only [List.flatMap_append, List.flatMap_cons, Job.allOf_nil, List.nil_append]
      at hbefore ⊢
    exact hbefore
  case outstanding =>
    -- the job itself is outstanding
    have hpos : 0 < m'.queue.outstanding := by
      have hlen := h.outstanding_eq
      rw [List.length_append, List.length_cons] at hlen
      change m'.queue.outstanding = _ at hlen
      omega
    have hbefore : m'.queue.outstanding + _ = _ := h.outstanding
    rw [hfinishes, hsubmissions, List.length_append, List.length_singleton, ← hbefore]
    simp only [JobQueue.finish]
    omega
  case panicked =>
    rw [hfinishes, List.countP_append, ← Nat.add_assoc, ← h.panicked]
    simp only [JobQueue.finish, List.countP_singleton]
    cases j.faults <;> rfl
  case log =>
    rw [hstarts]
    exact h.log
  case threads => exact h.threads

/-- **Whatever happens**, the counts of a manager are those of its past. -/
theorem Tells.step (h : Tells m es w) (hstep : Step p w e w') : Tells m (es ++ [e]) w' := by
  cases hstep with
  | offer j => exact h.submit rfl rfl (.refl _)
  | start hfree hnext => exact h.start hnext
  | follow m' before after j next rest =>
    refine h.submit rfl (by simp) ?_
    -- what comes of the submitted job is no longer due from the running one
    have hrest : Job.allOf (next :: rest) = Job.allOf [next] ++ Job.allOf rest :=
      Job.allOf_append [next] rest
    simp only [List.flatMap_append, List.flatMap_cons, hrest]
    rw [← Multiset.coe_eq_coe]
    simp only [← Multiset.coe_add]
    abel
  | finish m' before after j => exact h.finish

/-- **At every point** the counts of a manager that was idle are those of its past. -/
theorem Runs.tells (h : Runs p ⟨m, []⟩ es w) (hq : m.queue.waiting = [])
    (hidle : m.queue.outstanding = 0) : Tells m es w := by
  induction h with
  | rest => exact tells_nil hq hidle
  | step _ hstep ih => exact ih.step hstep

/-! ## Runs -/

theorem Runs.single (h : Step p w e w') : Runs p w [e] w' := .step .rest h

theorem Runs.append (h : Runs p w es w') (h' : Runs p w' es' w'') :
    Runs p w (es ++ es') w'' := by
  induction h' with
  | rest => rwa [List.append_nil]
  | step _ hstep ih => exact List.append_assoc _ _ _ ▸ ih.step hstep

/-- **A run passes through every point of its past.** -/
theorem Runs.exists_between {past future : List JobEvent} (h : Runs p w (past ++ future) w') :
    ∃ between, Runs p w past between ∧ Runs p between future w' := by
  generalize hes : past ++ future = es at h
  induction h generalizing future with
  | rest =>
    obtain ⟨rfl, rfl⟩ := List.append_eq_nil_iff.1 hes
    exact ⟨w, .rest, .rest⟩
  | @step es e w' w'' hrun hstep ih =>
    rcases List.eq_nil_or_concat future with rfl | ⟨future, last, rfl⟩
    · rw [List.append_nil] at hes
      subst hes
      exact ⟨w'', hrun.step hstep, .rest⟩
    · rw [List.concat_eq_append, ← List.append_assoc] at hes
      obtain ⟨hbefore, hlast⟩ := List.append_inj' hes rfl
      cases hlast
      obtain ⟨between, hpast, hfuture⟩ := ih hbefore
      exact ⟨between, hpast, List.concat_eq_append ▸ hfuture.step hstep⟩

/-- **Oldest first, jobs are started in the order of their submission.** -/
theorem Runs.starts_append_waiting (h : Runs .fifo ⟨m, []⟩ es w) (hq : m.queue.waiting = []) :
    starts es ++ w.manager.queue.waiting = submissions es := by
  induction h with
  | rest => exact hq
  | @step es e w' w'' hrun hstep ih =>
    rw [starts_concat, submissions_concat, ← ih]
    cases hstep with
    | offer => simp [start?, submission?, waiting_submit]
    | start hfree hnext =>
      simp [start?, submission?, JobQueue.waiting_of_start?_fifo hnext]
    | follow => simp [start?, submission?, waiting_submit]
    | finish => simp [start?, submission?, JobQueue.finish]

end Workshop

end BoxTree
