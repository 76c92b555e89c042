import BoxTree.Proofs.Jobs.Waits
/-!
# Batches of jobs

Jobs that are submitted together are done with all that comes of them. However the threads of a
manager share them, one more event can happen until none is outstanding, and then each was run
exactly once, whichever of them faulted (`Workshop.Tells.exists_step`, `Workshop.Tells.settled`).
Without threads this takes more than one wait: every fault cuts one short, and the wait after the
last of them finishes the batch (`Manager.batch_completes`).
-/

namespace BoxTree

open JobEvent Workshop

theorem Job.length_le_allOf (js : List Job) : js.length ≤ (allOf js).length := by
  induction js with
  | nil => exact Nat.zero_le _
  | cons j js ih =>
    rw [allOf_cons, List.length_cons, List.length_cons, List.length_append]
    omega

/-- Jobs are done: none is left, each was run exactly once, and the faults among them are
counted. -/
structure Manager.Settled (m : Manager) (batch : List Job) (m' : Manager) : Prop where
  waiting : m'.queue.waiting = []
  outstanding : m'.queue.outstanding = 0
  panicked : m'.queue.panicked = m.queue.panicked + batch.countP Job.faults
  ran : ∃ ran : List Job, ran.Perm batch ∧ m'.log = m.log ++ ran.map Job.mark

/-! ## Jobs on threads -/

namespace Workshop

variable {p : Policy} {m : Manager} {w : Workshop} {es : List JobEvent}

/-- **There is an end to it**: every job that comes of a batch is submitted, started and finished at
most once. -/
theorem Tells.length_le (h : Tells m es w) :
    es.length ≤ 3 * (Job.allOf (offers es)).length := by
  have hsubmitted := h.submitted.length_eq
  have hstarted := h.started.length_eq
  have hdue := h.due.length_eq
  have hwaiting := Job.length_le_allOf w.manager.queue.waiting
  rw [List.length_append] at hsubmitted hstarted hdue
  rw [List.length_append] at hdue
  have hlength := length_eq es
  omega

/-- **Threads are never stuck**: as long as a job is outstanding, one can be started, submit the
next of its followers or finish, whatever became of others. -/
theorem Tells.exists_step (h : Tells m es w) (p : Policy)
    (hleft : w.manager.queue.outstanding ≠ 0) : ∃ e w', Step p w e w' ∧ e.offer? = none := by
  obtain ⟨m', running⟩ := w
  cases running with
  | cons r after =>
    obtain ⟨j, rest⟩ := r
    cases rest with
    | nil => exact ⟨_, _, .finish m' [] after j, rfl⟩
    | cons next rest => exact ⟨_, _, .follow m' [] after j next rest, rfl⟩
  | nil =>
    have houtstanding := h.outstanding_eq
    have hwaiting : m'.queue.waiting ≠ [] := by
      intro hempty
      rw [houtstanding] at hleft
      exact hleft (congrArg List.length hempty)
    cases hnext : m'.queue.start? p with
    | none => exact absurd (JobQueue.start?_eq_none_iff.1 hnext) hwaiting
    | some next => exact ⟨.started next.1, _, .start m'.hands_pos hnext, rfl⟩

/-- **Nothing is outstanding only when all is done**, each job exactly once. -/
theorem Tells.settled (h : Tells m es w) (hdone : w.manager.queue.outstanding = 0) :
    w.running = [] ∧ (finishes es).Perm (Job.allOf (offers es)) ∧
      m.Settled (Job.allOf (offers es)) w.manager := by
  have houtstanding := h.outstanding_eq
  have hwaiting : w.manager.queue.waiting = [] := List.length_eq_zero_iff.1 (by omega)
  have hrunning : w.running = [] := List.length_eq_zero_iff.1 (by omega)
  have hstarts : (starts es).Perm (Job.allOf (offers es)) := by
    have hdue := h.due
    rwa [hwaiting, hrunning, Job.allOf_nil, List.flatMap_nil, List.append_nil, List.append_nil]
      at hdue
  have hfinishes : (finishes es).Perm (starts es) := by
    have hstarted := h.started
    rwa [hrunning, List.map_nil, List.append_nil] at hstarted
  refine ⟨hrunning, hfinishes.trans hstarts, hwaiting, hdone, ?_, starts es, hstarts, h.log⟩
  rw [h.panicked, (hfinishes.trans hstarts).countP_eq]

end Workshop

/-! ## Jobs that wait for one who waits -/

namespace Manager

variable {m : Manager} {calls : List Call} {js : List Job}

theorem starts_flatMap_events (ran : List Job) : starts (ran.flatMap Job.events) = ran := by
  induction ran with
  | nil => rfl
  | cons j ran ih =>
    have hfollowers : starts (j.followers.map followed) = [] := by
      simp [starts, List.filterMap_eq_nil_iff, start?]
    have hjob : starts j.events = [j] := by
      change j :: starts (j.followers.map followed ++ [finished j]) = [j]
      rw [starts_append, hfollowers]
      rfl
    rw [List.flatMap_cons, starts_append, hjob, ih, List.singleton_append]

theorem offers_flatMap_events (ran : List Job) : offers (ran.flatMap Job.events) = [] := by
  refine List.filterMap_eq_nil_iff.2 fun e he => ?_
  obtain ⟨j, -, he⟩ := List.mem_flatMap.1 he
  simp only [Job.events, List.mem_cons, List.mem_append, List.mem_map, List.not_mem_nil,
    or_false] at he
  rcases he with rfl | ⟨_, -, rfl⟩ | rfl <;> rfl

theorem offers_map_offered (js : List Job) : offers (js.map offered) = js := by
  rw [offers, List.filterMap_map]
  exact List.filterMap_some

/-- The jobs of a batch, which are then waited for a number of times. -/
def waits (js : List Job) (count : Nat) : List Call := .submitAll js :: List.replicate count .wait

theorem waits_succ (js : List Job) (count : Nat) :
    waits js (count + 1) = waits js count ++ [.wait] := by
  rw [waits, List.replicate_succ']
  rfl

theorem offers_waits (m : Manager) (js : List Job) (count : Nat) :
    offers (m.history (waits js count)) = js := by
  induction count with
  | zero => exact (congrArg offers (List.append_nil _)).trans (offers_map_offered js)
  | succ count ih =>
    rw [waits_succ, history_concat, offers_append, ih, eventsOf, offers_flatMap_events,
      List.append_nil]

theorem starts_waits_succ (m : Manager) (js : List Job) (count : Nat) :
    starts (m.history (waits js (count + 1))) =
      starts (m.history (waits js count)) ++ (m.after (waits js count)).waited := by
  rw [waits_succ, history_concat, starts_append, eventsOf, starts_flatMap_events]

theorem tells_waits (hq : m.queue.waiting = []) (hidle : m.queue.outstanding = 0) (js : List Job)
    (count : Nat) : Tells m (m.history (waits js count)) ⟨m.after (waits js count), []⟩ :=
  (runs_history m _).tells hq hidle

/-- The jobs that one more wait runs are of the batch. -/
theorem countP_starts_le (hq : m.queue.waiting = []) (hidle : m.queue.outstanding = 0)
    (js : List Job) (count : Nat) :
    (starts (m.history (waits js count))).countP Job.faults ≤ (Job.allOf js).countP Job.faults := by
  have hdue := (tells_waits hq hidle js count).due
  rw [offers_waits] at hdue
  rw [← hdue.countP_eq, List.countP_append]
  exact Nat.le_add_right _ _

/-- **What one more wait does**: it returns when the batch is done, and then no job that it ran has
faulted on the thread that waits; or a fault cuts it short, the one fault of the jobs it ran. -/
theorem wait_cases (hq : m.queue.waiting = []) (hidle : m.queue.outstanding = 0) (js : List Job)
    (count : Nat) :
    ((m.after (waits js count)).wait.2 = .ok () ∧
      m.Settled (Job.allOf js) (m.after (waits js count)).wait.1 ∧
      (m.isInline → (starts (m.history (waits js count))).countP Job.faults =
        (Job.allOf js).countP Job.faults)) ∨
    (m.isInline ∧ (m.after (waits js count)).wait.2 = .error (.check none) ∧
      (starts (m.history (waits js (count + 1)))).countP Job.faults =
        (starts (m.history (waits js count))).countP Job.faults + 1) := by
  have hinline : (m.after (waits js count)).isInline = m.isInline :=
    congrArg (fun threads => decide (threads = 0)) (tells_waits hq hidle js count).threads
  have hended := ended_wait (m.after (waits js count))
  have htells := tells_waits hq hidle js (count + 1)
  have hstarts := starts_waits_succ m js count
  have hafter : m.after (waits js (count + 1)) = (m.after (waits js count)).wait.1 := by
    rw [waits_succ, after_concat]
    rfl
  rw [hafter] at htells
  cases hresult : (m.after (waits js count)).wait.2 with
  | ok =>
    obtain ⟨hwaiting, hran⟩ := hended.of_ok hresult
    have hdone : (m.after (waits js count)).wait.1.queue.outstanding = 0 := by
      rw [htells.outstanding_eq]
      exact congrArg List.length hwaiting
    have hsettled := (htells.settled hdone).2.2
    have hdue := htells.due
    rw [offers_waits] at hsettled hdue
    refine .inl ⟨rfl, hsettled, fun hm => ?_⟩
    -- nothing is due, and the jobs of this wait have not faulted
    rw [hwaiting, Job.allOf_nil, List.flatMap_nil, List.append_nil, List.append_nil] at hdue
    rw [← hdue.countP_eq, hstarts, List.countP_append,
      List.countP_eq_zero.2 (hran (hinline.trans hm)), Nat.add_zero]
  | error fault =>
    obtain ⟨⟨hm, rfl⟩, ran, j, hwaited, hran, hfaults⟩ := hended.of_error hresult
    refine .inr ⟨hinline.symm.trans hm, rfl, ?_⟩
    rw [hstarts, hwaited, List.countP_append, List.countP_append, List.countP_eq_zero.2 hran,
      List.countP_singleton, if_pos hfaults]

/-- Each wait of an inline manager ends with one fault of the batch, as long as there are any. -/
theorem countP_starts_waits (hq : m.queue.waiting = []) (hidle : m.queue.outstanding = 0)
    (hm : m.isInline) {count : Nat} (hcount : count ≤ (Job.allOf js).countP Job.faults) :
    (starts (m.history (waits js count))).countP Job.faults = count := by
  induction count with
  | zero =>
    have hnone : starts (m.history (waits js 0)) = [] :=
      (congrArg starts (List.append_nil _)).trans (starts_eventsOf Call.noConfusion)
    rw [hnone]
    rfl
  | succ count ih =>
    have hbefore := ih (Nat.le_of_succ_le hcount)
    rcases wait_cases hq hidle js count with ⟨-, -, hall⟩ | ⟨-, -, hnext⟩
    · have hall := hall hm
      omega
    · rw [hnext, hbefore]

/-- As long as there are faults left, the next of them cuts a wait short. -/
theorem wait_of_lt (hq : m.queue.waiting = []) (hidle : m.queue.outstanding = 0)
    (hm : m.isInline) {count : Nat} (hcount : count < (Job.allOf js).countP Job.faults) :
    (m.after (waits js count)).wait.2 = .error (.check none) := by
  rcases wait_cases hq hidle js count with ⟨-, -, hall⟩ | ⟨-, herror, -⟩
  · have hall := hall hm
    rw [countP_starts_waits hq hidle hm (Nat.le_of_lt hcount)] at hall
    omega
  · exact herror

/-- The wait after the last fault finishes the batch. -/
theorem wait_of_eq (hq : m.queue.waiting = []) (hidle : m.queue.outstanding = 0)
    (hm : m.isInline) {count : Nat} (hcount : count = (Job.allOf js).countP Job.faults) :
    (m.after (waits js count)).wait.2 = .ok () ∧
      m.Settled (Job.allOf js) (m.after (waits js count)).wait.1 := by
  rcases wait_cases hq hidle js count with ⟨hok, hsettled, -⟩ | ⟨-, -, hnext⟩
  · exact ⟨hok, hsettled⟩
  · have hle := countP_starts_le hq hidle js (count + 1)
    rw [hnext, countP_starts_waits hq hidle hm (Nat.le_of_eq hcount)] at hle
    omega

/-! ## Both ways of running a batch -/

/-- What becomes of a batch of jobs that is submitted to an idle manager. -/
structure Completes (m : Manager) (js : List Job) : Prop where
  /-- Threads that share the jobs in whatever order come to an end, are never stuck before it, and
  have then run each job exactly once. -/
  shared : ∀ p es w, Runs p ⟨m, []⟩ es w → offers es = js →
    es.length ≤ 3 * (Job.allOf js).length ∧
    (w.manager.queue.outstanding ≠ 0 → ∃ e w', Step p w e w' ∧ e.offer? = none) ∧
    (w.manager.queue.outstanding = 0 → w.running = [] ∧ (finishes es).Perm (Job.allOf js) ∧
      m.Settled (Job.allOf js) w.manager)
  /-- With threads, or without a fault, one wait returns when the batch is done. -/
  returns : (¬ m.isInline ∨ (Job.allOf js).countP Job.faults = 0) →
    (m.submitAll js).wait.2 = .ok () ∧ m.Settled (Job.allOf js) (m.submitAll js).wait.1
  /-- Without threads every fault of the batch reaches the one who waits, one at a time. -/
  cut : m.isInline → ∀ count < (Job.allOf js).countP Job.faults,
    (m.after (waits js count)).wait.2 = .error (.check none)
  /-- The wait after the last fault returns when the batch is done. -/
  resumed : m.isInline → ∀ count, count = (Job.allOf js).countP Job.faults →
    (m.after (waits js count)).wait.2 = .ok () ∧
      m.Settled (Job.allOf js) (m.after (waits js count)).wait.1

/-- **A batch of jobs is done exactly once**, with all that comes of it and whichever of them fault.
With threads no fault reaches the one who waits; without, each of them cuts a wait short and leaves
the jobs after it to the next. -/
theorem batch_completes (hq : m.queue.waiting = []) (hidle : m.queue.outstanding = 0)
    (js : List Job) : m.Completes js where
  shared p es w hruns hes := by
    have htells := hruns.tells hq hidle
    subst hes
    exact ⟨htells.length_le, htells.exists_step p, htells.settled⟩
  returns h := by
    change (m.after (waits js 0)).wait.2 = _ ∧ m.Settled _ (m.after (waits js 0)).wait.1
    by_cases hm : m.isInline
    · exact wait_of_eq hq hidle hm (h.resolve_left (not_not_intro hm)).symm
    · rcases wait_cases hq hidle js 0 with ⟨hok, hsettled, -⟩ | ⟨hinline, -⟩
      · exact ⟨hok, hsettled⟩
      · exact absurd hinline hm
  cut hm _ hcount := wait_of_lt hq hidle hm hcount
  resumed hm _ hcount := wait_of_eq hq hidle hm hcount

/-- Two faults among three jobs, one of which comes of another: a manager with threads does not show
them, an inline one needs three waits. -/
theorem family_completes :
    (ofThreads 2).queue.waiting = [] ∧ inline.queue.waiting = [] ∧
    (ofThreads 2).queue.outstanding = 0 ∧ inline.queue.outstanding = 0 ∧
    (Job.allOf [.mk 1 [.mk 3 [] true] true, .mk 2 [] false]).countP Job.faults = 2 ∧
    (ofThreads 2).Completes [.mk 1 [.mk 3 [] true] true, .mk 2 [] false] ∧
    inline.Completes [.mk 1 [.mk 3 [] true] true, .mk 2 [] false] :=
  ⟨rfl, rfl, rfl, rfl, by decide, batch_completes rfl rfl _, batch_completes rfl rfl _⟩

/-- Without threads a fault reaches the one who waits, and the job behind it is not run. -/
theorem inline_interrupted :
    (inline.submitAll [.mk 1 [] true, .mk 2 [] false]).wait.2 = .error (.check none) ∧
    (inline.submitAll [.mk 1 [] true, .mk 2 [] false]).wait.1.log = [1] ∧
    (inline.submitAll [.mk 1 [] true, .mk 2 [] false]).wait.1.queue.outstanding = 1 :=
  ⟨rfl, by decide, by decide⟩

end Manager

end BoxTree
