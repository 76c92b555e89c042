import BoxTree.Proofs.Jobs.Events
/-!
# Waiting for jobs

A wait runs jobs one after the other, and each of them is a start, its submissions and an end
(`Manager.runs_wait`). So whatever is said of events holds of everything that a caller does to a
manager. Without threads, jobs are started in the order of their submission and by no one but the
one who waits, whether a wait returns or is cut short by a fault (`Manager.inline_orderly`).
-/

namespace BoxTree

open JobEvent Workshop

/-- What happens while a job is run by the one who waits for it. -/
def Job.events (j : Job) : List JobEvent :=
  .started j :: (j.followers.map .followed ++ [.finished j])

namespace Manager

/-- The jobs that a wait runs, in their order, out of at most `fuel` of them. -/
def drained : (fuel : Nat) → Manager → List Job
  | 0, _ => []
  | fuel + 1, m =>
    match m.queue.start? .fifo with
    | none => []
    | some (j, queue) =>
      j :: if j.faults && m.isInline then [] else drained fuel ({ m with queue := queue }.runJob j)

/-- The jobs that a wait runs, in their order. -/
def waited (m : Manager) : List Job := drained (Job.sizeAll m.queue.waiting) m

/-- What a caller does to a manager. -/
inductive Call where
  | submit (j : Job)
  | submitAll (js : List Job)
  | wait

/-- What a call leaves, and whether it returns. -/
def perform (m : Manager) : Call → Manager × Except Fault Unit
  | .submit j => (m.submit j, .ok ())
  | .submitAll js => (m.submitAll js, .ok ())
  | .wait => m.wait

/-- What happens during a call. -/
def eventsOf (m : Manager) : Call → List JobEvent
  | .submit j => [.offered j]
  | .submitAll js => js.map .offered
  | .wait => m.waited.flatMap Job.events

/-- What calls leave one after the other; a fault that reaches the caller is caught. -/
def after (m : Manager) (calls : List Call) : Manager :=
  calls.foldl (fun m call => (m.perform call).1) m

/-- What happens during calls one after the other. -/
def history (m : Manager) : List Call → List JobEvent
  | [] => []
  | call :: calls => m.eventsOf call ++ (m.perform call).1.history calls

variable {m : Manager} {j : Job} {queue : JobQueue Job} {p : Policy} {fuel : Nat}

theorem after_concat (m : Manager) (calls : List Call) (call : Call) :
    m.after (calls ++ [call]) = ((m.after calls).perform call).1 := by
  rw [after, List.foldl_append]
  rfl

theorem history_append (m : Manager) (calls calls' : List Call) :
    m.history (calls ++ calls') = m.history calls ++ (m.after calls).history calls' := by
  induction calls generalizing m with
  | nil => rfl
  | cons call calls ih =>
    rw [List.cons_append, history, ih, history, List.append_assoc]
    rfl

theorem history_concat (m : Manager) (calls : List Call) (call : Call) :
    m.history (calls ++ [call]) = m.history calls ++ (m.after calls).eventsOf call := by
  rw [history_append, history, history, List.append_nil]

/-! ## One job -/

theorem waiting_submitAll (m : Manager) (js : List Job) :
    (m.submitAll js).queue.waiting = m.queue.waiting ++ js := by
  induction js generalizing m with
  | nil => exact (List.append_nil _).symm
  | cons j js ih => exact (ih (m.submit j)).trans (List.append_assoc _ [j] js)

/-- Running a job puts its followers behind all that wait. -/
theorem waiting_runJob (m : Manager) (j : Job) :
    (m.runJob j).queue.waiting = m.queue.waiting ++ j.followers :=
  waiting_submitAll { m with log := m.log ++ [j.mark] } j.followers

theorem isInline_runJob (m : Manager) (queue : JobQueue Job) (j : Job) :
    ({ m with queue := queue }.runJob j).isInline = m.isInline := rfl

/-- A job that is run is one less that is due. -/
theorem sizeAll_runJob (h : m.queue.start? .fifo = some (j, queue)) :
    Job.sizeAll ({ m with queue := queue }.runJob j).queue.waiting + 1 =
      Job.sizeAll m.queue.waiting := by
  rw [waiting_runJob, JobQueue.waiting_of_start?_fifo h, Job.sizeAll_append, Job.sizeAll_cons]
  change Job.sizeAll queue.waiting + Job.sizeAll j.followers + 1 = _
  omega

/-- Jobs that are submitted from outside one after the other. -/
theorem runs_submitAll (p : Policy) (m : Manager) (js : List Job) :
    Runs p ⟨m, []⟩ (js.map .offered) ⟨m.submitAll js, []⟩ := by
  induction js generalizing m with
  | nil => exact .rest
  | cons j js ih => exact (Runs.single (.offer ⟨m, []⟩ j)).append (ih (m.submit j))

/-- A running job submits its followers one after the other. -/
theorem runs_followers (p : Policy) (m : Manager) (j : Job) (js : List Job) :
    Runs p ⟨m, [⟨j, js⟩]⟩ (js.map .followed) ⟨m.submitAll js, [⟨j, []⟩]⟩ := by
  induction js generalizing m with
  | nil => exact .rest
  | cons next rest ih =>
    exact (Runs.single (.follow m [] [] j next rest)).append (ih (m.submit next))

/-- **A job is run in events.** -/
theorem runs_runJob (h : m.queue.start? p = some (j, queue)) :
    Runs p ⟨m, []⟩ j.events ⟨{ m with queue := queue }.runJob j, []⟩ := by
  have hstart : Step p ⟨m, []⟩ (.started j) _ := .start m.hands_pos h
  exact (Runs.single hstart).append ((runs_followers p _ j j.followers).append
    (.single (.finish _ [] [] j)))

/-! ## A wait -/

theorem drain_of_none (fuel : Nat) (h : m.queue.start? .fifo = none) :
    drain fuel m = (m, .ok ()) ∧ drained fuel m = [] := by
  cases fuel with
  | zero => exact ⟨rfl, rfl⟩
  | succ fuel => simp only [drain, drained, h, and_self]

/-- A job that faults ends a wait on the thread that runs it. -/
theorem drain_of_faults (fuel : Nat) (h : m.queue.start? .fifo = some (j, queue))
    (hfaults : (j.faults && m.isInline) = true) :
    drain (fuel + 1) m = ({ m with queue := queue }.runJob j, .error (.check none)) ∧
      drained (fuel + 1) m = [j] := by
  simp only [drain, drained, h, isInline_runJob, hfaults, if_true, and_self]

/-- Any other job is followed by those that wait after it. -/
theorem drain_of_runs (fuel : Nat) (h : m.queue.start? .fifo = some (j, queue))
    (hruns : (j.faults && m.isInline) = false) :
    drain (fuel + 1) m = drain fuel ({ m with queue := queue }.runJob j) ∧
      drained (fuel + 1) m = j :: drained fuel ({ m with queue := queue }.runJob j) := by
  simp only [drain, drained, h, isInline_runJob, hruns, Bool.false_eq_true, if_false, and_self]

/-- **A wait is made of events.** -/
theorem runs_drain (fuel : Nat) (m : Manager) :
    Runs .fifo ⟨m, []⟩ ((drained fuel m).flatMap Job.events) ⟨(drain fuel m).1, []⟩ := by
  induction fuel generalizing m with
  | zero => exact .rest
  | succ fuel ih =>
    cases hnext : m.queue.start? .fifo with
    | none =>
      obtain ⟨hdrain, hdrained⟩ := drain_of_none (fuel + 1) hnext
      rw [hdrain, hdrained]
      exact .rest
    | some next =>
      obtain ⟨j, queue⟩ := next
      have hjob := runs_runJob hnext
      cases hstop : j.faults && m.isInline with
      | true =>
        obtain ⟨hdrain, hdrained⟩ := drain_of_faults fuel hnext hstop
        rw [hdrain, hdrained, List.flatMap_singleton]
        exact hjob
      | false =>
        obtain ⟨hdrain, hdrained⟩ := drain_of_runs fuel hnext hstop
        rw [hdrain, hdrained, List.flatMap_cons]
        exact hjob.append (ih _)

theorem runs_wait (m : Manager) :
    Runs .fifo ⟨m, []⟩ (m.waited.flatMap Job.events) ⟨m.wait.1, []⟩ := runs_drain _ m

/-- How jobs that are run until none waits can end. -/
inductive Ended (m : Manager) : List Job → Manager → Except Fault Unit → Prop
  /-- No job is left, and no fault has reached the one who waits. -/
  | empty {ran : List Job} {m' : Manager} (hempty : m'.queue.waiting = [])
      (hran : m.isInline → ∀ j ∈ ran, ¬ j.faults) : Ended m ran m' (.ok ())
  /-- A job has ended in a fault on the thread that waits, and no job before it has. -/
  | fault (ran : List Job) {m' : Manager} {j : Job} (hinline : m.isInline)
      (hran : ∀ j ∈ ran, ¬ j.faults) (hfaults : j.faults) :
      Ended m (ran ++ [j]) m' (.error (.check none))

theorem Ended.of_ok {m' : Manager} {ran : List Job} {result : Except Fault Unit}
    (h : Ended m ran m' result) (hok : result = .ok ()) :
    m'.queue.waiting = [] ∧ (m.isInline → ∀ j ∈ ran, ¬ j.faults) := by
  cases h with
  | empty hempty hran => exact ⟨hempty, hran⟩
  | fault => cases hok

theorem Ended.of_error {m' : Manager} {all : List Job} {result : Except Fault Unit}
    {fault : Fault} (h : Ended m all m' result) (herror : result = .error fault) :
    (m.isInline ∧ fault = .check none) ∧
      ∃ ran j, all = ran ++ [j] ∧ (∀ i ∈ ran, ¬ i.faults) ∧ j.faults := by
  cases h with
  | empty => cases herror
  | fault ran hinline hran hfaults =>
    cases herror
    exact ⟨⟨hinline, rfl⟩, _, _, rfl, hran, hfaults⟩

theorem Ended.cons {m' w : Manager} {ran : List Job} {result : Except Fault Unit}
    (h : Ended m' ran w result) (hsame : m'.isInline = m.isInline)
    (hj : m.isInline → ¬ j.faults) : Ended m (j :: ran) w result := by
  cases h with
  | empty hempty hran =>
    exact .empty hempty fun hinline =>
      List.forall_mem_cons.2 ⟨hj hinline, hran (hsame.trans hinline)⟩
  | @fault ran w i hinline hran hfaults =>
    have hinline : m.isInline := hsame.symm.trans hinline
    exact .fault (j :: ran) hinline (List.forall_mem_cons.2 ⟨hj hinline, hran⟩) hfaults

/-- Jobs are run until none waits or, inline, one faults; there are no more of them than their
sizes tell. -/
theorem ended_drain (h : Job.sizeAll m.queue.waiting ≤ fuel) :
    Ended m (drained fuel m) (drain fuel m).1 (drain fuel m).2 := by
  induction fuel generalizing m with
  | zero =>
    refine .empty (Decidable.byContradiction fun hne => ?_) fun _ j hj => nomatch hj
    have hne : m.queue.waiting ≠ [] := hne
    obtain ⟨j, rest, hwaiting⟩ := List.exists_cons_of_ne_nil hne
    rw [hwaiting, Job.sizeAll_cons] at h
    omega
  | succ fuel ih =>
    cases hnext : m.queue.start? .fifo with
    | none =>
      obtain ⟨hdrain, hdrained⟩ := drain_of_none (fuel + 1) hnext
      rw [hdrain, hdrained]
      exact .empty (JobQueue.start?_eq_none_iff.1 hnext) fun _ j hj => nomatch hj
    | some next =>
      obtain ⟨j, queue⟩ := next
      cases hstop : j.faults && m.isInline with
      | true =>
        obtain ⟨hdrain, hdrained⟩ := drain_of_faults fuel hnext hstop
        obtain ⟨hfaults, hinline⟩ := Bool.and_eq_true_iff.1 hstop
        rw [hdrain, hdrained]
        exact .fault [] hinline (fun j hj => nomatch hj) hfaults
      | false =>
        obtain ⟨hdrain, hdrained⟩ := drain_of_runs fuel hnext hstop
        have hsize := sizeAll_runJob hnext
        have hj : m.isInline → ¬ j.faults := by
          intro hinline hfaults
          rw [hfaults, hinline] at hstop
          cases hstop
        rw [hdrain, hdrained]
        exact (ih (by omega)).cons rfl hj

/-- **A wait ends** with no job left, or with the first fault that reaches the one who waits. -/
theorem ended_wait (m : Manager) : Ended m m.waited m.wait.1 m.wait.2 := ended_drain (Nat.le_refl _)

/-! ## Calls -/

/-- A call is made of events. -/
theorem runs_perform (m : Manager) (call : Call) :
    Runs .fifo ⟨m, []⟩ (m.eventsOf call) ⟨(m.perform call).1, []⟩ := by
  cases call with
  | submit j => exact .single (.offer ⟨m, []⟩ j)
  | submitAll js => exact runs_submitAll .fifo m js
  | wait => exact runs_wait m

/-- **Calls are made of events.** -/
theorem runs_history (m : Manager) (calls : List Call) :
    Runs .fifo ⟨m, []⟩ (m.history calls) ⟨m.after calls, []⟩ := by
  induction calls generalizing m with
  | nil => exact .rest
  | cons call calls ih => exact (runs_perform m call).append (ih _)

/-- Submitting a job does not start any. -/
theorem starts_eventsOf {call : Call} (h : call ≠ .wait) : starts (m.eventsOf call) = [] := by
  cases call with
  | submit j => rfl
  | submitAll js =>
    refine List.filterMap_eq_nil_iff.2 fun e he => ?_
    obtain ⟨j, -, rfl⟩ := List.mem_map.1 he
    rfl
  | wait => exact absurd rfl h

/-- Jobs run in the order of their submission, on the thread that waits for them and on no other,
and the manager counts them. -/
structure Orderly (m : Manager) (calls : List Call) : Prop where
  /-- What the calls do is made of events. At every point between two of them, jobs were started in
  the order of their submission, those not started wait in that order, and the counts are those of
  the past. -/
  points : ∀ past future, m.history calls = past ++ future →
    ∃ w, Runs .fifo ⟨m, []⟩ past w ∧ Runs .fifo w future ⟨m.after calls, []⟩ ∧
      starts past ++ w.manager.queue.waiting = submissions past ∧ Tells m past w
  /-- No job is started but by a wait. -/
  patient : ∀ before call rest, calls = before ++ call :: rest → call ≠ .wait →
    starts ((m.after before).eventsOf call) = []
  /-- A wait that returns leaves no job. -/
  returned : ∀ before rest, calls = before ++ .wait :: rest →
    ((m.after before).perform .wait).2 = .ok () →
    (m.after (before ++ [.wait])).queue.waiting = [] ∧
      (m.after (before ++ [.wait])).queue.outstanding = 0
  /-- A wait that is cut short ends with the one job of it that faults, and leaves the jobs that
  were submitted and not started, in their order. -/
  unwound : ∀ before rest fault, calls = before ++ .wait :: rest →
    ((m.after before).perform .wait).2 = .error fault →
    (∃ ran j, (m.after before).waited = ran ++ [j] ∧ (∀ i ∈ ran, ¬ i.faults) ∧ j.faults) ∧
      starts (m.history (before ++ [.wait])) ++ (m.after (before ++ [.wait])).queue.waiting =
        submissions (m.history (before ++ [.wait]))

/-- At every point of what calls do, the counts are those of the past. -/
theorem exists_point {calls : List Call} {past future : List JobEvent}
    (hq : m.queue.waiting = []) (hidle : m.queue.outstanding = 0)
    (h : m.history calls = past ++ future) :
    ∃ w, Runs .fifo ⟨m, []⟩ past w ∧ Runs .fifo w future ⟨m.after calls, []⟩ ∧
      starts past ++ w.manager.queue.waiting = submissions past ∧ Tells m past w := by
  obtain ⟨w, hpast, hfuture⟩ := (h ▸ runs_history m calls).exists_between
  exact ⟨w, hpast, hfuture, hpast.starts_append_waiting hq, hpast.tells hq hidle⟩

/-- **Without threads, whatever is submitted and however often one waits**, jobs are started in the
order of their submission and only by a wait, the manager counts those that have not finished and
those that faulted, and neither a wait that returns nor one that is cut short loses any. -/
theorem inline_orderly (name : String) (calls : List Call) :
    Orderly { name := name, threads := 0 } calls where
  points _ _ h := exists_point rfl rfl h
  patient _ _ _ _ h := starts_eventsOf h
  returned before rest _ hok := by
    have hruns := runs_history { name := name, threads := 0 } (before ++ [.wait])
    have houtstanding := (hruns.tells rfl rfl).outstanding_eq
    have hended := (ended_wait (Manager.after { name := name, threads := 0 } before)).of_ok hok
    rw [after_concat] at houtstanding ⊢
    refine ⟨hended.1, ?_⟩
    rw [houtstanding]
    exact congrArg List.length hended.1
  unwound before rest fault _ herror := by
    have hruns := runs_history { name := name, threads := 0 } (before ++ [.wait])
    exact ⟨((ended_wait _).of_error herror).2, hruns.starts_append_waiting rfl⟩

/-- The first job submits the third and faults; the second and the third are run by the next
wait. -/
example :
    let calls := [.submitAll [.mk 1 [.mk 3 [] false] true, .mk 2 [] false], Call.wait]
    (inline.after calls).log = [1] ∧ (inline.after (calls ++ [.wait])).log = [1, 2, 3] := by
  decide

end Manager

end BoxTree
