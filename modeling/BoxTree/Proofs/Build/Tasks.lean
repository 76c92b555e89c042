import BoxTree.Proofs.Growth.Runs
import BoxTree.Proofs.Tree.Finished
/-!
# The tasks of a build

The tasks of every build are run as tasks may be: at every point the running one is at a point of a
run of its own, and it has decided to stop only if the build is to stop (`Machine.Tasked`). So all
that holds of runs of tasks holds of the tasks of builds (`Builder.tasks_orderly`).
-/

namespace BoxTree

open Asking

/-- What goes on after a question ends as it does for one of the two answers. -/
theorem Asking.ask_then {α : Type} {check : Check} {k : Bool → Asking Watch α} {a : α}
    {w w' : Watch} (h : (Watch.shouldStop check >>= k).runFrom w = (.ok a, w')) :
    (∃ w₁ : Watch, w₁.aborted = true ∧ (k true).runFrom w₁ = (.ok a, w')) ∨
      ∃ w₁, (k false).runFrom w₁ = (.ok a, w') := by
  rw [runFrom_bind] at h
  rcases ask_cases check w with ⟨w₁, heq, hw₁, -⟩ | ⟨w₁, heq, -, -⟩ | ⟨_, _, w₁, -, heq⟩
  · rw [heq] at h
    exact .inl ⟨w₁, hw₁, h⟩
  · rw [heq] at h
    exact .inr ⟨w₁, h⟩
  · rw [heq] at h
    cases h

namespace Task

variable {p : Plan} {check : Check} {b : Buffers} {table table' : Array Scalar} {w w' : Watch}

theorem aborted_of_decideSplit {r : Region} (h : (decideSplit p (Watch.shouldStop check) b r
    table).runFrom w = (.ok (.stop, table'), w')) : w'.aborted = true := by
  unfold decideSplit at h
  rcases ask_then h with ⟨w₁, hw₁, h⟩ | ⟨w₁, h⟩
  · cases h
    exact hw₁
  · simp only [Bool.false_eq_true, if_false] at h
    split at h
    · cases h
    · split at h
      · cases h
      · rw [runFrom_bind] at h
        generalize (p.findSplit (Watch.shouldStop check) b r table).runFrom w₁ = found at h
        rcases found with ⟨f | ⟨found, table₁⟩, w₂⟩
        · cases h
        -- after the search the check is asked once more
        · rcases ask_then h with ⟨w₃, hw₃, h⟩ | ⟨w₃, h⟩
          · cases h
            exact hw₃
          · cases found with
            | none => cases h
            | some s =>
              simp only [Bool.false_eq_true, if_false] at h
              split at h <;> cases h

theorem aborted_of_decideHalve {r : Region}
    (h : (decideHalve p (Watch.shouldStop check) r).runFrom w = (.ok .stop, w')) :
    w'.aborted = true := by
  unfold decideHalve at h
  rcases ask_then h with ⟨w₁, hw₁, h⟩ | ⟨w₁, h⟩
  · cases h
    exact hw₁
  · simp only [Bool.false_eq_true, if_false] at h
    split at h <;> cases h

/-- **A task decides to stop only when its build is to stop.** -/
theorem aborted_of_stop {work : Work} (h : (decide p (Watch.shouldStop check) b table work).runFrom
    w = (.ok (.stop, table'), w')) : w'.aborted = true := by
  cases work with
  | split slot r => exact aborted_of_decideSplit h
  | halve slot r =>
    rw [decide, runFrom_bind] at h
    rcases hd : (decideHalve p (Watch.shouldStop check) r).runFrom w with ⟨f | d, w₁⟩
    · rw [hd] at h
      cases h
    · rw [hd] at h
      cases h
      exact aborted_of_decideHalve hd

end Task

namespace Machine

/-- The tasks of a build run as tasks may: the jobs that wait are to fill chunks whose numbers were
given out, and the running task is at a point of its run. -/
structure Tasked (p : Plan) (m : Machine) : Prop where
  waiting : ∀ j ∈ m.queue.waiting, j.chunk < m.nextChunk
  running : ∀ t, m.running = some t → ∃ j ds jobs, Task.Run p j ds jobs m.nextChunk t ∧
    (.stop ∈ ds → m.watch.aborted = true)

variable {p : Plan} {policy : Policy} {check : Check} {m m' : Machine}

/-- A job that waits after a piece of work has waited before, or was submitted by it. -/
theorem mem_waiting_queueAfter {queue : JobQueue BuildJob} {job : Option BuildJob} {j : BuildJob}
    (h : j ∈ (queueAfter policy queue job).waiting) : j ∈ queue.waiting ∨ job = some j := by
  obtain ⟨extra, hperm, -⟩ := queueAfter_perm policy queue job
  rcases List.mem_append.1 (hperm.mem_iff.1 (List.mem_append_left extra h)) with h | h
  · exact .inr (Option.mem_toList.1 h)
  · exact .inl h

namespace Tasked

/-- A build whose task has ended, and which gives out no number. -/
theorem idle (h : m.Tasked p) (hr : m'.running = none) (hnext : m'.nextChunk = m.nextChunk)
    (hwaiting : ∀ j ∈ m'.queue.waiting, j ∈ m.queue.waiting) : m'.Tasked p where
  waiting j hj := hnext ▸ h.waiting j (hwaiting j hj)
  running t ht := by rw [hr] at ht; cases ht

/-- **A step of a build is one of its task**, or starts or ends one. -/
theorem step (h : m.Tasked p) (policy : Policy) (check : Check) :
    (m.step p policy check).Tasked p := by
  have hsteps := step_steps p policy check m
  generalize m.step p policy check = m' at hsteps ⊢
  have hrest : ∀ j queue, m.queue.start? policy = some (j, queue) →
      ∀ i ∈ queue.waiting, i ∈ m.queue.waiting :=
    fun _ _ hj i hi => (JobQueue.perm_of_start? hj).mem_iff.2 (List.mem_cons_of_mem _ hi)
  cases hsteps with
  | rest => exact h
  | @refuse j queue f w hr hj hask => exact h.idle rfl rfl (hrest j queue hj)
  | @skip j queue w hr hj hask => exact h.idle hr rfl (hrest j queue hj)
  | finish => exact h.idle rfl rfl fun _ => id
  | balk => exact h.idle rfl rfl fun _ => id
  | spoil => exact h.idle rfl rfl fun _ => id
  | @start j queue w hr hj hask =>
    refine ⟨fun i hi => h.waiting i (hrest j queue hj i hi), fun t ht => ?_⟩
    cases ht
    have hid := h.waiting j ((JobQueue.perm_of_start? hj).mem_iff.2 List.mem_cons_self)
    exact ⟨j, [], [], .start rfl hid, nofun⟩
  | @advance t work rest d table e w hr ht hd hperform =>
    have hnumbers := Effect.numbers_perform rfl hperform
    obtain ⟨j, ds, jobs, hrun, hstop⟩ := h.running t hr
    refine ⟨fun i hi => ?_, fun t' ht' => ?_⟩
    · change i.chunk < e.nextChunk
      rw [hnumbers.nextChunk]
      rcases mem_waiting_queueAfter hi with hi | hi
      · exact Nat.lt_of_lt_of_le (h.waiting i hi) (Nat.le_add_right _ _)
      · rw [hnumbers.job i hi, hi]
        exact Nat.lt_succ_self _
    · cases ht'
      have hyields : Effect.Yields p (effectOf m t) work d (.ok e) := hperform ▸ .performed d
      refine ⟨j, _, _, hrun.step ht (Nat.le_refl _) hyields, fun hmem => ?_⟩
      -- a build that is to stop is still to stop
      rcases List.mem_append.1 hmem with hbefore | hnow
      · have hab := hstop hbefore
        cases (Task.decide_of_aborted p check m.buffers t.table work hab).symm.trans hd
        exact hab
      · cases List.mem_singleton.1 hnow
        exact Task.aborted_of_stop hd

theorem iterate (h : m.Tasked p) (policy : Policy) (check : Check) (k : Nat) :
    ((Machine.step p policy check)^[k] m).Tasked p := by
  induction k generalizing m with
  | zero => exact h
  | succ k ih => exact ih (h.step policy check)

end Tasked

end Machine

namespace Builder

theorem tasked_of_start {s : Settings} {boxes : List Box} {policy : Policy}
    {queue : JobQueue BuildJob} {p : Plan} {m : Machine} (hq : queue.waiting = [])
    (hstart : start s boxes policy queue = .ok (p, m)) : m.Tasked p := by
  obtain ⟨p', -, hstart⟩ := bind_eq_ok_iff.1 hstart
  obtain ⟨buffers, -, hstart⟩ := bind_eq_ok_iff.1 hstart
  cases hstart
  refine ⟨fun j hj => ?_, nofun⟩
  rcases @Machine.mem_waiting_queueAfter policy queue (some _) j hj with hj | hj
  · rw [hq] at hj
    cases hj
  · cases hj
    exact Nat.zero_lt_one

/-- **Tasks are orderly.** Whatever a task decides, whatever becomes of the buffers, and whether it
is stopped or not, it writes only into slots that were taken and are empty, every slot but the first
is the child of one node before it, and each other chunk that it names has one job. The tasks of
every build are run so, and decide to stop only if the build is to stop. -/
theorem tasks_orderly :
    (∀ (p : Plan) (j : BuildJob) (ds : List Decision) (jobs : List BuildJob) (next : Nat)
      (t : Task), Task.Run p j ds jobs next t → t.Orderly p ds jobs) ∧
    ∀ (s : Settings) (boxes : List Box) (policy : Policy) (check : Check)
      (queue : JobQueue BuildJob) (p : Plan) (m : Machine), queue.waiting = [] →
      start s boxes policy queue = .ok (p, m) →
        ∀ k, ((Machine.step p policy check)^[k] m).Tasked p :=
  ⟨fun _ _ _ _ _ _ hrun => hrun.orderly, fun _ _ policy check _ _ _ hq hstart k =>
    (tasked_of_start hq hstart).iterate policy check k⟩

/-- The second task in the build of three boxes, once it has nothing left to do. -/
theorem fine_tasks_orderly : ∃ p m t ds jobs, start fine.settings row .lifo {} = .ok (p, m) ∧
    ((Machine.step p .lifo .never)^[7] m).running = some t ∧
    (t.chunk.id = 1 ∧ t.chunk.children = [1] ∧ t.chunk.others = [2] ∧ t.pending = []) ∧
    .stop ∉ ds ∧ t.Orderly p ds jobs := by
  have hran : (start fine.settings row .lifo {}).toOption.any (fun (p, m) =>
      let m' := (Machine.step p .lifo .never)^[7] m
      !m'.watch.aborted && m'.running.any fun (t : Task) =>
        t.chunk.id = 1 ∧ t.chunk.children = [1] ∧ t.chunk.others = [2] ∧ t.pending = []) := by
    decide +kernel
  rcases start_cases fine.settings row .lifo {} with ⟨f, hplan, -⟩ | ⟨p, m, hstart, -⟩
  · cases hplan
  · rw [hstart] at hran
    obtain ⟨hasked, hran⟩ := Bool.and_eq_true_iff.1 hran
    obtain ⟨t, ht, hchunk⟩ := (Option.any_eq_true _ _).1 hran
    obtain ⟨j, ds, jobs, hrun, hstop⟩ :=
      (tasks_orderly.2 fine.settings row .lifo .never {} p m rfl hstart 7).running t ht
    refine ⟨p, m, t, ds, jobs, hstart, ht, of_decide_eq_true hchunk, fun hmem => ?_,
      tasks_orderly.1 p j ds jobs _ t hrun⟩
    cases (hstop hmem).symm.trans (Bool.not_eq_true' _ ▸ hasked)

end Builder

end BoxTree
