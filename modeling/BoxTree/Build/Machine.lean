import BoxTree.Build.Task
import BoxTree.Jobs.Queue
/-!
# The build machine

A build in progress: the object buffers that all tasks share, the jobs that wait, the chunks
that are finished, and the task that is running. A step starts a job, works off one piece of
the running task, or ends it. Tasks run one at a time; which job is next is up to a policy.
-/

namespace BoxTree

/-- What a finished task hands back. -/
structure Report where
  chunk : Chunk
  stats : Statistics

/-- A build in progress. -/
structure Machine where
  buffers : Buffers
  watch : Watch
  queue : JobQueue BuildJob
  /-- The number of chunk numbers given out. -/
  nextChunk : Nat
  /-- The reports of the finished tasks, the last one first. -/
  reports : List Report := []
  /-- The first failure of a task. -/
  failure : Option BuildError := none
  running : Option Task := none

namespace Machine

/-- Ends the running task with a failure, which stops every other task. The first failure is
kept. -/
def fail (m : Machine) (f : Failure) : Machine :=
  { m with
    failure := some (m.failure.getD f.toError)
    watch := { m.watch with aborted := true }
    queue := m.queue.finish false
    running := none }

/-- Ends the running task. A task of a build that is to stop reports nothing. -/
def complete (m : Machine) (t : Task) : Machine :=
  { m with
    reports := if m.watch.aborted then m.reports else ⟨t.chunk, t.stats⟩ :: m.reports
    queue := m.queue.finish false
    running := none }

/-- Starts a job that was taken off the queue. -/
def startJob (check : Check) (m : Machine) (j : BuildJob) : Machine :=
  match (Watch.shouldStop check).runFrom m.watch with
  | (.error f, watch) => { m with watch := watch }.fail f
  | (.ok true, watch) => { m with watch := watch, queue := m.queue.finish false }
  | (.ok false, watch) =>
    let m := { m with watch := watch }
    match Task.start j with
    | .ok t => { m with running := some t }
    | .error e => m.fail (.error e)

/-- Works off the first piece of a task. -/
def work (p : Plan) (policy : Policy) (check : Check) (m : Machine) (t : Task) (w : Work)
    (rest : List Work) : Machine :=
  match m, t with
  | ⟨buffers, watch, queue, nextChunk, reports, failure, _⟩, ⟨chunk, stats, table, _⟩ =>
    match (Task.decide p (Watch.shouldStop check) buffers table w).runFrom watch with
    | (.error f, watch) => fail ⟨buffers, watch, queue, nextChunk, reports, failure, none⟩ f
    | (.ok (decision, table), watch) =>
      match Effect.perform p { buffers, chunk, stats, nextChunk } w decision with
      | .error f => fail ⟨.released, watch, queue, nextChunk, reports, failure, none⟩ f
      | .ok ⟨buffers, chunk, stats, nextChunk, work, job⟩ =>
        let queue :=
          match job with
          | some j => queue.submit policy j
          | none => queue
        ⟨buffers, watch, queue, nextChunk, reports, failure,
          some ⟨chunk, stats, table, work ++ rest⟩⟩

/-- A build is finished when no task is running and no job waits. -/
def isFinished (m : Machine) : Bool := m.running.isNone && m.queue.waiting.isEmpty

/-- One step of a build; a finished one stays as it is. -/
def step (p : Plan) (policy : Policy) (check : Check) (m : Machine) : Machine :=
  match m with
  | ⟨buffers, watch, queue, nextChunk, reports, failure, some task⟩ =>
    let m : Machine := ⟨buffers, watch, queue, nextChunk, reports, failure, none⟩
    match task with
    | ⟨chunk, stats, table, []⟩ => m.complete ⟨chunk, stats, table, []⟩
    | ⟨chunk, stats, table, w :: rest⟩ =>
      m.work p policy check ⟨chunk, stats, table, []⟩ w rest
  | ⟨buffers, watch, queue, nextChunk, reports, failure, none⟩ =>
    match queue.start? policy with
    | none => ⟨buffers, watch, queue, nextChunk, reports, failure, none⟩
    | some (j, queue) =>
      startJob check ⟨buffers, watch, queue, nextChunk, reports, failure, none⟩ j

theorem step_of_isFinished {p : Plan} {policy : Policy} {check : Check} {m : Machine}
    (h : m.isFinished) : m.step p policy check = m := by
  obtain ⟨buffers, watch, queue, nextChunk, reports, failure, running⟩ := m
  simp only [isFinished, Bool.and_eq_true, Option.isNone_iff_eq_none, List.isEmpty_iff] at h
  obtain ⟨rfl, hw⟩ := h
  simp only [step, JobQueue.start?_eq_none_iff.2 hw]

/-- Runs a build until it is finished, for at most `fuel` steps. -/
def run (p : Plan) (policy : Policy) (check : Check) : (fuel : Nat) → Machine → Machine
  | 0, m => m
  | fuel + 1, m => if m.isFinished then m else run p policy check fuel (m.step p policy check)

/-- Enough steps for a build over a number of objects: a tree has fewer than twice as many
nodes, each of them is worked on at most twice, and there are no more jobs than objects. -/
def enoughSteps (count : Nat) : Nat := 6 * count + 8

end Machine

end BoxTree
