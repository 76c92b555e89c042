import BoxTree.Build.Machine
import BoxTree.Proofs.Growth.Performing
/-!
# The steps of the machine

`Machine.Steps` lists what a step can do: the machine rests, a job is refused, skipped or started,
the running task ends, or one piece of its work fails or advances the build. Everything that holds
of all runs is shown case by case of this list (`step_steps`), and by induction over a run.
-/

namespace BoxTree

open Asking

/-- The region, if a decision makes a leaf of it. -/
def Decision.leafOf (r : Region) : Decision → Option Region
  | .leaf _ => some r
  | _ => none

namespace Machine

/-- The task of a job at its start. -/
def taskOf (j : BuildJob) : Task :=
  { chunk := (Chunk.empty j.chunk).grown, pending := [.split 0 j.region] }

/-- The queue after a piece of work, which may have submitted a job. -/
def queueAfter (policy : Policy) (q : JobQueue BuildJob) : Option BuildJob → JobQueue BuildJob
  | some j => q.submit policy j
  | none => q

/-- The machine after a piece of work that has changed what `e` says. -/
def advanced (policy : Policy) (m : Machine) (w : Watch) (e : Effect) (table : Array Scalar)
    (rest : List Work) : Machine :=
  { m with
    buffers := e.buffers
    watch := w
    queue := queueAfter policy m.queue e.job
    nextChunk := e.nextChunk
    running := some ⟨e.chunk, e.stats, table, e.work ++ rest⟩ }

/-- What a piece of work may change of a machine and its running task. -/
def effectOf (m : Machine) (t : Task) : Effect :=
  { buffers := m.buffers, chunk := t.chunk, stats := t.stats, nextChunk := m.nextChunk }

/-- What a step can do. -/
inductive Steps (p : Plan) (policy : Policy) (check : Check) (m : Machine) : Machine → Prop where
  /-- No task is running and no job waits. -/
  | rest (hr : m.running = none) (hw : m.queue.waiting = []) : Steps p policy check m m
  /-- A job is taken off the queue, but the check fails. -/
  | refuse {j : BuildJob} {queue : JobQueue BuildJob} {f : Failure} {w : Watch}
      (hr : m.running = none) (hj : m.queue.start? policy = some (j, queue))
      (hask : (Watch.shouldStop check).runFrom m.watch = (.error f, w)) :
    Steps p policy check m (fail { m with queue := queue, watch := w } f)
  /-- A job is taken off the queue by a build that is to stop. -/
  | skip {j : BuildJob} {queue : JobQueue BuildJob} {w : Watch}
      (hr : m.running = none) (hj : m.queue.start? policy = some (j, queue))
      (hask : (Watch.shouldStop check).runFrom m.watch = (.ok true, w)) :
    Steps p policy check m { m with queue := queue.finish false, watch := w }
  /-- A job is started. -/
  | start {j : BuildJob} {queue : JobQueue BuildJob} {w : Watch}
      (hr : m.running = none) (hj : m.queue.start? policy = some (j, queue))
      (hask : (Watch.shouldStop check).runFrom m.watch = (.ok false, w)) :
    Steps p policy check m { m with queue := queue, watch := w, running := some (taskOf j) }
  /-- The running task has nothing left to do. -/
  | finish {t : Task} (hr : m.running = some t) (ht : t.pending = []) :
    Steps p policy check m (complete { m with running := none } t)
  /-- The running task fails to decide. -/
  | balk {t : Task} {work : Work} {rest : List Work} {f : Failure} {w : Watch}
      (hr : m.running = some t) (ht : t.pending = work :: rest)
      (hd : (Task.decide p (Watch.shouldStop check) m.buffers t.table work).runFrom m.watch =
        (.error f, w)) :
    Steps p policy check m (fail { m with running := none, watch := w } f)
  /-- The running task fails to carry out what it decided. -/
  | spoil {t : Task} {work : Work} {rest : List Work} {d : Decision} {table : Array Scalar}
      {f : Failure} {w : Watch} (hr : m.running = some t) (ht : t.pending = work :: rest)
      (hd : (Task.decide p (Watch.shouldStop check) m.buffers t.table work).runFrom m.watch =
        (.ok (d, table), w))
      (hp : Effect.perform p (effectOf m t) work d = .error f) :
    Steps p policy check m
      (fail { m with running := none, watch := w, buffers := .released } f)
  /-- The running task carries out what it decided. -/
  | advance {t : Task} {work : Work} {rest : List Work} {d : Decision} {table : Array Scalar}
      {e : Effect} {w : Watch} (hr : m.running = some t) (ht : t.pending = work :: rest)
      (hd : (Task.decide p (Watch.shouldStop check) m.buffers t.table work).runFrom m.watch =
        (.ok (d, table), w))
      (hp : Effect.perform p (effectOf m t) work d = .ok e) :
    Steps p policy check m (m.advanced policy w e table rest)

/-- The region that the next step makes a leaf of, if it makes one. -/
def leafMade (p : Plan) (check : Check) (m : Machine) : Option Region :=
  match m.running with
  | none => none
  | some t =>
    match t.pending with
    | [] => none
    | work :: _ =>
      match (Task.decide p (Watch.shouldStop check) m.buffers t.table work).runFrom m.watch with
      | (.error _, _) => none
      | (.ok (d, _), _) =>
        match Effect.perform p (effectOf m t) work d with
        | .error _ => none
        | .ok _ => d.leafOf work.region

variable {p : Plan} {policy : Policy} {check : Check} {m : Machine} {t : Task} {work : Work}
  {rest : List Work} {d : Decision} {table : Array Scalar} {f : Failure} {e : Effect} {w : Watch}

theorem leafMade_of_idle (hr : m.running = none) : m.leafMade p check = none := by
  simp only [leafMade, hr]

theorem leafMade_of_done (hr : m.running = some t) (ht : t.pending = []) :
    m.leafMade p check = none := by
  simp only [leafMade, hr, ht]

theorem leafMade_of_balk (hr : m.running = some t) (ht : t.pending = work :: rest)
    (hd : (Task.decide p (Watch.shouldStop check) m.buffers t.table work).runFrom m.watch =
      (.error f, w)) : m.leafMade p check = none := by
  simp only [leafMade, hr, ht, hd]

theorem leafMade_of_spoil (hr : m.running = some t) (ht : t.pending = work :: rest)
    (hd : (Task.decide p (Watch.shouldStop check) m.buffers t.table work).runFrom m.watch =
      (.ok (d, table), w))
    (hp : Effect.perform p (effectOf m t) work d = .error f) : m.leafMade p check = none := by
  simp only [leafMade, hr, ht, hd, hp]

theorem leafMade_of_advance (hr : m.running = some t) (ht : t.pending = work :: rest)
    (hd : (Task.decide p (Watch.shouldStop check) m.buffers t.table work).runFrom m.watch =
      (.ok (d, table), w))
    (hp : Effect.perform p (effectOf m t) work d = .ok e) :
    m.leafMade p check = d.leafOf work.region := by
  simp only [leafMade, hr, ht, hd, hp]

/-- **A step does one of the things that are listed.** -/
theorem step_steps (p : Plan) (policy : Policy) (check : Check) (m : Machine) :
    Steps p policy check m (m.step p policy check) := by
  obtain ⟨buffers, watch, queue, nextChunk, reports, failure, running⟩ := m
  cases running with
  | none =>
    simp only [step]
    cases hj : queue.start? policy with
    | none => exact .rest rfl (JobQueue.start?_eq_none_iff.1 hj)
    | some taken =>
      obtain ⟨j, queue'⟩ := taken
      simp only [startJob]
      rcases hask : (Watch.shouldStop check).runFrom watch with ⟨f | b, w⟩
      · exact .refuse rfl hj hask
      · cases b with
        | true => exact .skip rfl hj hask
        | false => exact .start rfl hj hask
  | some t =>
    obtain ⟨chunk, stats, table, pending⟩ := t
    cases pending with
    | nil => exact .finish rfl rfl
    | cons w rest =>
      simp only [step, work]
      rcases hd : (Task.decide p (Watch.shouldStop check) buffers table w).runFrom watch with
        ⟨f | ⟨d, table'⟩, w'⟩
      · exact .balk (t := ⟨chunk, stats, table, w :: rest⟩) rfl rfl hd
      · simp only
        cases hp : Effect.perform p { buffers, chunk, stats, nextChunk } w d with
        | error f => exact .spoil (t := ⟨chunk, stats, table, w :: rest⟩) rfl rfl hd hp
        | ok e =>
          obtain ⟨buffers', chunk', stats', nextChunk', work', job⟩ := e
          have hadvance : Steps p policy check _ (advanced policy _ w' _ table' rest) :=
            .advance (t := ⟨chunk, stats, table, w :: rest⟩)
              (m := ⟨buffers, watch, queue, nextChunk, reports, failure, _⟩) rfl rfl hd hp
          cases job with
          | none => exact hadvance
          | some j => exact hadvance

end Machine

end BoxTree
