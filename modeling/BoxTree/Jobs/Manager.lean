import BoxTree.Fault
import BoxTree.Jobs.Queue
/-!
# Job managers

A manager runs jobs on a number of threads. Without threads it is inline: jobs wait until
somebody waits for them, and then run in the order of their submission on the thread that
waits, so that the fault of a job reaches the one who waits and leaves later jobs queued. With
threads a fault is only counted. The jobs here are written down beforehand: a job leaves its
mark, submits further jobs and may end in a fault.
-/

namespace BoxTree

/-- A job: the mark it leaves, the jobs it submits when it is run, and whether it ends in a
fault after that. -/
inductive Job where
  | mk (mark : Int) (followers : List Job) (faults : Bool)

namespace Job

/-- The mark of a job. -/
def mark : Job → Int
  | mk m _ _ => m

/-- The jobs a job submits. -/
def followers : Job → List Job
  | mk _ js _ => js

/-- Whether a job ends in a fault. -/
def faults : Job → Bool
  | mk _ _ f => f

mutual

/-- The number of jobs that come of a job, itself included. -/
def size : Job → Nat
  | mk _ js _ => sizeAll js + 1

/-- The number of jobs that come of a list of jobs. -/
def sizeAll : List Job → Nat
  | [] => 0
  | j :: js => size j + sizeAll js

end

end Job

/-- A manager of jobs. -/
structure Manager where
  name : String
  threads : Nat
  queue : JobQueue Job := {}
  /-- The marks of the jobs that have run, in the order they were started. -/
  log : List Int := []

namespace Manager

/-- A manager with a name. Its threads bear the name too, and the name of a thread must not hold
the character number zero; a manager without threads may have any name. -/
def named (name : String) (threads : Nat) : Except Fault Manager :=
  if threads ≠ 0 ∧ Char.ofNat 0 ∈ name.toList then
    .error (.assertion "thread name may not contain interior null bytes")
  else .ok { name := name, threads := threads }

/-- A manager with the usual name. -/
def ofThreads (threads : Nat) : Manager := { name := "task-manager", threads := threads }

/-- A manager without threads, named for it. -/
def inline : Manager := { name := "inline-task-manager", threads := 0 }

/-- Without threads every name will do. -/
theorem named_zero (name : String) : named name 0 = .ok { name := name, threads := 0 } := by
  simp [named]

/-- The usual name will do for any number of threads. -/
theorem named_usual (threads : Nat) : named "task-manager" threads = .ok (ofThreads threads) := by
  simp [named, ofThreads]

/-- Whether jobs run on the thread that waits for them. -/
def isInline (m : Manager) : Bool := m.threads = 0

/-- Submits a job. -/
def submit (m : Manager) (j : Job) : Manager := { m with queue := m.queue.submit .fifo j }

/-- Submits several jobs, in their order. -/
def submitAll (m : Manager) (js : List Job) : Manager :=
  { m with queue := m.queue.submitAll .fifo js }

/-- Runs one job that has been taken off the queue: it leaves its mark, submits its followers
and finishes. -/
def runJob (m : Manager) (j : Job) : Manager :=
  let m := { m with log := m.log ++ [j.mark] }
  let m := m.submitAll j.followers
  { m with queue := m.queue.finish j.faults }

/-- Runs waiting jobs until none is left or, inline, one ends in a fault; at most `fuel` of
them. -/
def drain : (fuel : Nat) → Manager → Manager × Except Fault Unit
  | 0, m => (m, .ok ())
  | fuel + 1, m =>
    match m.queue.start? .fifo with
    | none => (m, .ok ())
    | some (j, queue) =>
      let m := { m with queue := queue }.runJob j
      if j.faults && m.isInline then (m, .error (.check none)) else drain fuel m

/-- Waits until no job is outstanding. Every job that can still run is counted by the sizes of
the waiting ones. -/
def wait (m : Manager) : Manager × Except Fault Unit := drain (Job.sizeAll m.queue.waiting) m

end Manager

/-- The marks of jobs in the order they run under a policy, when they are submitted together
and submit nothing themselves. -/
def orderRun (p : Policy) (marks : List Int) : List Int :=
  let rec go : (fuel : Nat) → JobQueue Int → List Int
    | 0, _ => []
    | fuel + 1, q =>
      match q.start? p with
      | none => []
      | some (m, q) => m :: go fuel (q.finish false)
  go marks.length (({} : JobQueue Int).submitAll p marks)

end BoxTree
