import BoxTree.Platform
/-!
# Job queues

Jobs that are waiting to be run, and counts of those that are not. Which job comes next is a
policy, and so is which submitted jobs are kept at all. A policy also names the platform the jobs
run on.
-/

namespace BoxTree

/-- How waiting jobs are run. -/
structure Policy where
  /-- Whether the submission with this number, counted from zero, is kept. -/
  keeps : (submission : Nat) → Bool
  /-- The place in the queue of the next job, out of a number of waiting jobs; places are
  counted around the queue. -/
  pick : (turn waiting : Nat) → Nat
  /-- The machine the jobs run on. -/
  platform : Platform := .usual

namespace Policy

/-- Oldest first, nothing lost. -/
def fifo : Policy := { keeps := fun _ => true, pick := fun _ _ => 0 }

/-- Newest first, nothing lost. -/
def lifo : Policy := { keeps := fun _ => true, pick := fun _ waiting => waiting - 1 }

/-- The same order with only the first submissions kept. -/
def keeping (p : Policy) (count : Nat) : Policy := { p with keeps := fun k => k < count }

/-- The same order on another machine. -/
def on (p : Policy) (platform : Platform) : Policy := { p with platform }

end Policy

/-- A queue of jobs. -/
structure JobQueue (J : Type) where
  /-- The jobs that wait, oldest first. -/
  waiting : List J := []
  /-- The number of submissions so far. -/
  submitted : Nat := 0
  /-- The number of jobs started so far. -/
  started : Nat := 0
  /-- The number of submitted jobs that have not finished. -/
  outstanding : Nat := 0
  /-- The number of jobs that ended in a fault. -/
  panicked : Nat := 0

namespace JobQueue

variable {J : Type}

/-- Submits a job. -/
def submit (p : Policy) (q : JobQueue J) (j : J) : JobQueue J :=
  if p.keeps q.submitted then
    { q with
      waiting := q.waiting ++ [j]
      submitted := q.submitted + 1
      outstanding := q.outstanding + 1 }
  else { q with submitted := q.submitted + 1 }

/-- Submits jobs one after the other. -/
def submitAll (p : Policy) (q : JobQueue J) (js : List J) : JobQueue J := js.foldl (submit p) q

/-- The place of the next job among those that wait. -/
def next (p : Policy) (q : JobQueue J) : Nat :=
  p.pick q.started q.waiting.length % q.waiting.length

/-- Takes the next job off the queue, if one is waiting. -/
def start? (p : Policy) (q : JobQueue J) : Option (J × JobQueue J) :=
  match q.waiting[q.next p]? with
  | none => none
  | some j => some (j, { q with waiting := q.waiting.eraseIdx (q.next p), started := q.started + 1 })

/-- A started job has finished, with or without a fault. -/
def finish (q : JobQueue J) (faulted : Bool) : JobQueue J :=
  { q with
    outstanding := q.outstanding - 1
    panicked := if faulted then q.panicked + 1 else q.panicked }

theorem next_lt {p : Policy} {q : JobQueue J} (h : q.waiting ≠ []) :
    q.next p < q.waiting.length :=
  Nat.mod_lt _ (List.length_pos_iff.2 h)

/-- **Jobs wait until they are started.** There is a next job as long as one waits. -/
theorem start?_eq_none_iff {p : Policy} {q : JobQueue J} :
    q.start? p = none ↔ q.waiting = [] := by
  refine ⟨fun h => Decidable.byContradiction fun hne => ?_, fun h => ?_⟩
  · rw [start?, List.getElem?_eq_getElem (next_lt hne)] at h
    cases h
  · simp only [start?, h, List.getElem?_nil]

/-- A submitted job that is kept waits behind all others. -/
theorem waiting_submit {p : Policy} {q : JobQueue J} (j : J) (h : p.keeps q.submitted) :
    (q.submit p j).waiting = q.waiting ++ [j] := by
  rw [submit, if_pos h]

/-- A submitted job that is not kept leaves no trace but its number. -/
theorem submit_of_not_keeps {p : Policy} {q : JobQueue J} (j : J) (h : ¬ p.keeps q.submitted) :
    q.submit p j = { q with submitted := q.submitted + 1 } := by
  rw [submit, if_neg h]

/-- **Taking a job off the queue** leaves the others there. -/
theorem perm_of_start? {policy : Policy} {queue queue' : JobQueue J} {j : J}
    (h : queue.start? policy = some (j, queue')) : queue.waiting.Perm (j :: queue'.waiting) := by
  unfold start? at h
  split at h
  · cases h
  · rename_i j' hget
    cases h
    obtain ⟨hlt, rfl⟩ := List.getElem?_eq_some_iff.1 hget
    rw [List.eraseIdx_eq_take_drop_succ]
    conv => lhs; rw [← List.take_append_drop (queue.next policy) queue.waiting,
      List.drop_eq_getElem_cons hlt]
    exact List.perm_middle

/-- Taking a job off the queue is not submitting one. -/
theorem submitted_of_start? {policy : Policy} {queue queue' : JobQueue J} {j : J}
    (h : queue.start? policy = some (j, queue')) : queue'.submitted = queue.submitted := by
  unfold start? at h
  split at h
  · cases h
  · cases h
    rfl

/-- Taking a job off the queue does not finish it. -/
theorem counts_of_start? {policy : Policy} {queue queue' : JobQueue J} {j : J}
    (h : queue.start? policy = some (j, queue')) :
    queue'.outstanding = queue.outstanding ∧ queue'.panicked = queue.panicked := by
  unfold start? at h
  split at h
  · cases h
  · cases h
    exact ⟨rfl, rfl⟩

/-- The oldest job is at the front. -/
theorem start?_fifo {queue : JobQueue J} {j : J} {rest : List J} (h : queue.waiting = j :: rest) :
    queue.start? .fifo =
      some (j, { queue with waiting := rest, started := queue.started + 1 }) := by
  have hnext : queue.next .fifo = 0 := Nat.zero_mod _
  simp only [start?, hnext, h, List.getElem?_cons_zero, List.eraseIdx_cons_zero]

/-- What is taken off the queue, oldest first, was at the front. -/
theorem waiting_of_start?_fifo {queue queue' : JobQueue J} {j : J}
    (h : queue.start? .fifo = some (j, queue')) : queue.waiting = j :: queue'.waiting := by
  cases hw : queue.waiting with
  | nil => cases (start?_eq_none_iff.2 hw).symm.trans h
  | cons i rest =>
    cases (start?_fifo hw).symm.trans h
    rfl

end JobQueue

end BoxTree
