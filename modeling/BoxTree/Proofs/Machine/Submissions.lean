import BoxTree.Proofs.Machine.Halting
/-!
# The number of jobs

Chunks are numbered as jobs are submitted: whoever gives out a number submits the job that is to
fill the chunk in the same piece of work, whether the queue keeps that job or not. The difference of
the two counts therefore stays the same in every step (`Machine.submitted_step`), even in those of a
build that fails or is told to stop.
-/

namespace BoxTree

namespace Chunk

variable {c c' : Chunk} {slot : Nat} {node : ChunkNode}

theorem id_of_alloc (h : c.alloc = .ok (slot, c')) : c'.id = c.id := by
  unfold alloc at h
  split at h <;> cases h
  rfl

theorem id_of_write (h : c.write slot node = .ok c') : c'.id = c.id := by
  unfold write at h
  split at h <;> cases h
  rfl

end Chunk

/-- How a piece of work gives out numbers: one for every job it submits, and its own chunk keeps the
one it has. -/
structure Effect.Numbers (e e' : Effect) : Prop where
  nextChunk : e'.nextChunk = e.nextChunk + e'.job.toList.length
  chunk : e'.chunk.id = e.chunk.id
  job : ∀ j, e'.job = some j → j.chunk = e.nextChunk

namespace Effect

variable {p : Plan} {e e' : Effect} {slot : Nat} {r left right : Region} {d : Decision} {w : Work}
  {reason : LeafReason} {work : Nat → Region → Work} {s : Split}

/-- Work that submits no job gives out no number. -/
theorem numbers_of_none (hjob : e'.job = none) (hnext : e'.nextChunk = e.nextChunk)
    (hchunk : e'.chunk.id = e.chunk.id) : e.Numbers e' where
  nextChunk := by rw [hjob, hnext]; rfl
  chunk := hchunk
  job j hj := by rw [hjob] at hj; cases hj

theorem numbers_leaf (hjob : e.job = none) (h : e.leaf slot r reason = .ok e') : e.Numbers e' := by
  obtain ⟨buffers, -, h⟩ := bind_eq_ok_iff.1 h
  obtain ⟨chunk, hchunk, h⟩ := bind_eq_ok_iff.1 h
  obtain ⟨stats, -, h⟩ := bind_eq_ok_iff.1 h
  cases h
  exact numbers_of_none hjob rfl (Chunk.id_of_write (mapError_eq_ok_iff.1 hchunk))

theorem numbers_branchHere (hjob : e.job = none)
    (h : e.branchHere slot r left right work = .ok e') : e.Numbers e' := by
  obtain ⟨⟨leftSlot, first⟩, hleft, h⟩ := bind_eq_ok_iff.1 h
  obtain ⟨⟨rightSlot, second⟩, hright, h⟩ := bind_eq_ok_iff.1 h
  obtain ⟨chunk, hchunk, h⟩ := bind_eq_ok_iff.1 h
  obtain ⟨stats, -, h⟩ := bind_eq_ok_iff.1 h
  cases h
  refine numbers_of_none hjob rfl ?_
  calc chunk.id
    _ = second.id := Chunk.id_of_write (mapError_eq_ok_iff.1 hchunk)
    _ = first.id := Chunk.id_of_alloc (mapError_eq_ok_iff.1 hright)
    _ = e.chunk.id := Chunk.id_of_alloc (mapError_eq_ok_iff.1 hleft)

theorem numbers_branchApart (h : e.branchApart slot r left right = .ok e') : e.Numbers e' := by
  obtain ⟨⟨leftSlot, first⟩, hleft, h⟩ := bind_eq_ok_iff.1 h
  obtain ⟨chunk, hchunk, h⟩ := bind_eq_ok_iff.1 h
  obtain ⟨stats, -, h⟩ := bind_eq_ok_iff.1 h
  cases h
  refine ⟨rfl, ?_, fun j hj => by cases hj; rfl⟩
  exact (Chunk.id_of_write (mapError_eq_ok_iff.1 hchunk)).trans
    (Chunk.id_of_alloc (mapError_eq_ok_iff.1 hleft))

theorem numbers_divide (hjob : e.job = none) (h : e.divide p slot r s = .ok e') : e.Numbers e' := by
  obtain ⟨buffers, chunk, stats, nextChunk, work, job⟩ := e
  obtain ⟨⟨buffers', halves, side⟩, -, h⟩ := bind_eq_ok_iff.1 h
  simp only at h hjob
  -- the buffers have changed, the numbers have not
  have hsame : ∀ {e'}, Numbers ⟨buffers', chunk, stats, nextChunk, work, job⟩ e' →
      Numbers ⟨buffers, chunk, stats, nextChunk, work, job⟩ e' :=
    fun hn => ⟨hn.nextChunk, hn.chunk, hn.job⟩
  split at h
  · cases h
    exact numbers_of_none hjob rfl rfl
  · split at h
    · exact hsame (numbers_branchApart h)
    · exact hsame (numbers_branchHere hjob h)

/-- **A piece of work numbers the jobs it submits.** -/
theorem numbers_perform (hjob : e.job = none) (h : perform p e w d = .ok e') : e.Numbers e' := by
  cases d with
  | stop =>
    cases h
    exact numbers_of_none hjob rfl rfl
  | leaf reason => exact numbers_leaf hjob h
  | divide s => exact numbers_divide hjob h
  | giveUp =>
    cases h
    exact numbers_of_none hjob rfl rfl
  | cut =>
    obtain ⟨left, -, h⟩ := bind_eq_ok_iff.1 h
    obtain ⟨right, -, h⟩ := bind_eq_ok_iff.1 h
    exact numbers_branchHere hjob h

end Effect

namespace Machine

variable {p : Plan} {policy : Policy} {check : Check} {m : Machine}

/-- A job counts as submitted whether it is kept or not. -/
theorem submitted_queueAfter (policy : Policy) (queue : JobQueue BuildJob)
    (job : Option BuildJob) :
    (queueAfter policy queue job).submitted = queue.submitted + job.toList.length := by
  cases job with
  | none => rfl
  | some j =>
    simp only [queueAfter, JobQueue.submit]
    split <;> rfl

/-- **A step submits as many jobs as it numbers chunks.** -/
theorem submitted_step (p : Plan) (policy : Policy) (check : Check) (m : Machine) :
    (m.step p policy check).queue.submitted + m.nextChunk =
      m.queue.submitted + (m.step p policy check).nextChunk := by
  have hsteps := step_steps p policy check m
  generalize m.step p policy check = m' at hsteps ⊢
  cases hsteps with
  | rest hr hw => rfl
  | @refuse j queue f w hr hj hask =>
    change queue.submitted + _ = _
    rw [JobQueue.submitted_of_start? hj]
    rfl
  | @skip j queue w hr hj hask =>
    change queue.submitted + _ = _
    rw [JobQueue.submitted_of_start? hj]
  | @start j queue w hr hj hask =>
    change queue.submitted + _ = _
    rw [JobQueue.submitted_of_start? hj]
  | finish hr ht => rfl
  | balk hr ht hd => rfl
  | spoil hr ht hd hperform => rfl
  | @advance t work rest d table e w hr ht hd hperform =>
    have hnumbers : e.nextChunk = m.nextChunk + e.job.toList.length :=
      (Effect.numbers_perform rfl hperform).nextChunk
    simp only [advanced, submitted_queueAfter, hnumbers]
    omega

/-- **A run submits as many jobs as it numbers chunks.** -/
theorem submitted_iterate (p : Plan) (policy : Policy) (check : Check) (m : Machine) (k : Nat) :
    ((Machine.step p policy check)^[k] m).queue.submitted + m.nextChunk =
      m.queue.submitted + ((Machine.step p policy check)^[k] m).nextChunk := by
  induction k with
  | zero => rfl
  | succ k ih =>
    have hstep := submitted_step p policy check ((Machine.step p policy check)^[k] m)
    rw [Function.iterate_succ_apply']
    omega

end Machine

end BoxTree
