import BoxTree.Proofs.Growth.Filling
/-!
# Runs of a task

A task begins with a slot for its root and works off what is left of it, piece by piece. Nothing is
assumed of what it decides, of what partitions come to, or of what other tasks do between two of its
steps: they may change the object buffers, and take numbers for chunks. **At every point of every
such run** each slot of the chunk is that of one written node or of one piece of work that is left,
unless work was dropped because the build is to stop; and each slot but the first is named by one
node (`Task.Kept`). So a task that has not been stopped leaves no slot empty (`Task.Run.orderly`).
-/

namespace BoxTree

open List

namespace Task

/-- A run of the task of a job up to a point between two steps, with what was decided so far, the
jobs that were submitted, and a bound for the numbers of chunks that were given out. -/
inductive Run (p : Plan) (j : BuildJob) : List Decision → List BuildJob → Nat → Task → Prop where
  | start {next : Nat} {t : Task} (hstart : Task.start j = .ok t) (hid : j.chunk < next) :
    Run p j [] [] next t
  | step {ds : List Decision} {jobs : List BuildJob} {next next' : Nat} {t : Task} {w : Work}
      {rest : List Work} {b : Buffers} {d : Decision} {e : Effect} {table : Array Scalar}
      (h : Run p j ds jobs next t) (ht : t.pending = w :: rest) (hnext : next ≤ next')
      (hyields : Effect.Yields p
        { buffers := b, chunk := t.chunk, stats := t.stats, nextChunk := next' } w d (.ok e)) :
    Run p j (ds ++ [d]) (jobs ++ e.job.toList) e.nextChunk
      ⟨e.chunk, e.stats, table, e.work ++ rest⟩

/-- What every step of a task keeps. -/
structure Kept (j : BuildJob) (ds : List Decision) (jobs : List BuildJob) (next : Nat) (t : Task) :
    Prop where
  id : t.chunk.id = j.chunk
  /-- Every slot is that of a node, of a piece of work that is left, or of one that was dropped. -/
  slots : ∃ dropped : List Nat,
    t.chunk.nodes.map Prod.fst ++ (t.pending.map Work.slot ++ dropped) ~ List.range t.chunk.size ∧
      (.stop ∉ ds → dropped = [])
  linked : t.chunk.Linked
  others : t.chunk.others ~ jobs.map BuildJob.chunk
  numbers : (j.chunk :: jobs.map BuildJob.chunk).Pairwise (· < ·)
  given : ∀ id ∈ j.chunk :: jobs.map BuildJob.chunk, id < next

/-- What is right about a task between two steps. -/
structure Orderly (p : Plan) (ds : List Decision) (jobs : List BuildJob) (t : Task) : Prop where
  /-- The slot of the work that is next was taken and is empty, so that carrying out a decision
  about it does not fail in writing, whatever has become of the buffers and of the numbers for
  chunks. -/
  writes : ∀ w rest, t.pending = w :: rest → t.chunk.slots[w.slot]? = some none ∧
    ∀ e : Effect, e.chunk = t.chunk → e.work = [] → e.job = none →
      ∀ d r, e.Yields p w d r → e.Fills p w d r
  /-- Every slot but the first is the child of one node that is written, which lies before it. -/
  linked : t.chunk.Linked
  /-- The other chunks that nodes name are those that jobs were submitted for, each of them once. -/
  others : t.chunk.others ~ jobs.map BuildJob.chunk
  distinct : (t.chunk.id :: jobs.map BuildJob.chunk).Nodup
  /-- A task that has nothing left to do and was not stopped has written every slot. -/
  written : t.pending = [] → .stop ∉ ds → none ∉ t.chunk.slots.toList

variable {p : Plan} {j : BuildJob} {ds : List Decision} {jobs : List BuildJob} {next : Nat}
  {t : Task} {w : Work} {rest : List Work} {d : Decision} {e e' : Effect} {table : Array Scalar}

theorem kept_start (hstart : Task.start j = .ok t) (hid : j.chunk < next) :
    Kept j [] [] next t := by
  cases hstart
  exact
    { id := rfl
      slots := ⟨[], .refl _, fun _ => rfl⟩
      linked := ⟨.refl _, nofun⟩
      others := .refl _
      numbers := List.pairwise_singleton _ _
      given := fun id hmem => List.mem_singleton.1 hmem ▸ hid }

/-! ## A step -/

namespace Kept

variable (h : Kept j ds jobs next t)
include h

/-- Jobs are submitted for chunks with new numbers. -/
theorem numbers_step (hnext : next ≤ e.nextChunk) (hn : e.Numbers e') :
    (j.chunk :: (jobs ++ e'.job.toList).map BuildJob.chunk).Pairwise (· < ·) ∧
      ∀ id ∈ j.chunk :: (jobs ++ e'.job.toList).map BuildJob.chunk, id < e'.nextChunk := by
  have hnew := hn.nextChunk
  have hgiven : ∀ id ∈ j.chunk :: jobs.map BuildJob.chunk, id < e.nextChunk :=
    fun id hid => Nat.lt_of_lt_of_le (h.given id hid) hnext
  cases hjob : e'.job with
  | none =>
    rw [hjob] at hnew
    simp only [Option.toList_none, List.append_nil]
    exact ⟨h.numbers, fun id hid => by rw [hnew]; exact hgiven id hid⟩
  | some i =>
    rw [hjob] at hnew
    simp only [Option.toList_some, List.map_append, List.map_singleton, ← List.cons_append,
      hn.job i hjob]
    refine ⟨List.pairwise_append.2 ⟨h.numbers, List.pairwise_singleton _ _, fun id hid k hk => ?_⟩,
      List.forall_mem_append.2 ⟨fun id hid => ?_, fun k hk => ?_⟩⟩
    · exact List.mem_singleton.1 hk ▸ hgiven id hid
    · exact hnew ▸ Nat.lt_succ_of_lt (hgiven id hid)
    · exact List.mem_singleton.1 hk ▸ hnew ▸ Nat.lt_succ_self _

variable (ht : t.pending = w :: rest)
include ht

/-- The slot of the work that is next was taken and is empty. -/
theorem slot_eq : t.chunk.slots[w.slot]? = some none := by
  obtain ⟨dropped, hslots, -⟩ := h.slots
  rw [ht, List.map_cons, List.cons_append] at hslots
  have hmem := hslots.mem_iff.1 (List.mem_append_right _ List.mem_cons_self)
  -- no slot occurs twice, and that of the work is not among those of the nodes
  have hnodup := hslots.nodup_iff.2 List.nodup_range
  have hfresh : w.slot ∉ t.chunk.nodes.map Prod.fst := fun hnode =>
    (List.nodup_append.1 hnodup).2.2 _ hnode _ List.mem_cons_self rfl
  exact Chunk.slots_of_not_mem (List.mem_range.1 hmem) hfresh

theorem step (hchunk : e.chunk = t.chunk) (hwork : e.work = []) (hjob : e.job = none)
    (hnext : next ≤ e.nextChunk) (hfills : e.Fills p w d (.ok e')) (table : Array Scalar) :
    Kept j (ds ++ [d]) (jobs ++ e'.job.toList) e'.nextChunk
      ⟨e'.chunk, e'.stats, table, e'.work ++ rest⟩ := by
  obtain ⟨dropped, hslots, hdropped⟩ := h.slots
  have hnumbers := hfills.numbers hjob
  obtain ⟨hordered, hgiven⟩ := h.numbers_step hnext hnumbers
  have hid := hnumbers.chunk.trans ((congrArg Chunk.id hchunk).trans h.id)
  have hlinked := h.linked
  have hothers := h.others
  rw [ht, List.map_cons, List.cons_append] at hslots
  rw [← hchunk] at hslots hlinked hothers
  have hkeep : .stop ∉ ds ++ [d] → dropped = [] := fun hnot =>
    hdropped fun hmem => hnot (List.mem_append_left _ hmem)
  cases hfills with
  | stop =>
    -- the work is dropped, and its slot stays empty
    refine ⟨hid, ⟨w.slot :: dropped, ?_, fun hnot => absurd (by simp) hnot⟩, hlinked, ?_, hordered,
      hgiven⟩
    · rw [hwork]
      exact (List.perm_middle.append_left _).trans hslots
    · rw [hjob, Option.toList_none, List.append_nil]
      exact hothers
  | again =>
    refine ⟨hid, ⟨dropped, hslots, hkeep⟩, hlinked, ?_, hordered, hgiven⟩
    rw [hjob, Option.toList_none, List.append_nil]
    exact hothers
  | @node _ n _ count _ hslot hfill hnode hpieces hjobs =>
    refine ⟨hid, ⟨dropped, ?_, hkeep⟩, ?_, ?_, hordered, hgiven⟩
    · rw [List.map_append, hpieces, hnode, hfill, Chunk.size_fill, List.append_assoc]
      exact Chunk.slots_fill hslot count n hslots
    · rw [hfill]
      exact hlinked.fill hslot hnode
    · rw [List.map_append, hjobs, hfill]
      exact (Chunk.others_fill hslot count n).trans (hothers.append_right _)

end Kept

/-! ## Runs -/

/-- **Every run keeps what its steps keep.** -/
theorem Run.kept (h : Run p j ds jobs next t) : Kept j ds jobs next t := by
  induction h with
  | start hstart hid => exact kept_start hstart hid
  | step h ht hnext hyields ih =>
    have hfills := Effect.fills_of_yields (ih.slot_eq ht) rfl rfl hyields
    exact ih.step ht rfl rfl rfl hnext hfills _

/-- A task whose work has all been carried out has a node in every slot. -/
theorem Kept.written (h : Kept j ds jobs next t) (ht : t.pending = []) (hd : .stop ∉ ds) :
    none ∉ t.chunk.slots.toList := by
  obtain ⟨dropped, hslots, hdropped⟩ := h.slots
  rw [ht, hdropped hd, List.map_nil, List.append_nil, List.append_nil] at hslots
  intro hnone
  obtain ⟨slot, hslot⟩ := List.mem_iff_getElem?.1 hnone
  rw [Array.getElem?_toList] at hslot
  have hmem := hslots.mem_iff.2 (List.mem_range.2 (Chunk.slot_lt hslot))
  obtain ⟨⟨i, n⟩, hn, rfl⟩ := List.mem_map.1 hmem
  cases hslot.symm.trans (Chunk.mem_nodes.1 hn)

/-- **A task is orderly at every point of its run.** -/
theorem Run.orderly (h : Run p j ds jobs next t) : t.Orderly p ds jobs where
  writes w rest ht := ⟨h.kept.slot_eq ht, fun e hchunk hwork hjob _ _ hyields =>
    Effect.fills_of_yields (hchunk ▸ h.kept.slot_eq ht) hwork hjob hyields⟩
  linked := h.kept.linked
  others := h.kept.others
  distinct := by
    rw [h.kept.id]
    exact h.kept.numbers.imp Nat.ne_of_lt
  written := h.kept.written

end Task

end BoxTree
