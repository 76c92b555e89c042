import BoxTree.Proofs.Machine.Ledger
import BoxTree.Proofs.Machine.Steps
import Mathlib.Algebra.Order.Group.Multiset
/-!
# What a run keeps

`Machine.Tracks` relates a build in progress to its sketch. The bare nodes of the sketch are the
jobs that wait, the work the running task has left, and what was **lost**: jobs that were not kept
and everything a stopped build dropped. The sketch can become the same trees as the plot of the
whole input, its parts tile the range of all objects, the buffers hold the items of each of them,
and as long as the build is not stopped the chunks hold its nodes. This file shows what each kind of
step keeps of this.
-/

namespace BoxTree

open Chunk Sketch Buffers

/-- A list from which one element is worked on: what it makes of it is added, what it submits waits
or is dropped. -/
theorem perm_exchange {α : Type} {x : α}
    {waiting waiting' dropped submitted rest work lost new others : List α}
    (hw : (waiting' ++ dropped).Perm (submitted ++ waiting))
    (ho : (waiting ++ (x :: rest) ++ lost).Perm (x :: others))
    (hn : new.Perm (work ++ submitted)) :
    (waiting' ++ (work ++ rest) ++ (dropped ++ lost)).Perm (new ++ others) := by
  have hothers : (waiting ++ (rest ++ lost)).Perm others := by
    rw [List.append_assoc] at ho
    exact (List.perm_middle.symm.trans ho).cons_inv
  rw [← Multiset.coe_eq_coe] at hw hn hothers ⊢
  simp only [← Multiset.coe_add] at hw hn hothers ⊢
  calc (waiting' : Multiset α) + (work + rest) + (dropped + lost)
    _ = waiting' + dropped + (work + rest + lost) := by abel
    _ = submitted + waiting + (work + rest + lost) := by rw [hw]
    _ = work + submitted + (waiting + (rest + lost)) := by abel
    _ = new + others := by rw [hn, hothers]

/-- A region that is still to be built, with the place of its root. -/
structure Site where
  place : Address
  halved : Bool
  region : Region

/-- The site of a job. -/
def BuildJob.site (j : BuildJob) : Site := ⟨⟨j.chunk, 0⟩, false, j.region⟩

/-- The site of a piece of work in a chunk. -/
def Work.site (chunk : Nat) (w : Work) : Site := ⟨⟨chunk, w.slot⟩, w.halved, w.region⟩

/-- The sites of the work a task has left. -/
def Task.sites (t : Task) : List Site := t.pending.map (Work.site t.chunk.id)

/-- The sites of the bare nodes of a sketch. -/
def Sketch.sites (sk : Sketch) : List Site := sk.plots.map fun c => ⟨c.1, c.2.halved, c.2.region⟩

namespace Machine

/-- The sites of a build: its waiting jobs and the work of the running task. -/
def sites (m : Machine) : List Site :=
  m.queue.waiting.map BuildJob.site ++ m.running.toList.flatMap Task.sites

/-- The chunks of a build, those of jobs that have not been started included. -/
def chunks (m : Machine) (lost : List Site) : List Chunk :=
  m.running.toList.map Task.chunk ++ (m.queue.waiting.map (fun j => blank j.chunk) ++
    (lost.map (fun s => blank s.place.chunk) ++ m.reports.map Report.chunk))

/-- The counters of all tasks of a build. -/
def tallies (m : Machine) : List Statistics :=
  m.running.toList.map Task.stats ++ m.reports.map Report.stats

/-- A build in progress, its sketch, and the sites that nobody will build on. -/
structure Tracks (p : Plan) (back : Bool) (n : Nat) (root : Plot) (m : Machine) (sk : Sketch)
    (lost : List Site) : Prop where
  sites : (m.sites ++ lost).Perm sk.sites
  place : sk.place = ⟨0, 0⟩
  becomes : ∀ t, Becomes p back sk t ↔ Grows p back root t
  covers : sk.Covers 0 n
  sound : ∀ c ∈ sk.plots, Plot.Sound p back n c.2
  /-- The buffers are given up only by a build that has failed. -/
  holds : (m.buffers = .released ∧ m.watch.aborted = true) ∨
    (m.buffers.Fits p.width n back ∧ sk.Holds p m.buffers)
  ledger : m.watch.aborted = false → Ledger (m.chunks lost) m.nextChunk m.tallies sk
  failure : m.watch.aborted = false → m.failure = none

end Machine

variable {p : Plan} {back : Bool} {n slot : Nat} {root q : Plot} {m m' : Machine} {sk sk' : Sketch}
  {lost lost' : List Site} {policy : Policy} {check : Check} {e e' : Effect} {mv : Move}

@[simp] theorem Plot.site_work (q : Plot) (chunk slot : Nat) :
    Work.site chunk (q.work slot) = ⟨⟨chunk, slot⟩, q.halved, q.region⟩ := by
  unfold Plot.work
  cases hq : q.halved <;> rfl

/-- Grafting replaces a site by those of the new part. -/
theorem Sketch.Grafts.sites_perm {a : Address} {new : Sketch} (h : Grafts a q new sk sk') :
    ∃ others, sk.sites.Perm (⟨a, q.halved, q.region⟩ :: others) ∧
      sk'.sites.Perm (new.sites ++ others) := by
  obtain ⟨others, hold, hgraft⟩ := h.plots_perm
  have hold' := hold.map fun c : Address × Plot => Site.mk c.1 c.2.halved c.2.region
  have hgraft' := hgraft.map fun c : Address × Plot => Site.mk c.1 c.2.halved c.2.region
  rw [List.map_append] at hgraft'
  exact ⟨_, hold', hgraft'⟩

/-! ## Queues -/

/-- A job that is submitted waits, unless it is not kept. -/
theorem Machine.queueAfter_perm (policy : Policy) (queue : JobQueue BuildJob)
    (job : Option BuildJob) :
    ∃ extra, ((Machine.queueAfter policy queue job).waiting ++ extra).Perm
        (job.toList ++ queue.waiting) ∧
      ((∀ k, policy.keeps k = true) → extra = []) := by
  cases job with
  | none => exact ⟨[], by rw [List.append_nil]; exact .refl _, fun _ => rfl⟩
  | some j =>
    by_cases hk : policy.keeps queue.submitted = true
    · refine ⟨[], ?_, fun _ => rfl⟩
      rw [Machine.queueAfter, JobQueue.waiting_submit j hk, List.append_nil]
      exact List.perm_append_singleton _ _
    · refine ⟨[j], ?_, fun hall => absurd (hall _) hk⟩
      rw [Machine.queueAfter, JobQueue.submit_of_not_keeps j hk]
      exact List.perm_append_singleton _ _

/-! ## A move carried out -/

/-- **What a move leaves in the buffers and the chunks is a part of the sketch.** -/
theorem Carries.sketch (h : Carries p e slot q mv e') (hjob : e.job = none) :
    ∃ l r, let new := mv.sketch ⟨e.chunk.id, slot⟩ l r q
      new.sites.Perm (e'.work.map (Work.site e'.chunk.id) ++ e'.job.toList.map BuildJob.site) ∧
      new.Holds p e'.buffers ∧ e'.chunk.id = e.chunk.id ∧
      ∀ {others tallies sk sk'}, Ledger (e.chunk :: others) e.nextChunk (e.stats :: tallies) sk →
        Grafts ⟨e.chunk.id, slot⟩ q new sk sk' →
        Ledger (e'.chunk :: (e'.job.toList.map (fun j => blank j.chunk) ++ others)) e'.nextChunk
          (e'.stats :: tallies) sk' := by
  cases h with
  | leaf hb =>
    refine ⟨⟨0, 0⟩, ⟨0, 0⟩, .refl _, hb, rfl, ?_⟩
    exact fun hledger hg => hledger.leaf hg
  | halve hb =>
    refine ⟨⟨0, 0⟩, ⟨0, 0⟩, ?_, hb, rfl, ?_⟩
    · rw [hjob]
      exact .refl _
    · intro others tallies sk sk' hledger hg
      rw [hjob]
      exact hledger.halve hg
  | here hl hr =>
    refine ⟨⟨e.chunk.id, e.chunk.size⟩, ⟨e.chunk.id, e.chunk.size + 1⟩, ?_, ⟨hl, hr⟩, rfl, ?_⟩
    · simp only [List.map_cons, List.map_nil, Plot.site_work]
      exact .refl _
    · exact fun hledger hg => hledger.here hg
  | apart hl hr hwhole =>
    refine ⟨⟨e.chunk.id, e.chunk.size⟩, ⟨e.nextChunk, 0⟩, ?_, ⟨hl, hr⟩, rfl, ?_⟩
    · simp only [List.map_cons, List.map_nil, Plot.site_work]
      rw [Move.sketch, Sketch.sites]
      simp only [Sketch.plots, List.cons_append, List.nil_append, List.map_cons, List.map_nil,
        hwhole]
      exact .refl _
    · exact fun hledger hg => hledger.apart hg

/-- A move submits a job for a part that is built apart. -/
theorem Carries.length_job (h : Carries p e slot q mv e') (hjob : e.job = none) (a l r : Address) :
    e'.job.toList.length = (mv.sketch a l r q).jobs := by
  cases h with
  | leaf _ => rfl
  | halve _ =>
    rw [hjob]
    rfl
  | here _ _ => rfl
  | apart _ _ _ => rfl

namespace Machine

namespace Tracks

variable (h : Tracks p back n root m sk lost)
include h

/-- **A build that is stopped** may drop what it likes. -/
theorem stop (hsites : (m'.sites ++ lost').Perm (m.sites ++ lost)) (hab : m'.watch.aborted = true)
    (hbuffers : m'.buffers = .released ∨ m'.buffers = m.buffers) :
    Tracks p back n root m' sk lost' where
  sites := hsites.trans h.sites
  place := h.place
  becomes := h.becomes
  covers := h.covers
  sound := h.sound
  holds := by
    rcases hbuffers with hb | hb
    · exact .inl ⟨hb, hab⟩
    · rcases h.holds with ⟨hb', -⟩ | hh
      · exact .inl ⟨hb.trans hb', hab⟩
      · rw [hb]
        exact .inr hh
  ledger := fun hnot => by rw [hab] at hnot; cases hnot
  failure := fun hnot => by rw [hab] at hnot; cases hnot

/-- **A job is started.** -/
theorem start {j : BuildJob} {queue : JobQueue BuildJob} {w : Watch} (hr : m.running = none)
    (hj : m.queue.start? policy = some (j, queue)) (hw : m.watch.aborted = false) :
    Tracks p back n root { m with queue := queue, watch := w, running := some (taskOf j) } sk lost
    where
  sites := by
    refine .trans ?_ h.sites
    have hwaiting := (JobQueue.perm_of_start? hj).map BuildJob.site
    refine .append_right _ ?_
    simp only [Machine.sites, hr, Option.toList_none, Option.toList_some, List.flatMap_nil,
      List.append_nil, List.flatMap_singleton]
    exact (List.perm_append_singleton _ _).trans hwaiting.symm
  place := h.place
  becomes := h.becomes
  covers := h.covers
  sound := h.sound
  holds := h.holds.imp_left fun hh => by rw [hw] at hh; cases hh.2
  ledger := by
    intro _
    have hwaiting := (JobQueue.perm_of_start? hj).map fun j => blank j.chunk
    refine (h.ledger hw).perm ?_ ?_
    · simp only [Machine.chunks, hr, Option.toList_none, Option.toList_some, List.map_nil,
        List.nil_append, List.map_cons, List.cons_append]
      exact hwaiting.append_right _
    · simp only [Machine.tallies, hr, Option.toList_none, Option.toList_some, List.map_nil,
        List.nil_append, List.map_cons, List.cons_append, List.sum_cons]
      exact zero_add _
  failure := fun _ => h.failure hw

/-- **A task ends**, and reports its chunk unless the build is stopped. -/
theorem finish {t : Task} (hr : m.running = some t) (ht : t.pending = []) :
    Tracks p back n root (complete { m with running := none } t) sk lost where
  sites := by
    refine .trans ?_ h.sites
    refine .append_right _ (.of_eq ?_)
    simp only [Machine.sites, hr, Machine.complete, Option.toList_none, Option.toList_some,
      List.flatMap_singleton, List.flatMap_nil, Task.sites, ht, List.map_nil]
    rfl
  place := h.place
  becomes := h.becomes
  covers := h.covers
  sound := h.sound
  holds := h.holds
  ledger := by
    intro hw
    change m.watch.aborted = false at hw
    refine (h.ledger hw).perm ?_ ?_
    · simp only [Machine.chunks, hr, Machine.complete, hw, Option.toList_none, Option.toList_some,
        List.map_nil, List.map_cons, List.nil_append]
      rw [List.singleton_append, if_neg Bool.false_ne_true, List.map_cons]
      -- the chunk moves from the front of the list to the front of the reports
      refine List.perm_middle.symm.trans ?_
      exact (List.perm_middle.symm).append_left _
    · simp only [Machine.tallies, hr, Machine.complete, hw, Option.toList_none, Option.toList_some,
        List.map_nil, List.map_cons, List.nil_append]
      rw [if_neg Bool.false_ne_true]
      rfl
  failure := h.failure

/-- The first piece of work of the running task is a bare node of the sketch. -/
theorem mem_plots {t : Task} {w : Work} {rest : List Work} (hr : m.running = some t)
    (ht : t.pending = w :: rest) (hh : sk.Holds p m.buffers) :
    (⟨t.chunk.id, w.slot⟩, p.plot m.buffers w.halved w.region) ∈ sk.plots := by
  have hsite : w.site t.chunk.id ∈ m.sites ++ lost := by
    refine List.mem_append_left _ (List.mem_append_right _ ?_)
    rw [hr, Option.toList_some, List.flatMap_singleton, Task.sites, ht]
    exact List.mem_cons_self
  obtain ⟨⟨a, q⟩, hq, heq⟩ := List.mem_map.1 (h.sites.mem_iff.1 hsite)
  obtain ⟨rfl, hhalved, hregion⟩ := Site.mk.inj heq
  have hstock := hh.plot hq
  obtain ⟨region, halved, stock⟩ := q
  change halved = w.halved at hhalved
  change region = w.region at hregion
  subst hhalved hregion
  rw [Plan.plot, hstock]
  exact hq

/-- The sites of a build whose task has carried out a piece of work. Of the sites of the new part
those that are built here go on the task's list, and one that is built apart is submitted. -/
theorem sites_of_advanced (w' : Watch) (table : Array Scalar) {t : Task} {w : Work}
    {rest : List Work} {new : Sketch} {extra : List BuildJob} (hr : m.running = some t)
    (ht : t.pending = w :: rest)
    (hq : p.plot m.buffers w.halved w.region = q) (hid : e.chunk.id = t.chunk.id)
    (hg : Grafts ⟨t.chunk.id, w.slot⟩ q new sk sk')
    (hnew : new.sites.Perm (e.work.map (Work.site e.chunk.id) ++ e.job.toList.map BuildJob.site))
    (hextra : ((queueAfter policy m.queue e.job).waiting ++ extra).Perm
      (e.job.toList ++ m.queue.waiting)) :
    ((m.advanced policy w' e table rest).sites ++ (extra.map BuildJob.site ++ lost)).Perm
      sk'.sites := by
  obtain ⟨others, hold, hgraft⟩ := hg.sites_perm
  have hopen := h.sites.trans hold
  have hfirst : (Site.mk ⟨t.chunk.id, w.slot⟩ q.halved q.region) = w.site t.chunk.id := by
    rw [← hq]
    rfl
  have hwaiting := hextra.map BuildJob.site
  rw [hfirst] at hopen
  simp only [Machine.sites, hr, Option.toList_some, List.flatMap_singleton, Task.sites, ht,
    List.map_cons] at hopen
  refine .trans ?_ hgraft.symm
  simp only [Machine.sites, Machine.advanced, Option.toList_some, List.flatMap_singleton,
    Task.sites, List.map_append, hid]
  rw [hid] at hnew
  rw [List.map_append, List.map_append] at hwaiting
  exact perm_exchange hwaiting hopen hnew

/-- The chunks of a build whose task has carried out a piece of work: its own has changed, and a job
it has submitted has a blank one, whether the job waits or was dropped. -/
theorem ledger_of_advanced (w' : Watch) (table : Array Scalar) {t : Task} {rest : List Work}
    {extra : List BuildJob} (hr : m.running = some t) (hw : m.watch.aborted = false)
    (hledger : ∀ {others tallies}, Ledger (t.chunk :: others) m.nextChunk (t.stats :: tallies) sk →
      Ledger (e.chunk :: (e.job.toList.map (fun j => blank j.chunk) ++ others)) e.nextChunk
        (e.stats :: tallies) sk')
    (hextra : ((queueAfter policy m.queue e.job).waiting ++ extra).Perm
      (e.job.toList ++ m.queue.waiting)) :
    Ledger ((m.advanced policy w' e table rest).chunks (extra.map BuildJob.site ++ lost))
      (m.advanced policy w' e table rest).nextChunk
      (m.advanced policy w' e table rest).tallies sk' := by
  have hbefore := h.ledger hw
  simp only [Machine.chunks, Machine.tallies, hr, Option.toList_some, List.map_cons,
    List.map_nil, List.singleton_append] at hbefore
  refine (hledger hbefore).perm ?_ rfl
  have hwaiting := hextra.map fun j => blank j.chunk
  simp only [Machine.chunks, Machine.advanced, Option.toList_some, List.map_append,
    List.map_map, List.map_cons, List.map_nil, List.singleton_append]
  refine .cons _ ?_
  rw [List.map_append, List.map_append] at hwaiting
  -- bracketed alike, both lists begin with the two sides of `hwaiting`
  simp only [List.append_assoc] at hwaiting ⊢
  simp only [← List.append_assoc] at hwaiting ⊢
  exact (hwaiting.symm.append_right _).append_right _

/-- **A piece of work is carried out.** -/
theorem advance (policy : Policy) (w' : Watch) (table : Array Scalar) (hp : p.Usable back)
    {t : Task} {w : Work} {rest : List Work} (hr : m.running = some t)
    (ht : t.pending = w :: rest) (hw : m.watch.aborted = false)
    (hperform :
      Performs p back n (effectOf m t) w.slot (p.plot m.buffers w.halved w.region) (.ok e)) :
    ∃ sk' mv l r dropped, p.move back (p.plot m.buffers w.halved w.region) = .ok mv ∧
      Tracks p back n root (m.advanced policy w' e table rest) sk' (dropped ++ lost) ∧
      Grafts ⟨t.chunk.id, w.slot⟩ (p.plot m.buffers w.halved w.region)
        (mv.sketch ⟨t.chunk.id, w.slot⟩ l r (p.plot m.buffers w.halved w.region)) sk sk' ∧
      (queueAfter policy m.queue e.job).waiting.length + dropped.length =
        (mv.sketch ⟨t.chunk.id, w.slot⟩ l r (p.plot m.buffers w.halved w.region)).jobs +
          m.queue.waiting.length ∧
      ((∀ k, policy.keeps k = true) → dropped = []) := by
  obtain ⟨hfits, hh⟩ := h.holds.resolve_left fun hh => by rw [hw] at hh; cases hh.2
  have hmem := h.mem_plots hr ht hh
  generalize hq : p.plot m.buffers w.halved w.region = q at hmem hperform
  cases hperform with
  | @carried mv _ hm hf hk hc =>
    obtain ⟨l, r, hnew, hholds, hid, hledger⟩ := hc.sketch rfl
    obtain ⟨sk', hg⟩ := exists_grafts (mv.sketch ⟨t.chunk.id, w.slot⟩ l r q) hmem
    obtain ⟨extra, hextra, hkept⟩ := queueAfter_perm policy m.queue e.job
    have hsound := h.sound _ hmem
    have hmove := Plan.move_sound hp hsound hm
    have htracks : Tracks p back n root (m.advanced policy w' e table rest) sk'
        (extra.map BuildJob.site ++ lost) :=
      { sites := h.sites_of_advanced w' table hr ht hq hid hg hnew hextra
        place := by rw [hg.place_eq (Move.place_sketch _ _ _ _ _), h.place]
        becomes := fun t => (hg.becomes_iff (Move.becomes_sketch hm) t).trans (h.becomes t)
        covers := hg.covers (hmove.covers hsound) h.covers
        sound := by
          intro c hc
          obtain ⟨others, hold, hgraft⟩ := hg.plots_perm
          rcases List.mem_append.1 (hgraft.mem_iff.1 hc) with hc | hc
          · exact hmove.plots c hc
          · exact h.sound c (hold.mem_iff.2 (List.mem_cons_of_mem _ hc))
        -- what the move keeps outside its range keeps all other parts
        holds := .inr ⟨hf, hg.holds hk hholds h.covers hh⟩
        ledger := fun _ => h.ledger_of_advanced w' table hr hw (fun hb => hledger hb hg) hextra
        failure := fun _ => h.failure hw }
    refine ⟨sk', mv, l, r, extra.map BuildJob.site, hm, htracks, hg, ?_, ?_⟩
    · rw [List.length_map, ← hc.length_job rfl, ← List.length_append, ← List.length_append]
      exact hextra.length_eq
    · intro hall
      rw [hkept hall]
      rfl

end Tracks

end Machine

end BoxTree
