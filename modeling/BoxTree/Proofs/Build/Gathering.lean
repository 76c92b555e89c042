import BoxTree.Build.Builder
import BoxTree.Proofs.Chunks.Merging
import BoxTree.Proofs.Machine.Runs
/-!
# What a finished build hands in

The reports of a build come in whatever order its tasks were run in. Their chunks are put in the
order of their numbers, and every chunk that was ever started has to be among them. A number that was
not given out is never reported (`Machine.Tracks.none_unexpected`). Hence a build whose parts can be
laid together has nothing left to do, and its sketch is a whole tree.
-/

namespace BoxTree

open Chunk Sketch

namespace Builder

/-- The slots the chunks of reports are put in. -/
def handed (count : Nat) (reports : List Report) : Array (Option Chunk) :=
  reports.foldr (fun r slots => slots.setIfInBounds r.chunk.id (some r.chunk))
    (Array.replicate count none)

/-- The counters of all tasks together. -/
def totals (reports : List Report) : Except Failure Statistics :=
  reports.foldr (fun r sum => do Effect.counted ((← sum).accumulate r.stats)) (.ok {})

variable {count i : Nat} {reports : List Report} {chunks : List Chunk} {r : Report}

theorem size_handed (count : Nat) (reports : List Report) :
    (handed count reports).size = count := by
  induction reports with
  | nil => exact Array.size_replicate
  | cons r rest ih => exact Array.size_setIfInBounds.trans ih

/-- **Reports of numbers that were given out are taken in**: their counters are summed, and each
chunk finds its slot. -/
theorem receiveAll_eq (hids : ∀ r ∈ reports, r.chunk.id < count) :
    receiveAll count reports = (totals reports).map fun sum => (sum, handed count reports) := by
  induction reports with
  | nil => rfl
  | cons r rest ih =>
    rw [List.forall_mem_cons] at hids
    have hslot : r.chunk.id < (handed count rest).size := by
      rw [size_handed]
      exact hids.1
    change (receiveAll count rest >>= fun taken => receive taken r) =
      (totals rest >>= fun sum => Effect.counted (sum.accumulate r.stats)).map _
    rw [ih hids.2]
    cases totals rest with
    | error f => rfl
    | ok sum =>
      simp only [ok_map, ok_bind, receive, if_pos hslot]
      cases Effect.counted (sum.accumulate r.stats) <;> rfl

/-- A slot is filled by the report of its number. -/
theorem handed_of_mem (hnodup : (reports.map fun r => r.chunk.id).Nodup) (hr : r ∈ reports)
    (hlt : r.chunk.id < count) : (handed count reports)[r.chunk.id]? = some (some r.chunk) := by
  induction reports with
  | nil => cases hr
  | cons first rest ih =>
    change ((handed count rest).setIfInBounds first.chunk.id (some first.chunk))[r.chunk.id]? = _
    rw [List.map_cons, List.nodup_cons] at hnodup
    rcases List.mem_cons.1 hr with rfl | hr
    · exact Array.getElem?_setIfInBounds_self_of_lt (by rw [size_handed]; exact hlt)
    · have hne : first.chunk.id ≠ r.chunk.id :=
        fun heq => hnodup.1 (List.mem_map.2 ⟨r, hr, heq.symm⟩)
      rw [Array.getElem?_setIfInBounds_ne hne, ih hnodup.2 hr]

/-- A slot stays empty that nobody reports. -/
theorem handed_of_not_mem (hi : i < count) (h : i ∉ reports.map fun r => r.chunk.id) :
    (handed count reports)[i]? = some none := by
  induction reports with
  | nil => simp [handed, hi]
  | cons first rest ih =>
    rw [List.map_cons, List.mem_cons, not_or] at h
    change ((handed count rest).setIfInBounds first.chunk.id (some first.chunk))[i]? = _
    rw [Array.getElem?_setIfInBounds_ne (Ne.symm h.1), ih h.2]

/-- Chunks are collected only when all of them were reported. -/
theorem reported_of_collect (h : collect (handed count reports) = .ok chunks) (hi : i < count) :
    i ∈ reports.map fun r => r.chunk.id := by
  by_contra hnot
  have hget := handed_of_not_mem hi hnot
  rw [← Array.getElem?_toList] at hget
  have hslot : ((none : Option Chunk), i) ∈ (handed count reports).toList.zipIdx :=
    List.mk_mem_zipIdx_iff_getElem?.2 hget
  obtain ⟨c, hc⟩ := exists_of_mapM_eq_ok h _ hslot
  cases hc

/-- **The first chunk that nobody reports** is the one that is named. -/
theorem collect_eq_error (hnodup : (reports.map fun r => r.chunk.id).Nodup) (hi : i < count)
    (hnot : i ∉ reports.map fun r => r.chunk.id)
    (hbefore : ∀ j < i, j ∈ reports.map fun r => r.chunk.id) :
    collect (handed count reports) = .error (MergeFault.unreported i).toError := by
  have hget : ∀ {j : Nat} {slot}, (handed count reports)[j]? = some slot →
      (handed count reports).toList.zipIdx[j]? = some (slot, j) := by
    intro j slot hslot
    rw [List.getElem?_zipIdx, Array.getElem?_toList, hslot, Nat.zero_add]
    rfl
  refine mapM_eq_error (hget (handed_of_not_mem hi hnot)) rfl fun j hj b hb => ?_
  obtain ⟨r, hr, rfl⟩ := List.mem_map.1 (hbefore j hj)
  have hslot := hget (handed_of_mem hnodup hr (hj.trans hi))
  cases Option.some.inj (hb.symm.trans hslot)
  exact ⟨_, rfl⟩

/-- **Reports of all chunks are collected** in the order of their numbers. -/
theorem collect_eq (hids : (reports.map fun r => r.chunk.id).Perm (List.range count)) :
    ∃ chunks, collect (handed count reports) = .ok chunks ∧ chunks.map Chunk.id = List.range count ∧
      chunks.Perm (reports.map Report.chunk) := by
  -- the reports in the order of their numbers
  obtain ⟨ordered, hordered, hperm⟩ := List.perm_comp_forall₂ hids.symm
    (List.forall₂_map_left_iff.2 (List.forall₂_same.2 fun r _ => rfl) :
      List.Forall₂ (fun i r => i = r.chunk.id) (reports.map fun r => r.chunk.id) reports)
  have hnumbers : List.range count = ordered.map fun r => r.chunk.id := by
    rw [← List.forall₂_map_right_iff, List.forall₂_eq_eq_eq] at hordered
    exact hordered
  have hlen := congrArg List.length hnumbers
  rw [List.length_map, List.length_range] at hlen
  have hslots : (handed count reports).toList = (ordered.map Report.chunk).map some := by
    refine List.ext_getElem (by simp [size_handed, hlen]) fun i hi _ => ?_
    rw [Array.length_toList, size_handed] at hi
    have hmem : ordered[i] ∈ reports := hperm.mem_iff.1 (List.getElem_mem (hlen ▸ hi))
    have hid : i = ordered[i].chunk.id := by
      have := congrArg (·[i]?) hnumbers
      simpa [hi, hlen ▸ hi] using this
    have hget := handed_of_mem (hids.nodup_iff.2 List.nodup_range) hmem (hid ▸ hi)
    rw [← hid, Array.getElem?_eq_getElem (by rw [size_handed]; exact hi)] at hget
    rw [List.getElem_map, List.getElem_map, Array.getElem_toList]
    exact Option.some.inj hget
  refine ⟨ordered.map Report.chunk, ?_, by rw [List.map_map, hnumbers]; rfl, hperm.map _⟩
  have hfilled : none ∉ (handed count reports).toList := by
    rw [hslots]
    simp
  refine (@mapM_zipIdx_eq_ok _ _ _ _ (fun c => c) _ hfilled (fun _ _ _ => rfl) 0).trans ?_
  rw [hslots, List.map_id']
  simp [List.reduceOption]

/-! ## Counters -/

/-- The counters of a finished build are summed, unless one has no room. -/
theorem totals_cases (reports : List Report) :
    totals reports = .ok (reports.map Report.stats).sum ∨
      ((∃ f, totals reports = .error (.fault f)) ∧ ¬ (reports.map Report.stats).sum.Within) := by
  induction reports with
  | nil => exact .inl rfl
  | cons r rest ih =>
    have hsum : ((r :: rest).map Report.stats).sum = (rest.map Report.stats).sum + r.stats := by
      rw [List.map_cons, List.sum_cons, add_comm]
    rw [hsum]
    unfold totals at ih ⊢
    rw [List.foldr_cons]
    rcases ih with heq | ⟨⟨f, heq⟩, hover⟩
    · rw [heq, ok_bind]
      rcases Statistics.records_accumulate (rest.map Report.stats).sum r.stats with
        heq | ⟨⟨s, heq⟩, hover⟩
      · left
        rw [heq]
        rfl
      · right
        rw [heq]
        exact ⟨⟨_, rfl⟩, hover⟩
    · right
      rw [heq]
      exact ⟨⟨f, rfl⟩, fun h => hover h.left⟩

/-- Counters that are summed are within their widths. -/
theorem within_of_totals {s : Statistics} (h : totals reports = .ok s) : s.Within := by
  cases reports with
  | nil =>
    cases h
    intro c hc
    have hzero : c = 0 := by simpa [Statistics.bounded] using hc
    rw [hzero]
    exact Nat.zero_le _
  | cons r rest =>
    obtain ⟨sum, -, h⟩ := bind_eq_ok_iff.1 h
    rcases hsum : sum.accumulate r.stats with ⟨s', f | u⟩
    · rw [hsum] at h
      cases h
    · rw [hsum] at h
      cases h
      exact Statistics.within_of_accumulate hsum

/-- Reports that are taken in fail by their counters only. -/
theorem error_of_totals {f : Failure} (h : totals reports = .error f) : ∃ fault, f = .fault fault := by
  rcases totals_cases reports with heq | ⟨⟨fault, heq⟩, -⟩
  · cases heq.symm.trans h
  · cases heq.symm.trans h
    exact ⟨fault, rfl⟩

/-! ## Finished builds -/

/-- What a build that is complete has laid together. -/
structure Assembled (n : Nat) (m : Machine) (sk : Sketch) (tree : Tree) (stats : Statistics)
    (chunks : List Chunk) : Prop where
  done : sk.plots = []
  ledger : Ledger chunks m.nextChunk m.tallies sk
  whole : Whole chunks
  numbered : total chunks ≤ limit32
  within : sk.stats.Within
  nodes : tree.nodes = (merged chunks).toArray
  order : tree.order = ((m.buffers.part .front 0 0 n).map Item.index).toArray
  stats : stats = { sk.stats with chunks := m.nextChunk }

end Builder

namespace Machine

open Builder

variable {p : Plan} {back : Bool} {n : Nat} {root : Plot} {m : Machine} {sk : Sketch}
  {lost : List Site} {tree : Tree} {stats : Statistics} {chunks : List Chunk} {r : Report}
  (h : Tracks p back n root m sk lost)
include h

/-- The sketch of a build that has nothing left to do is finished. -/
theorem Tracks.plots_eq_nil (hr : m.running = none) (hq : m.queue.waiting = []) (hl : lost = []) :
    sk.plots = [] := by
  have hsites := h.sites
  rw [Machine.sites, hr, hq, hl] at hsites
  exact List.map_eq_nil_iff.1 hsites.nil_eq.symm

variable (hw : m.watch.aborted = false)
include hw

/-- Only numbers that were given out are reported. -/
theorem Tracks.id_lt (hr : r ∈ m.reports) : r.chunk.id < m.nextChunk := by
  refine List.mem_range.1 ((h.ledger hw).ids.mem_iff.1 (List.mem_map_of_mem ?_))
  exact List.mem_append_right _ (List.mem_append_right _
    (List.mem_append_right _ (List.mem_map_of_mem hr)))

/-- The reports of a build are summed, and their chunks handed to their slots. -/
theorem Tracks.receiveAll_eq : receiveAll m.nextChunk m.reports =
    (totals m.reports).map fun sum => (sum, handed m.nextChunk m.reports) :=
  Builder.receiveAll_eq fun _ => h.id_lt hw

/-- **No chunk is unexpected.** -/
theorem Tracks.none_unexpected (id : Nat) :
    receiveAll m.nextChunk m.reports ≠ .error (.error (MergeFault.unexpected id).toError) := by
  intro herr
  rw [h.receiveAll_eq hw] at herr
  obtain ⟨fault, hfault⟩ := error_of_totals (map_eq_error herr)
  cases hfault

/-- What a machine lays together when it has finished. -/
theorem Tracks.assemble_eq : assemble m n = (do
    let stats ← totals m.reports
    let chunks ← Effect.ofError (collect (handed m.nextChunk m.reports))
    let nodes ← Chunk.merge chunks
    let ordered ← Effect.ofFault (m.buffers.view .front 0 0 n)
    pure (⟨nodes.toArray, ordered.map Item.index⟩, { stats with chunks := chunks.length })) := by
  rw [assemble, h.receiveAll_eq hw]
  cases totals m.reports <;> rfl

/-- **A build whose chunks are all reported has nothing left to do.** -/
theorem Tracks.done_of_collect (hc : collect (handed m.nextChunk m.reports) = .ok chunks) :
    m.running = none ∧ m.queue.waiting = [] ∧ lost = [] := by
  have hids := (h.ledger hw).ids
  have hnodup := (h.ledger hw).nodup_ids
  rw [Machine.chunks, ← List.append_assoc, ← List.append_assoc] at hids hnodup
  generalize hopen : m.running.toList.map Task.chunk ++
    m.queue.waiting.map (fun j => blank j.chunk) ++
    lost.map (fun s => blank s.place.chunk) = unreported at hids hnodup
  -- every number is given out once, and all of them have been reported
  have hnil : unreported = [] := by
    refine List.eq_nil_iff_forall_not_mem.2 fun c hmem => ?_
    have hlt : c.id < m.nextChunk :=
      List.mem_range.1 (hids.mem_iff.1 (List.mem_map_of_mem (List.mem_append_left _ hmem)))
    have hreported := reported_of_collect hc hlt
    rw [List.map_append, List.nodup_append, List.map_map] at hnodup
    exact hnodup.2.2 _ (List.mem_map_of_mem hmem) _ hreported rfl
  rw [hnil, List.append_eq_nil_iff, List.append_eq_nil_iff] at hopen
  obtain ⟨⟨hrunning, hwaiting⟩, hlost⟩ := hopen
  refine ⟨?_, List.map_eq_nil_iff.1 hwaiting, List.map_eq_nil_iff.1 hlost⟩
  exact Option.toList_eq_nil_iff.1 (List.map_eq_nil_iff.1 hrunning)

/-- The counters of a finished build are those of its sketch. -/
theorem Tracks.sum_reports (hr : m.running = none) :
    (m.reports.map Report.stats).sum = sk.stats := by
  have hsum := (h.ledger hw).stats
  rw [Machine.tallies, hr] at hsum
  exact hsum

/-- The whole order can be read at the end. -/
theorem Tracks.view_eq :
    m.buffers.view .front 0 0 n = .ok (m.buffers.part .front 0 0 n).toArray := by
  obtain ⟨hf, -⟩ := h.fits hw
  exact hf.view_eq (s := .front) (by simp) hf.pos (Nat.zero_le _) (Nat.le_refl _)

variable (hr : m.running = none) (hq : m.queue.waiting = []) (hl : lost = [])
include hr hq hl

/-- All chunks of a finished build are reported. -/
theorem Tracks.exists_chunks : ∃ chunks, collect (handed m.nextChunk m.reports) = .ok chunks ∧
    Ledger chunks m.nextChunk m.tallies sk ∧ Whole chunks := by
  have hledger := h.ledger hw
  have hchunks : m.chunks lost = m.reports.map Report.chunk := by
    rw [Machine.chunks, hr, hq, hl]
    rfl
  rw [hchunks] at hledger
  have hids := hledger.ids
  rw [List.map_map] at hids
  obtain ⟨chunks, hcollect, hnumbers, hperm⟩ := Builder.collect_eq hids
  have hordered := hledger.perm hperm.symm rfl
  exact ⟨chunks, hcollect, hordered, hordered.whole (h.plots_eq_nil hr hq hl) hnumbers⟩

/-- **A finished build whose nodes can be counted is assembled**, unless there are not enough
numbers for them. -/
theorem Tracks.assemble_cases (hwithin : sk.stats.Within) :
    (limit32 < sk.places.length ∧
      ∃ count, assemble m n = .error (.error (.tooManyObjects count))) ∨
    (sk.places.length ≤ limit32 ∧ ∃ tree stats, assemble m n = .ok (tree, stats)) := by
  obtain ⟨chunks, hcollect, hledger, hwhole⟩ := h.exists_chunks hw hr hq hl
  have hplaces : total chunks = sk.places.length := by
    rw [hledger.places.length_eq, ← List.length_map (Chunk.index chunks),
      map_index_places hwhole.ids, List.length_range]
  rcases totals_cases m.reports with htotals | ⟨-, hover⟩
  · simp only [h.assemble_eq hw, htotals, hcollect, Effect.ofFault, Effect.ofError, ok_mapError,
      ok_bind]
    rcases hwhole.merge_cases with ⟨hlt, hmerge⟩ | ⟨hle, hmerge⟩
    · rw [hmerge]
      exact .inl ⟨hplaces ▸ hlt, _, rfl⟩
    · simp only [hmerge, ok_bind, h.view_eq hw, ok_mapError]
      exact .inr ⟨hplaces ▸ hle, _, _, rfl⟩
  · rw [h.sum_reports hw hr] at hover
    exact absurd hwithin hover

/-- **A finished build is assembled** where its tree has room. -/
theorem Tracks.assemble_of_roomy (hroom : Roomy p back root) :
    ∃ tree stats, assemble m n = .ok (tree, stats) := by
  obtain ⟨t, hgrows, hnodes, hwithin⟩ := hroom
  have ht := (h.becomes t).2 hgrows
  have hdone := h.plots_eq_nil hr hq hl
  rw [← ht.stats_eq hdone] at hwithin
  rcases h.assemble_cases hw hr hq hl hwithin with ⟨hfull, -⟩ | ⟨-, hok⟩
  · exact absurd (ht.length_places_le.trans hnodes) (Nat.not_le_of_lt hfull)
  · exact hok

omit hr hq hl in
/-- **What is assembled is a finished build.** -/
theorem Tracks.assembled (hok : assemble m n = .ok (tree, stats)) :
    lost = [] ∧ ∃ chunks, Assembled n m sk tree stats chunks := by
  rw [h.assemble_eq hw] at hok
  obtain ⟨sum, htotals, hok⟩ := bind_eq_ok_iff.1 hok
  obtain ⟨chunks, hcollect, hok⟩ := bind_eq_ok_iff.1 hok
  obtain ⟨nodes, hmerge, hok⟩ := bind_eq_ok_iff.1 hok
  obtain ⟨ordered, hview, hok⟩ := bind_eq_ok_iff.1 hok
  obtain ⟨rfl, rfl⟩ := Prod.mk.inj (Except.ok.inj hok)
  rw [Effect.ofFault, mapError_eq_ok_iff] at hview
  rw [Effect.ofError, mapError_eq_ok_iff] at hcollect
  obtain ⟨hr, hq, hl⟩ := h.done_of_collect hw hcollect
  obtain ⟨chunks', hcollect', hledger, hwhole⟩ := h.exists_chunks hw hr hq hl
  cases hcollect.symm.trans hcollect'
  rw [h.view_eq hw] at hview
  have hsum : sum = sk.stats := by
    rcases totals_cases m.reports with heq | ⟨⟨f, heq⟩, -⟩
    · rw [h.sum_reports hw hr] at heq
      exact Except.ok.inj (htotals.symm.trans heq)
    · cases htotals.symm.trans heq
  have hlen : chunks.length = m.nextChunk := by
    have := hledger.ids.length_eq
    rwa [List.length_map, List.length_range] at this
  rcases hwhole.merge_cases with ⟨-, herr⟩ | ⟨hnumbered, heq⟩
  · cases hmerge.symm.trans herr
  · refine ⟨hl, chunks, h.plots_eq_nil hr hq hl, hledger, hwhole, hnumbered, ?_, ?_, ?_, ?_⟩
    · rw [← hsum]
      exact within_of_totals htotals
    · rw [Except.ok.inj (hmerge.symm.trans heq)]
    · rw [← Except.ok.inj hview, List.map_toArray]
    · rw [hsum, hlen]

end Machine

end BoxTree
