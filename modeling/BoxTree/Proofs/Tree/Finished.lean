import BoxTree.Proofs.Box.Areas
import BoxTree.Proofs.Build.Gathering
import BoxTree.Proofs.Build.Start
import BoxTree.Proofs.Tree.Drawn
/-!
# The tree of a finished build

A build that is complete has drawn the tree that grows on its root plot: every node stands at the
index of its place, and the order of the objects is that of the items in the leaves from left to
right (`Builder.built_of_complete`). What a tree looks like and what it bounds is read off the tree
that grows, without any machine. However a build ends, it leaves no job waiting
(`Builder.waiting_build`).
-/

namespace BoxTree

open Chunk Sketch Buffers

namespace Chunk

variable {chunks : List Chunk} {c d : Chunk} {a b left right : Address} {i j : Nat}

/-- A chunk begins where all chunks before it have ended. -/
theorem startOf_add_size_le_startOf (hc : chunks[i]? = some c) (hij : i < j) :
    startOf chunks i + c.size ≤ startOf chunks j := by
  induction chunks generalizing i j with
  | nil => cases hc
  | cons d rest ih =>
    obtain ⟨j, rfl⟩ := Nat.exists_eq_succ_of_ne_zero (Nat.ne_zero_of_lt hij)
    rw [startOf_cons_succ]
    cases i with
    | zero =>
      cases hc
      exact (Nat.zero_add c.size).symm ▸ Nat.le_add_right _ _
    | succ i =>
      rw [startOf_cons_succ]
      have := ih hc (Nat.lt_of_succ_lt_succ hij)
      omega

/-- Places of later chunks have greater indices. -/
theorem index_lt_index (hids : chunks.map Chunk.id = List.range chunks.length)
    (ha : a ∈ chunks.flatMap places) (h : a.chunk < b.chunk) : index chunks a < index chunks b := by
  obtain ⟨c, hc, hslot⟩ := exists_of_mem_places hids ha
  have := startOf_add_size_le_startOf hc h
  unfold index
  omega

theorem index_lt_index_of_chunk_eq (hchunk : b.chunk = a.chunk) (h : a.slot < b.slot) :
    index chunks a < index chunks b := by
  rw [index, index, hchunk]
  omega

/-- **Children stand behind their parents.** -/
theorem Links.index_lt {apart : Bool} (h : Links a apart left right)
    (hids : chunks.map Chunk.id = List.range chunks.length) (ha : a ∈ chunks.flatMap places) :
    index chunks a < index chunks left ∧ index chunks a < index chunks right := by
  refine ⟨index_lt_index_of_chunk_eq h.left_chunk h.left_slot, ?_⟩
  cases apart with
  | true => exact index_lt_index hids ha (h.of_apart rfl).1
  | false => exact index_lt_index_of_chunk_eq (h.of_here rfl).1 (h.of_here rfl).2

end Chunk

variable {p : Plan} {back : Bool} {n first last : Nat} {sk : Sketch} {t : Growth} {b : Buffers}
  {chunks : List Chunk}

/-- **A finished sketch is drawn** in the merged chunks. -/
theorem Sketch.Becomes.drawn (h : Becomes p back sk t) (hdone : sk.plots = []) (hw : Whole chunks)
    (hk : sk.Written (Kept chunks)) (hp : sk.places ⊆ chunks.flatMap Chunk.places) :
    Drawn (merged chunks).toArray (index chunks sk.place) t (sk.places.map (index chunks)) := by
  induction h with
  | bare h => cases hdone
  | leaf =>
    refine .leaf ?_
    rw [List.getElem?_toArray, Sketch.place, hw.getElem?_merged hk]
    rfl
  | @fork a r apart left right l r' _ _ ihl ihr =>
    obtain ⟨hroot, hlinks, hl, hr⟩ := hk
    obtain ⟨hdl, hdr⟩ := List.append_eq_nil_iff.1 hdone
    rw [Sketch.places, List.cons_subset, List.append_subset] at hp
    obtain ⟨ha, hpl, hpr⟩ := hp
    obtain ⟨hltl, hltr⟩ := Chunk.Links.index_lt hlinks hw.ids ha
    rw [Sketch.places, List.map_cons, List.map_append]
    refine .fork ?_ hltl hltr (ihl hdl hl hpl) (ihr hdr hr hpr)
    rw [List.getElem?_toArray, Sketch.place, hw.getElem?_merged hroot]
    simp only [moved, hlinks.left_eq, hlinks.right_eq]

/-! ## The order of the objects -/

/-- The leaves hold the items that a list has on their ranges. -/
def Growth.Slices (whole : List Item) : Growth → Prop
  | leaf r _ items => (whole.drop r.first).take (r.last - r.first) = items
  | fork _ _ left right => left.Slices whole ∧ right.Slices whole

/-- Consecutive slices of a list are a slice. -/
theorem take_drop_append {α : Type} (l : List α) {x y z : Nat} (hxy : x ≤ y) (hyz : y ≤ z) :
    (l.drop x).take (y - x) ++ (l.drop y).take (z - y) = (l.drop x).take (z - x) := by
  have hy : l.drop y = (l.drop x).drop (y - x) := by
    rw [List.drop_drop]
    congr 1
    omega
  have hz : z - x = (y - x) + (z - y) := by omega
  rw [hy, hz, List.take_add]

/-- **A proper tree holds the items on its range**, from left to right. -/
theorem Growth.Slices.items_eq {whole : List Item} (h : t.Slices whole) (ht : t.Proper) :
    t.items = (whole.drop t.region.first).take (t.region.last - t.region.first) := by
  induction t with
  | leaf r _ items => exact h.symm
  | fork r _ left right ihl ihr =>
    obtain ⟨hfirst, hmid, hlast, -, -, -, -, -, hl, hr⟩ := ht
    have hlle := hl.first_le_last
    have hrle := hr.first_le_last
    rw [Growth.items, ihl h.1 hl, ihr h.2 hr, Growth.region, ← hfirst, ← hlast, ← hmid]
    exact take_drop_append _ hlle (hmid ▸ hrle)

/-- The buffers hold the leaves of a finished sketch as slices of the final order. -/
theorem Sketch.Becomes.slices (h : Becomes p back sk t) (hdone : sk.plots = [])
    (hb : sk.Holds p b) (hc : sk.Covers first last) (hl : last ≤ n) :
    t.Slices (b.part .front 0 0 n) := by
  induction h generalizing first last with
  | bare h => cases hdone
  | @leaf a r reason items =>
    obtain ⟨rfl, rfl, hle⟩ := hc
    -- the part of a leaf is what remains of the whole part without what is before and behind it
    have hdrop := @part_drop b .front 0 0 r.first n (Nat.zero_le _) (hle.trans hl)
    rw [Nat.sub_zero] at hdrop
    rw [Growth.Slices, hdrop, part_take hle hl]
    exact hb
  | fork _ _ ihl ihr =>
    obtain ⟨hdl, hdr⟩ := List.append_eq_nil_iff.1 hdone
    obtain ⟨mid, hcl, hcr⟩ := hc
    exact ⟨ihl hdl hb.1 hcl (hcr.le.trans hl), ihr hdr hb.2 hcr hl⟩

/-! ## Complete builds -/

namespace Builder

variable {s : Settings} {builder : Builder} {boxes : List Box} {policy : Policy} {check : Check}
  {queue : JobQueue BuildJob} {tree : Tree} {m : Machine} {p : Plan} {platform : Platform}
  {count : Nat}

/-- What a complete build over some boxes has built on a platform. -/
structure Built (builder : Builder) (platform : Platform) (boxes : List Box) (tree : Tree)
    (p : Plan) (t : Growth) (places : List Nat) (result : Builder) : Prop where
  plan : plan builder.settings platform boxes = .ok p
  grows : Grows p (needsBack p boxes.length) (root p boxes) t
  usable : p.Usable (needsBack p boxes.length)
  drawn : Drawn tree.nodes 0 t places
  places : places.Perm (List.range tree.nodes.size)
  slices : ∃ whole, t.Slices whole ∧ tree.order = (whole.map Item.index).toArray ∧
    whole.length = boxes.length
  nodes : t.nodes ≤ limit32
  within : t.stats.Within
  result : result = ⟨builder.settings, { t.stats with chunks := t.jobs + 1 },
    (platform.extent boxes).bounds⟩

/-- How a build goes that has boxes and whose first question is answered. -/
theorem build_eq (hn : boxes.length ≤ limit32) (hne : boxes ≠ []) (hask : check.ask 0 = .ok false) :
    builder.build boxes policy check queue =
      match start builder.settings boxes policy queue with
      | .error f => ⟨builder.cleared, .error (.fault f), 1, queue⟩
      | .ok (p, m) =>
        builder.cleared.conclude p boxes.length
          (m.run p policy check (Machine.enoughSteps boxes.length)) := by
  have hempty : boxes.isEmpty = false := by rw [List.isEmpty_eq_false_iff]; exact hne
  simp only [build, if_neg (Nat.not_lt_of_le hn), hask, hempty]
  rfl

/-- What a build over no boxes leaves. -/
theorem build_empty (hask : check.ask 0 = .ok false) :
    builder.build [] policy check queue = builder.cleared.buildEmpty queue := by
  simp only [build, hask]
  rfl

/-- A build that is complete was allowed to start. -/
theorem le_of_complete
    (h : (builder.build boxes policy check queue).outcome = .ok (.complete tree)) :
    boxes.length ≤ limit32 ∧ check.ask 0 = .ok false := by
  unfold build at h
  simp only at h
  split at h
  · cases h
  · rename_i hn
    split at h
    · cases h
    · cases h
    · rename_i hask
      exact ⟨Nat.le_of_not_lt hn, hask⟩

/-- Over no boxes the tree is a single leaf. -/
theorem eq_empty_of_complete (hempty : boxes = [])
    (h : (builder.build boxes policy check queue).outcome = .ok (.complete tree)) :
    tree = .empty := by
  obtain ⟨hn, hask⟩ := le_of_complete h
  subst hempty
  simp only [build, if_neg (Nat.not_lt_of_le hn), hask] at h
  cases h
  rfl

/-- A build is complete when its machine is assembled. -/
theorem conclude_eq {stats : Statistics} (hf : m.failure = none) (hw : m.watch.aborted = false)
    (hok : assemble m count = .ok (tree, stats)) :
    builder.conclude p count m =
      ⟨{ builder with stats := stats, rootBounds := p.extent.bounds },
        .ok (.complete tree), m.watch.polls, m.queue⟩ := by
  simp only [conclude, hf, hw, hok]
  rfl

theorem assemble_of_conclude
    (h : (builder.conclude p count m).outcome = .ok (.complete tree)) :
    m.failure = none ∧ m.watch.aborted = false ∧
      ∃ stats, assemble m count = .ok (tree, stats) := by
  unfold conclude at h
  split at h
  · cases h
  · rename_i hf
    split at h
    · cases h
    · rename_i hw
      split at h
      · cases h
      · rename_i tree' stats hok
        cases h
        exact ⟨hf, by simpa using hw, stats, hok⟩

theorem queue_conclude (builder : Builder) (p : Plan) (count : Nat) (m : Machine) :
    (builder.conclude p count m).queue = m.queue := by
  unfold conclude
  split
  · rfl
  · split
    · rfl
    · split <;> rfl

/-- **A build leaves its queue alone or runs its machine**, and which of the two does not depend on
the queue. -/
theorem build_cases (builder : Builder) (boxes : List Box) (check : Check) :
    (∃ left outcome polls, (left = builder.cleared ∨
        outcome = .ok (.complete .empty) ∧ left = (builder.cleared.buildEmpty {}).builder) ∧
      ∀ policy queue, builder.build boxes policy check queue = ⟨left, outcome, polls, queue⟩) ∨
    boxes.length ≤ limit32 ∧ ∀ platform, ∃ p buffers, p.extent = platform.extent boxes ∧
      ∀ policy queue, policy.platform = platform →
        start builder.settings boxes policy queue =
          .ok (p, machine policy queue buffers p.extent boxes.length) ∧
        builder.build boxes policy check queue = builder.cleared.conclude p boxes.length
          ((machine policy queue buffers p.extent boxes.length).run p policy check
            (Machine.enoughSteps boxes.length)) := by
  by_cases hn : limit32 < boxes.length
  · exact .inl ⟨builder.cleared, .error (.error (.tooManyObjects boxes.length)), 0, .inl rfl,
      fun policy queue => by simp only [build, if_pos hn]⟩
  · cases hask : check.ask 0 with
    | error f =>
      exact .inl ⟨builder.cleared, .error (.fault f), 1, .inl rfl,
        fun policy queue => by simp only [build, if_neg hn, hask]⟩
    | ok stop =>
      cases stop with
      | true =>
        exact .inl ⟨builder.cleared, .ok .cancelled, 1, .inl rfl,
          fun policy queue => by simp only [build, if_neg hn, hask]⟩
      | false =>
        by_cases hempty : boxes = []
        · subst hempty
          exact .inl ⟨(builder.cleared.buildEmpty {}).builder, .ok (.complete .empty), 1,
            .inr ⟨rfl, rfl⟩, fun policy queue => build_empty hask⟩
        · have hle := Nat.le_of_not_lt hn
          -- the number of pieces is all that can keep a build from having a plan
          cases hpieces : mulWithin limit64 (max builder.settings.nestedThreads 1) 4 with
          | error f =>
            refine .inl ⟨builder.cleared, .error (.fault f), 1, .inl rfl, fun policy queue => ?_⟩
            rw [build_eq hle hempty hask, start, plan, hpieces]
            rfl
          | ok pieces =>
            refine .inr ⟨hle, fun platform => ?_⟩
            obtain ⟨p, hplan⟩ : ∃ p, plan builder.settings platform boxes = .ok p := by
              rw [plan, hpieces]
              exact ⟨_, rfl⟩
            obtain ⟨buffers, hbuffers, -⟩ := prepare_eq p (needsBack p boxes.length) boxes
            refine ⟨p, buffers, (plan_eq hplan).extent, fun policy queue hplatform => ?_⟩
            have hstart : start builder.settings boxes policy queue =
                .ok (p, machine policy queue buffers p.extent boxes.length) := by
              rw [start, hplatform, hplan, ok_bind, hbuffers]
              rfl
            exact ⟨hstart, by rw [build_eq hle hempty hask, hstart]⟩

/-- A machine that a build was given is one it starts with. -/
theorem starts_of_start (h : start builder.settings boxes policy queue = .ok (p, m)) :
    Starts builder.settings boxes policy queue p m := by
  rcases start_cases builder.settings boxes policy queue with ⟨f, -, herr⟩ | ⟨p', m', hok, hm⟩
  · cases h.symm.trans herr
  · cases h.symm.trans hok
    exact hm

/-- **A build leaves no job waiting**, however it ends, so that its queue can be used again. -/
theorem waiting_build (ha : builder.Accepted) (hq : queue.waiting = []) :
    (builder.build boxes policy check queue).queue.waiting = [] := by
  rcases build_cases builder boxes check with ⟨left, outcome, polls, -, heq⟩ | ⟨hn, h⟩
  · rw [heq]
    exact hq
  · obtain ⟨p, buffers, -, h⟩ := h policy.platform
    obtain ⟨hstart, heq⟩ := h policy queue rfl
    have hfin := (starts_of_start hstart).isFinished_iterate ha.validate hq hn check
    rw [Machine.isFinished, Bool.and_eq_true, List.isEmpty_iff] at hfin
    rw [heq, queue_conclude, Machine.run_eq_iterate]
    exact hfin.2

/-- **A complete build has built the tree of its root plot.** -/
theorem built_of_complete (ha : builder.Accepted) (hq : queue.waiting = [])
    (hne : boxes ≠ [])
    (h : (builder.build boxes policy check queue).outcome = .ok (.complete tree)) :
    ∃ p t places, Built builder policy.platform boxes tree p t places
      (builder.build boxes policy check queue).builder := by
  obtain ⟨hn, hask⟩ := le_of_complete h
  rw [build_eq hn hne hask] at h ⊢
  rcases start_cases builder.settings boxes policy queue with ⟨f, -, hstart⟩ | ⟨p, m, hstart, hm⟩
  · rw [hstart] at h
    cases h
  · rw [hstart] at h ⊢
    simp only at h ⊢
    have husable := hm.usable ha.validate
    obtain ⟨lost, htracks, -, -⟩ := hm.tracks hq
    rw [Machine.run_eq_iterate] at h ⊢
    obtain ⟨sk, lost', hlast, -⟩ := htracks.iterate husable hn policy check
      (Machine.enoughSteps boxes.length)
    generalize (Machine.step p policy check)^[Machine.enoughSteps boxes.length] m = m' at h hlast ⊢
    obtain ⟨hfail, hw, stats, hok⟩ := assemble_of_conclude h
    rw [conclude_eq hfail hw hok]
    obtain ⟨-, chunks, hall⟩ := hlast.assembled hw hok
    obtain ⟨t, ht⟩ : ∃ t, Becomes p (needsBack p boxes.length) sk t := exists_becomes hall.done
    obtain ⟨hf, hh⟩ := hlast.fits hw
    -- the places of the sketch are all slots, hence their indices are all nodes of the array
    have hplaces := hall.ledger.places
    have hindices := hplaces.map (index chunks)
    rw [map_index_places hall.whole.ids] at hindices
    have hdrawn := ht.drawn hall.done hall.whole hall.ledger.written hplaces.subset
    have hroot : index chunks sk.place = 0 := by rw [hlast.place]; rfl
    rw [hroot, ← hall.nodes] at hdrawn
    have hsize : tree.nodes.size = total chunks := by
      rw [hall.nodes, List.size_toArray, hall.whole.length_merged]
    have hcount : t.nodes = total chunks := by
      rw [← hdrawn.length_places, hindices.length_eq, List.length_range]
    refine ⟨p, t, sk.places.map (index chunks), hm.plan, (hlast.becomes t).1 ht, husable, hdrawn,
      hsize ▸ hindices, ⟨_, ht.slices hall.done hh hlast.covers (Nat.le_refl _), hall.order, ?_⟩,
      hcount ▸ hall.numbered, ?_, ?_⟩
    · exact hf.length_part (s := .front) (by simp) hf.pos (Nat.le_refl _)
    · rw [← ht.stats_eq hall.done]
      exact hall.within
    · rw [hall.stats, hall.ledger.jobs, ht.stats_eq hall.done, ht.jobs_eq hall.done,
        (plan_eq hm.plan).extent]
      rfl

/-! ## What is read off a complete tree -/

/-- A tree that has grown over boxes and is drawn in all nodes of an array. -/
structure Grown (boxes : List Box) (tree : Tree) (t : Growth) (places : List Nat) : Prop where
  drawn : Drawn tree.nodes 0 t places
  places : places.Perm (List.range tree.nodes.size)
  proper : t.Proper
  first : t.region.first = 0
  last : t.region.last = boxes.length
  depth : t.region.depth = 0
  slices : t.Slices t.items
  order : tree.order = (t.items.map Item.index).toArray
  items : t.items.Perm (Item.ofBoxes boxes)

theorem Built.grown {t : Growth} {places : List Nat} {result : Builder}
    (h : Built builder platform boxes tree p t places result) : Grown boxes tree t places := by
  obtain ⟨hregion, hitems, hproper⟩ := h.grows.proper h.usable (root_sound _)
  obtain ⟨whole, hslices, horder, hlen⟩ := h.slices
  have hwhole : t.items = whole := by
    rw [hslices.items_eq hproper, hregion]
    change (whole.drop 0).take (boxes.length - 0) = whole
    rw [List.drop_zero, Nat.sub_zero, ← hlen, List.take_length]
  refine ⟨h.drawn, h.places, hproper, by rw [hregion]; rfl, by rw [hregion]; rfl,
    by rw [hregion]; rfl, hwhole ▸ hslices, hwhole ▸ horder, ?_⟩
  exact hitems.trans (order_rootStock p boxes)

/-- The single leaf over no boxes. -/
theorem grown_empty : Grown [] .empty (.leaf ⟨0, 0, .empty, 0, .front⟩ .underThreshold []) [0] where
  drawn := .leaf rfl
  places := .refl _
  proper := ⟨Nat.le_refl _, rfl, Extent.spans_ofBoxes []⟩
  first := rfl
  last := rfl
  depth := rfl
  slices := rfl
  order := rfl
  items := .refl _

/-- **A complete tree has grown over its boxes**, whatever the order the jobs were run in. -/
theorem grown_of_complete (ha : builder.Accepted) (hq : queue.waiting = [])
    (h : (builder.build boxes policy check queue).outcome = .ok (.complete tree)) :
    ∃ t places, Grown boxes tree t places := by
  by_cases hempty : boxes = []
  · cases eq_empty_of_complete hempty h
    subst hempty
    exact ⟨_, _, grown_empty⟩
  · obtain ⟨p, t, places, hbuilt⟩ := built_of_complete ha hq hempty h
    exact ⟨t, places, hbuilt.grown⟩

end Builder

/-! ## A build that is complete -/

/-- Whether a build is complete. -/
def BuildResult.isComplete (result : BuildResult) : Bool :=
  match result.outcome with
  | .ok (.complete _) => true
  | _ => false

theorem BuildResult.exists_tree {result : BuildResult} (h : result.isComplete = true) :
    ∃ tree, result.outcome = .ok (.complete tree) := by
  unfold isComplete at h
  split at h
  · rename_i tree heq
    exact ⟨tree, heq⟩
  · cases h

namespace Builder

/-- A builder that splits down to single objects, and makes a job of every right part. -/
def fine : Builder :=
  { settings :=
      { leafThreshold := 1, maxPerLeaf := 1, strategy := .binning, taskThreshold := 1,
        nestedThreads := 0 } }

/-- Three boxes in a row. -/
def row : List Box := [⟨⟨0, 0, 0⟩, ⟨1, 1, 1⟩⟩, ⟨⟨2, 0, 0⟩, ⟨3, 1, 1⟩⟩, ⟨⟨4, 0, 0⟩, ⟨5, 1, 1⟩⟩]

theorem row_finite : ∀ b ∈ row, b.Finite := by
  intro b hb a
  simp only [row, List.mem_cons, List.not_mem_nil, or_false] at hb
  rcases hb with rfl | rfl | rfl <;> cases a <;> decide

theorem fine_accepted : fine.Accepted := ⟨_, rfl⟩

theorem fine_complete :
    ∃ tree, (fine.build row .fifo .never {}).outcome = .ok (.complete tree) :=
  BuildResult.exists_tree (by decide +kernel)

end Builder

end BoxTree
