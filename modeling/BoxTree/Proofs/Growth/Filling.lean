import BoxTree.Proofs.Chunks.Slots
import BoxTree.Proofs.Growth.Views
import BoxTree.Proofs.Machine.Submissions
/-!
# What a piece of work does to its chunk

Carrying out a decision writes nothing, or one node in the slot of the piece of work. The children
of that node get the next slots of the chunk, and further work each, or a chunk of their own that a
job is submitted for. `Effect.Fills` says so, and what a piece of work can fail for; **where its
slot was taken and is empty, writing is not among it** (`Effect.fills_of_yields`). Nothing is
assumed of the region, of the decision, or of what a partition makes of the region
(`Effect.Yields`).
-/

namespace BoxTree

namespace Effect

/-- What is left to do about a region whose objects were moved to the two sides of a plane. -/
def share (p : Plan) (e : Effect) (slot : Nat) (r : Region) (halves : Halves) (side : Side) :
    Except Failure Effect :=
  if halves.isDegenerate then pure { e with work := [.halve slot r] }
  else
    let mid := r.first + halves.left.count
    let left := r.before mid halves.left.extent side
    let right := r.after mid halves.right.extent side
    let threshold := p.settings.taskThreshold
    if threshold ≤ left.size && threshold ≤ right.size then e.branchApart slot r left right
    else e.branchHere slot r left right .split

/-- What carrying out a decision may come to, whatever a partition makes of the region. -/
inductive Yields (p : Plan) (e : Effect) (w : Work) : Decision → Except Failure Effect → Prop where
  | performed (d : Decision) : Yields p e w d (perform p e w d)
  | parted (s : Split) (b : Buffers) (halves : Halves) (side : Side) :
    Yields p e w (.divide s) ((e.on b).share p w.slot w.region halves side)

/-- What a piece of work does to its chunk, or fails for. A failure is one of the object buffers, of
the numbers for slots, or of a counter. -/
inductive Fills (p : Plan) (e : Effect) (w : Work) : Decision → Except Failure Effect → Prop where
  /-- The piece is dropped. -/
  | stop : Fills p e w .stop (.ok e)
  /-- The region is halved from now on, into the same slot. -/
  | again {d : Decision} {b : Buffers} (hd : d ≠ .stop) :
    Fills p e w d (.ok { e with buffers := b, work := [.halve w.slot w.region] })
  /-- A node is written into the slot, which was empty. -/
  | node {d : Decision} {n : ChunkNode} {e' : Effect} (count : Nat) (hd : d ≠ .stop)
      (hslot : e.chunk.slots[w.slot]? = some none)
      (hchunk : e'.chunk = e.chunk.fill count w.slot n)
      (hslots : n.kind.slots = List.range' e.chunk.size count)
      (hwork : e'.work.map Work.slot = n.kind.slots)
      (hjob : e'.job.toList.map BuildJob.chunk = n.kind.chunks) (hnumbers : e.Numbers e') :
    Fills p e w d (.ok e')
  | unsettled {reason : LeafReason} {f : Fault}
      (h : e.buffers.settle w.region.side w.region.first w.region.last = .error f) :
    Fills p e w (.leaf reason) (.error (.fault f))
  | unparted {s : Split} {f : Fault} (h : p.partition e.buffers w.region s = .error f) :
    Fills p e w (.divide s) (.error (.fault f))
  | unmeasured {first last : Nat} {f : Fault}
      (h : Plan.extentOf e.buffers w.region.side first last = .error f) :
    Fills p e w .cut (.error (.fault f))
  | full {d : Decision} {size : Nat} (hsize : size ≤ e.chunk.size + 1) (h : limit32 ≤ size) :
    Fills p e w d (.error (.error (.tooManyObjects size)))
  | uncounted {d : Decision} {tally : Statistics} (h : ¬ (e.stats + tally).Within) :
    Fills p e w d (.error (.fault (.overflow "add")))

variable {p : Plan} {e e' : Effect} {w : Work} {d : Decision} {r : Except Failure Effect}
  {b : Buffers} {left right : Region} {work : Nat → Region → Work}

/-- A job has the next number for a chunk. -/
theorem Fills.numbers (h : e.Fills p w d (.ok e')) (hjob : e.job = none) : e.Numbers e' := by
  cases h with
  | stop => exact numbers_of_none hjob rfl rfl
  | again => exact numbers_of_none hjob rfl rfl
  | node _ _ _ _ _ _ _ hnumbers => exact hnumbers

section Empty

variable (hslot : e.chunk.slots[w.slot]? = some none)
include hslot

theorem fills_branchApart (hd : d ≠ .stop) :
    Fills p e w d ((e.on b).branchApart w.slot w.region left right) := by
  simp only [branchApart, on]
  rcases e.chunk.alloc_cases with ⟨hfull, halloc⟩ | halloc
  · rw [halloc]
    exact .full (Nat.le_succ _) hfull
  · have hgrown := (Chunk.slots_grown (Chunk.slot_lt hslot)).trans hslot
    rw [halloc]
    simp only [ofError, ofFault, ok_mapError, ok_bind, Chunk.write_eq hgrown]
    rcases counted_cases (Statistics.records_interior e.stats) with heq | ⟨heq, hover⟩
    · rw [heq]
      exact .node 1 hd hslot rfl rfl rfl rfl ⟨rfl, rfl, fun j hj => by cases hj; rfl⟩
    · rw [heq]
      exact .uncounted hover

theorem fills_branchHere (hd : d ≠ .stop) (hjob : e.job = none)
    (hwork : ∀ slot r, (work slot r).slot = slot) :
    Fills p e w d ((e.on b).branchHere w.slot w.region left right work) := by
  simp only [branchHere, on]
  rcases e.chunk.alloc_cases with ⟨hfull, halloc⟩ | halloc
  · rw [halloc]
    exact .full (Nat.le_succ _) hfull
  · rw [halloc]
    simp only [ofError, ok_mapError, ok_bind]
    rcases e.chunk.grown.alloc_cases with ⟨hfull, halloc⟩ | halloc
    · rw [halloc]
      exact .full (Nat.le_of_eq (Chunk.size_grown _)) hfull
    · have hgrown : e.chunk.grown.grown.slots[w.slot]? = some none :=
        (Chunk.slots_grow (Chunk.slot_lt hslot) 2).trans hslot
      rw [halloc, Chunk.size_grown]
      simp only [ofFault, ok_mapError, ok_bind, Chunk.write_eq hgrown]
      rcases counted_cases (Statistics.records_interior e.stats) with heq | ⟨heq, hover⟩
      · rw [heq]
        refine .node 2 hd hslot rfl rfl ?_ ?_ (numbers_of_none hjob rfl rfl)
        · simp only [List.map_cons, List.map_nil, hwork]
          rfl
        · simp only [hjob]
          rfl
      · rw [heq]
        exact .uncounted hover

theorem fills_leaf (hwork : e.work = []) (hjob : e.job = none) (reason : LeafReason) :
    Fills p e w (.leaf reason) (e.leaf w.slot w.region reason) := by
  rw [leaf]
  cases hsettle : e.buffers.settle w.region.side w.region.first w.region.last with
  | error f => exact .unsettled hsettle
  | ok b =>
    simp only [ofFault, ok_mapError, ok_bind, Chunk.write_eq hslot]
    rcases counted_cases (Statistics.records_leaf e.stats reason w.region.depth w.region.size) with
      heq | ⟨heq, hover⟩
    · rw [heq]
      refine .node 0 (by simp) hslot rfl rfl ?_ ?_ (numbers_of_none hjob rfl rfl)
      · simp only [hwork]
        rfl
      · simp only [hjob]
        rfl
    · rw [heq]
      exact .uncounted hover

theorem fills_share (hjob : e.job = none) (s : Split) (b : Buffers) (halves : Halves)
    (side : Side) : Fills p e w (.divide s) ((e.on b).share p w.slot w.region halves side) := by
  simp only [share]
  split
  · exact .again nofun
  · split
    · exact fills_branchApart hslot nofun
    · exact fills_branchHere hslot nofun hjob fun _ _ => rfl

theorem fills_divide (hjob : e.job = none) (s : Split) :
    Fills p e w (.divide s) (e.divide p w.slot w.region s) := by
  have hdivide : e.divide p w.slot w.region s = ofFault (p.partition e.buffers w.region s) >>=
      fun parted => (e.on parted.1).share p w.slot w.region parted.2.1 parted.2.2 := rfl
  rw [hdivide]
  cases hparted : p.partition e.buffers w.region s with
  | error f => exact .unparted hparted
  | ok parted => exact fills_share hslot hjob s _ _ _

theorem fills_cut (hjob : e.job = none) : Fills p e w .cut (e.cut w.slot w.region) := by
  simp only [cut]
  generalize w.region.first + w.region.size / 2 = mid
  cases hleft : Plan.extentOf e.buffers w.region.side w.region.first mid with
  | error f => exact .unmeasured hleft
  | ok left =>
    cases hright : Plan.extentOf e.buffers w.region.side mid w.region.last with
    | error f => exact .unmeasured hright
    | ok right => exact fills_branchHere (b := e.buffers) hslot (by simp) hjob fun _ _ => rfl

/-- **Writing a node does not fail** where its slot was taken and is empty. -/
theorem fills_of_yields (hwork : e.work = []) (hjob : e.job = none) (h : Yields p e w d r) :
    Fills p e w d r := by
  cases h with
  | parted s b halves side => exact fills_share hslot hjob s b halves side
  | performed =>
    cases d with
    | stop => exact .stop
    | leaf reason => exact fills_leaf hslot hwork hjob reason
    | divide s => exact fills_divide hslot hjob s
    | giveUp => exact .again nofun
    | cut => exact fills_cut hslot hjob

end Empty

end Effect

end BoxTree
