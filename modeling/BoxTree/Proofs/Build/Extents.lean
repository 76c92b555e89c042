import BoxTree.Proofs.Partition.Pieces
import BoxTree.Proofs.Tree.Finished
/-!
# The extent of the input

The boxes of a build may be gathered piece by piece, and the extents of pieces put together in any
grouping. The order of the boxes decides which of several equal scalars is kept, but their grouping
does not: **every grouping gives the extent that one pass over the boxes gives**
(`Extent.gather_eq`), bit for bit, unless some box has an undefined coordinate or centroid. It is
the extent that a build starts from (`Builder.start_gathers`).
-/

namespace BoxTree

namespace Extent

/-- One pass gathers the boxes and their centers side by side. -/
theorem ofBoxes_eq_foldl (boxes : List Box) : ofBoxes boxes =
    ⟨boxes.foldl Box.union .empty, boxes.foldl (fun c b => c.grow b.center) .empty⟩ := by
  rw [ofBoxes_eq, Box.around, Box.around, List.foldl_map]
  rfl

end Extent

namespace Builder

variable {boxes : List Box} {s : Settings} {policy : Policy} {queue : JobQueue BuildJob} {p : Plan}
  {m : Machine}

/-- The job that a build starts with is for the extent of all boxes, as the platform gathers it. -/
theorem Starts.extent (h : Starts s boxes policy queue p m) (hq : queue.waiting = []) :
    ∀ j ∈ m.queue.waiting, j.region.extent = policy.platform.extent boxes := by
  intro j hj
  obtain ⟨dropped, hsites, -⟩ := h.waiting hq
  have hmem : j.site ∈ m.sites ++ dropped :=
    List.mem_append_left _ (List.mem_append_left _ (List.mem_map_of_mem hj))
  rw [hsites] at hmem
  have hroot := congrArg (fun site => site.region.extent) (List.mem_singleton.1 hmem)
  rwa [root, (plan_eq h.plan).platform] at hroot

/-- **A build starts from the extent that any grouping gives.** However the boxes are cut into
pieces and the extents of these are put together, with that of nothing put in anywhere, what comes
of it is the extent that one pass over the boxes gives, bit for bit. For unions of boxes without
undefined coordinates are associative, and the empty box is their identity on both sides. -/
theorem start_gathers {g : Grouping Box} (hg : g.pieces.flatten = boxes)
    (h : ∀ b ∈ boxes, b.Defined) :
    Extent.gather g =
        ⟨boxes.foldl Box.union .empty, boxes.foldl (fun c b => c.grow b.center) .empty⟩ ∧
      (∀ (builder : Builder) (policy : Policy) (queue : JobQueue BuildJob) (p : Plan) (m : Machine),
        queue.waiting = [] → start builder.settings boxes policy queue = .ok (p, m) →
          ∀ j ∈ m.queue.waiting, j.region.extent = Extent.gather g) ∧
      (∀ b c d : Box, b.Numeric → c.Numeric → d.Numeric →
        (b.union c).union d = b.union (c.union d)) ∧
      ∀ b : Box, b.Numeric → Box.empty.union b = b ∧ b.union .empty = b := by
  subst hg
  have hgather := Extent.gather_eq h
  refine ⟨hgather.trans (Extent.ofBoxes_eq_foldl _), fun builder policy queue p m hq hstart => ?_,
    fun _ _ _ => Box.union_assoc, fun _ hb => ⟨Box.empty_union hb, Box.union_empty hb⟩⟩
  rw [hgather, ← policy.platform.extent_eq h]
  exact (starts_of_start hstart).extent hq

/-- A box without end, one with zeros of the other sign, and one with its corners the wrong way
round. -/
def motley : List Box :=
  [⟨⟨0, 0, 0⟩, ⟨.infinity, 1, 1⟩⟩, ⟨⟨-0, -0, 0⟩, ⟨1, 1, 1⟩⟩, ⟨⟨3, 0, 0⟩, ⟨2, 1, 1⟩⟩]

/-- The last two boxes are gathered together, with nothing put in before and behind them. -/
theorem motley_gathered :
    let g : Grouping Box :=
      .both (.piece (motley.take 1)) (.both .nothing (.both (.piece (motley.drop 1)) .nothing))
    g.pieces.flatten = motley ∧ (∀ b ∈ motley, b.Defined) ∧
      Extent.gather g = ⟨⟨⟨-0, 0, 0⟩, ⟨.infinity, 1, 1⟩⟩,
        ⟨⟨0.5, 0.5, 0.5⟩, ⟨.infinity, 0.5, 0.5⟩⟩⟩ := by
  intro g
  have hpieces : g.pieces.flatten = motley := rfl
  have hdefined : ∀ b ∈ motley, b.Defined := by
    intro b hb
    constructor <;> intro a <;> cases a <;> revert b <;> decide
  refine ⟨hpieces, hdefined, ?_⟩
  rw [(start_gathers hpieces hdefined).1]
  decide +kernel

end Builder

end BoxTree
