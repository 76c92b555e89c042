import BoxTree.Proofs.Box.Areas
import BoxTree.Proofs.Build.Bounds
import BoxTree.Proofs.Json.Trees
/-!
# Saving and loading a complete tree

The text of a complete tree reads back as the tree, bit for bit, as long as the coordinates of the
boxes it was built over are legible (`Builder.build_saved`). The builder computes no coordinates of
its own for the boxes of nodes: each is a coordinate of a box below the node, or a zero. The tree
over no boxes can be written but not read, since its one box is the empty one, whose corners lie at
infinity.
-/

namespace BoxTree

open Json

/-! ## Legible boxes -/

namespace Scalar

variable {a b : Scalar}

/-- Both zeros are legible. -/
theorem legible_zero : Legible 0 ∧ Legible (-0) := by decide +kernel

theorem IsZero.legible (h : a.IsZero) : a.Legible := by
  obtain ⟨s, hs⟩ := h
  have hnan : a.isNaN = false := by
    change a.toModel.unpack.isNaN = false
    rw [hs]
    rfl
  have hunits : a.units = units 0 := by
    change unpackedUnits a.toModel.unpack = _
    rw [hs]
    rfl
  obtain ⟨-, -, rfl | ⟨rfl, -⟩ | ⟨rfl, -⟩⟩ :=
    Float32.beq_iff_ne_nan_and_eq.1 ((beq_iff_units hnan (by decide)).2 hunits)
  · exact legible_zero.1
  · exact legible_zero.1
  · exact legible_zero.2

/-- A scalar is as legible as another with the same units. -/
theorem Alike.legible (h : a.Alike b) (hb : b.Legible) : a.Legible := by
  rcases h with rfl | ⟨ha, -⟩
  · exact hb
  · exact ha.legible

end Scalar

namespace Box

variable {b c : Box} {boxes : List Box}

theorem Legible.finite (h : b.Legible) : b.Finite := fun a => ⟨(h a).1.isFinite, (h a).2.isFinite⟩

/-- **Every face of a union is that of one of the boxes.** -/
theorem exists_face (hne : boxes ≠ []) (hn : ∀ b ∈ boxes, b.Numeric) (a : Axis) :
    (∃ b ∈ boxes, ((around boxes).faces a).1 = (b.faces a).1) ∧
      ∃ b ∈ boxes, ((around boxes).faces a).2 = (b.faces a).2 := by
  induction boxes with
  | nil => exact absurd rfl hne
  | cons b rest ih =>
    rw [List.forall_mem_cons] at hn
    rw [faces_around_cons hn.1 hn.2]
    by_cases hrest : rest = []
    · subst hrest
      have hself : b.faces ⊔ (around []).faces = b.faces := sup_eq_left.2 (faces_empty_le b)
      rw [hself]
      exact ⟨⟨b, List.mem_cons_self, rfl⟩, b, List.mem_cons_self, rfl⟩
    · obtain ⟨⟨c, hc, hlo⟩, d, hd, hhi⟩ := ih hrest hn.2
      rw [Pi.sup_apply, Prod.fst_sup, Prod.snd_sup, hlo, hhi]
      constructor
      · rcases le_total (b.faces a).1 (c.faces a).1 with hle | hle
        · exact ⟨c, List.mem_cons_of_mem _ hc, sup_eq_right.2 hle⟩
        · exact ⟨b, List.mem_cons_self, sup_eq_left.2 hle⟩
      · rcases le_total (b.faces a).2 (d.faces a).2 with hle | hle
        · exact ⟨d, List.mem_cons_of_mem _ hd, sup_eq_right.2 hle⟩
        · exact ⟨b, List.mem_cons_self, sup_eq_left.2 hle⟩

/-- **A union of legible boxes is legible**, as far as its faces tell. -/
theorem legible_of_faces (hb : b.Numeric) (hne : boxes ≠ []) (hboxes : ∀ c ∈ boxes, c.Legible)
    (h : b.faces = (around boxes).faces) : b.Legible := by
  have hn : ∀ c ∈ boxes, c.Numeric := fun c hc => (hboxes c hc).finite.numeric
  intro a
  obtain ⟨⟨c, hc, hlo⟩, d, hd, hhi⟩ := exists_face hne hn a
  rw [← h] at hlo hhi
  exact ⟨(Scalar.alike_of_units (hb a).1 (hn c hc a).1 (OrderDual.toDual_inj.1 hlo)).legible
      (hboxes c hc a).1,
    (Scalar.alike_of_units (hb a).2 (hn d hd a).2 hhi).legible (hboxes d hd a).2⟩

end Box

/-! ## Nodes that can be read -/

namespace Tree

variable {t : Tree} {n i : Nat} {path : List Turn}

/-- Every step of a path goes on to a later node. -/
theorem Structured.length_le (h : t.Structured n) {j : Nat}
    (hpath : followFrom t.nodes i path = some j) : i + path.length ≤ j := by
  induction path generalizing i with
  | nil => exact (Option.some.inj hpath).le
  | cons turn path ih =>
    rw [followFrom] at hpath
    obtain ⟨k, hk, hrest⟩ := Option.bind_eq_some_iff.1 hpath
    have hlt := (h.child i turn k hk).1
    have hle := ih hrest
    rw [List.length_cons]
    omega

/-- A node lies no deeper than there are nodes before it. -/
theorem Structured.depth_le (h : t.Structured n) {node : Node} (hnode : t.nodes[i]? = some node) :
    node.depth ≤ i := by
  obtain ⟨path, hpath, -⟩ := h.reached i (Array.getElem?_eq_some_iff.1 hnode).1
  rw [h.depth path i node hpath hnode]
  exact (Nat.zero_add _).symm.le.trans (h.length_le hpath)

end Tree

/-- Both branches of a tree hold objects. -/
theorem Growth.Proper.branches {r : Region} {apart : Bool} {left right : Growth}
    (h : (Growth.fork r apart left right).Proper) :
    (left.Proper ∧ 0 < left.region.size) ∧ right.Proper ∧ 0 < right.region.size := by
  obtain ⟨-, -, -, -, -, hl, hr, -, hleft, hright⟩ := h
  exact ⟨⟨hleft, hl⟩, hright, hr⟩

namespace Builder

variable {builder : Builder} {boxes : List Box} {policy : Policy} {check : Check}
  {queue : JobQueue BuildJob} {tree : Tree} {t : Growth} {places : List Nat}

/-- **Every node of a tree that has grown can be read**, as long as its numbers have 32 bits. -/
theorem Grown.readable (h : Grown boxes tree t places) (hne : boxes ≠ [])
    (hboxes : ∀ b ∈ boxes, b.Legible) (hn : boxes.length ≤ limit32)
    (hnodes : tree.nodes.size ≤ limit32) : ∀ node ∈ tree.nodes.toList, node.Readable := by
  intro node hmem
  obtain ⟨i, hi⟩ := List.getElem?_of_mem hmem
  rw [Array.getElem?_toList] at hi
  have hlt := (Array.getElem?_eq_some_iff.1 hi).1
  have hroot : t.Proper ∧ 0 < t.region.size := by
    refine ⟨h.proper, ?_⟩
    rw [Region.size, h.first, h.last]
    exact List.length_pos_iff.2 hne
  obtain ⟨s, js, hs, hu, ⟨hproper, hpos⟩, -⟩ := h.exists_subtree
    (P := fun s => s.Proper ∧ 0 < s.region.size) hroot (fun hs => hs.1.branches) hi
  obtain ⟨-, hnumeric, hfaces⟩ := hu.bounds fun b hb => (hboxes b hb).finite.numeric
  refine ⟨?_, ?_, ?_⟩
  · rw [(hs.root_eq hi).1]
    refine Box.legible_of_faces hnumeric ?_ ?_ hfaces
    · rw [Ne, List.map_eq_nil_iff, ← List.length_eq_zero_iff, hproper.length_items]
      exact Nat.ne_of_gt hpos
    · intro b hb
      obtain ⟨o, ho, rfl⟩ := List.mem_map.1 hb
      exact hboxes _ (List.mem_of_getElem? (hu.items o ho))
  · cases hs with
    | @leaf i r reason items hleaf =>
      cases hleaf.symm.trans hi
      have hle : r.first ≤ r.last := hproper.first_le_last
      have hlast : r.last ≤ t.items.length := hu.last
      rw [h.proper.length_items, Region.size, h.first, h.last, Nat.sub_zero] at hlast
      exact ⟨(hle.trans hlast).trans hn, hlast.trans hn⟩
    | @fork i j k r apart left right js ks hfork =>
      cases hfork.symm.trans hi
      have hj : Tree.child tree.nodes i .left = some j := by rw [Tree.child, hfork]; rfl
      have hk : Tree.child tree.nodes i .right = some k := by rw [Tree.child, hfork]; rfl
      exact ⟨(h.child_lt hj).2.le.trans hnodes, (h.child_lt hk).2.le.trans hnodes⟩
  · have hdepth := (h.structured fun hempty => absurd hempty hne).depth_le hi
    exact (hdepth.trans hlt.le).trans hnodes

/-! ## Complete trees -/

/-- No box is around no objects, and what is infinite cannot be read. -/
theorem ofJson?_empty : Tree.ofJson? Tree.empty.toJson = none := by decide +kernel

/-- **A complete tree over some boxes reads back from its text**, for any accepted settings, any
check, and whatever order the jobs are run in. The tree over no boxes can be written, but not
read. -/
theorem build_saved (ha : builder.Accepted) (hq : queue.waiting = [])
    (hboxes : ∀ b ∈ boxes, b.Legible)
    (h : (builder.build boxes policy check queue).outcome = .ok (.complete tree)) :
    (boxes ≠ [] → (parse? tree.toJson.compact).bind Tree.ofJson? = some tree) ∧
    (boxes = [] → parse? tree.toJson.compact = some tree.toJson ∧
      Tree.ofJson? tree.toJson = none) := by
  refine ⟨fun hne => ?_, fun hempty => ⟨tree.parse?_toJson, ?_⟩⟩
  · obtain ⟨p, t, places, hbuilt⟩ := built_of_complete ha hq hne h
    have hgrown := hbuilt.grown
    have hn := (le_of_complete h).1
    have hsize : tree.nodes.size = t.nodes := by
      rw [← hbuilt.drawn.length_places, hbuilt.places.length_eq, List.length_range]
    have horder : ∀ o ∈ tree.order.toList, o ≤ limit32 := fun o ho =>
      (List.mem_range.1 (hgrown.order_perm.mem_iff.1 ho)).le.trans hn
    rw [tree.parse?_toJson, Option.bind_some]
    exact Tree.ofJson?_toJson
      (hgrown.readable hne hboxes hn (hsize.trans_le hbuilt.nodes)) horder
  · rw [eq_empty_of_complete hempty h]
    exact ofJson?_empty

theorem row_legible : ∀ b ∈ row, b.Legible := by
  intro b hb a
  simp only [row, List.mem_cons, List.not_mem_nil, or_false] at hb
  rcases hb with rfl | rfl | rfl <;> cases a <;> decide +kernel

theorem fine_saved : (∀ b ∈ row, b.Legible) ∧ row ≠ [] ∧ ∃ tree,
    (fine.build row .fifo .never {}).outcome = .ok (.complete tree) ∧
      (parse? tree.toJson.compact).bind Tree.ofJson? = some tree := by
  obtain ⟨tree, h⟩ := fine_complete
  exact ⟨row_legible, nofun, tree, h, (build_saved fine_accepted rfl row_legible h).1 nofun⟩

/-- Over no boxes a build is complete, and its tree does not read back from its text. -/
theorem fine_unreadable : (fine.build [] .fifo .never {}).outcome = .ok (.complete .empty) ∧
    (parse? Tree.empty.toJson.compact).bind Tree.ofJson? = none := by
  refine ⟨rfl, ?_⟩
  rw [Tree.parse?_toJson, Option.bind_some]
  exact ofJson?_empty

end Builder

end BoxTree
