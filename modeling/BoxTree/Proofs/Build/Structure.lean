import BoxTree.Proofs.Tree.Finished
/-!
# The structure of a complete tree

Whatever the boxes, the accepted settings and the order in which the jobs were run: a complete tree
orders all objects, reaches every node in one way, and its leaves tile the objects
(`Builder.build_structured`).
-/

namespace BoxTree

namespace Tree

/-- What is right about the structure of a tree over a number of objects. -/
structure Structured (t : Tree) (n : Nat) : Prop where
  /-- Every object stands in the order once. -/
  order : t.order.toList.Perm (List.range n)
  /-- Every node is reached from the root, and in one way only. -/
  reached : ∀ i < t.nodes.size, ∃! path, t.follow path = some i
  /-- A depth first search visits every node once. -/
  visited : t.preorderPlaces.Perm (List.range t.nodes.size)
  /-- Children are nodes behind their parents. -/
  child : ∀ i turn j, child t.nodes i turn = some j → i < j ∧ j < t.nodes.size
  /-- The depth of a node is its distance from the root. -/
  depth : ∀ path i node, t.follow path = some i → t.nodes[i]? = some node →
    node.depth = path.length
  /-- From left to right the leaves tile the objects. -/
  tiles : Tiles 0 n t.ranges
  /-- No leaf is empty unless there are no objects. -/
  nonempty : 0 < n → ∀ range ∈ t.ranges, range.1 < range.2
  single : n = 0 → ∃ bounds, t.nodes = #[⟨bounds, .leaf 0 0, 0⟩]

end Tree

namespace Builder

variable {builder : Builder} {boxes : List Box} {policy : Policy} {check : Check}
  {queue : JobQueue BuildJob} {tree : Tree} {t : Growth} {places : List Nat}

namespace Grown

variable (h : Grown boxes tree t places)
include h

theorem nodup_places : places.Nodup := h.places.nodup_iff.2 List.nodup_range

theorem mem_places {i : Nat} : i ∈ places ↔ i < tree.nodes.size :=
  h.places.mem_iff.trans List.mem_range

/-- The search visits the nodes as they are drawn. -/
theorem preorderPlaces_eq : tree.preorderPlaces = places := by
  have hlen : places.length = tree.nodes.size := h.places.length_eq.trans List.length_range
  rw [Tree.preorderPlaces, h.drawn.visit_eq hlen.le, ← hlen, Nat.sub_self]
  exact List.append_nil places

theorem order_perm : tree.order.toList.Perm (List.range boxes.length) := by
  rw [h.order, ← map_index_ofBoxes]
  exact h.items.map Item.index

theorem child_lt {i j : Nat} {turn : Turn} (hchild : Tree.child tree.nodes i turn = some j) :
    i < j ∧ j < tree.nodes.size := by
  cases hnode : tree.nodes[i]? with
  | none =>
    rw [Tree.child, hnode] at hchild
    cases hchild
  | some node =>
    have hi := h.mem_places.2 (Array.getElem?_eq_some_iff.1 hnode).1
    obtain ⟨s, js, hs, -, hsub⟩ := h.drawn.subtrees (P := fun _ => True) trivial
      (fun _ => ⟨trivial, trivial⟩) i hi
    cases hs with
    | leaf hleaf =>
      rw [Tree.child, hleaf] at hchild
      cases hchild
    | fork hfork hj hk hl hr =>
      rw [Tree.child, hfork] at hchild
      cases turn with
      | left =>
        cases hchild
        refine ⟨hj, h.mem_places.1 (hsub.subset ?_)⟩
        exact List.mem_cons_of_mem _ (List.mem_append_left _ hl.root_mem)
      | right =>
        cases hchild
        refine ⟨hk, h.mem_places.1 (hsub.subset ?_)⟩
        exact List.mem_cons_of_mem _ (List.mem_append_right _ hr.root_mem)

/-- **A tree that has grown is structured.** -/
theorem structured (hempty : boxes = [] → tree = .empty) : tree.Structured boxes.length where
  order := h.order_perm
  reached i hi := by
    obtain ⟨path, hpath⟩ := h.drawn.exists_path (h.mem_places.2 hi)
    exact ⟨path, hpath, fun _ hpath' => h.drawn.path_unique h.nodup_places hpath' hpath⟩
  visited := by
    rw [h.preorderPlaces_eq]
    exact h.places
  child _ _ _ hchild := h.child_lt hchild
  depth path i node hpath hnode := by
    rw [h.drawn.depth_eq h.proper hpath hnode, h.depth, Nat.zero_add]
  tiles := by
    have htiles := h.proper.tiles
    rw [h.first, h.last] at htiles
    rw [Tree.ranges, h.preorderPlaces_eq, h.drawn.rangesAt_eq]
    exact htiles
  nonempty hpos := by
    rw [Tree.ranges, h.preorderPlaces_eq, h.drawn.rangesAt_eq]
    refine h.proper.range_pos ?_
    rw [Region.size, h.first, h.last]
    exact hpos
  single hnone := by
    rw [hempty (List.eq_nil_of_length_eq_zero hnone)]
    exact ⟨_, rfl⟩

end Grown

/-- **Every complete tree is structured**, for any boxes, any accepted settings, any check, any
platform, and whatever order the jobs are run in. -/
theorem build_structured (ha : builder.Accepted) (hq : queue.waiting = [])
    (h : (builder.build boxes policy check queue).outcome = .ok (.complete tree)) :
    tree.Structured boxes.length := by
  obtain ⟨t, places, hgrown⟩ := grown_of_complete ha hq h
  exact hgrown.structured fun hempty => eq_empty_of_complete hempty h

theorem fine_structured : ∃ tree,
    (fine.build row .fifo .never {}).outcome = .ok (.complete tree) ∧ tree.Structured 3 := by
  obtain ⟨tree, h⟩ := fine_complete
  exact ⟨tree, h, build_structured fine_accepted rfl h⟩

end Builder

end BoxTree
