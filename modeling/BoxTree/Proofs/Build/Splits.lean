import BoxTree.Proofs.Build.Order
import BoxTree.Proofs.Growth.Splits
/-!
# The splits of a complete tree

An exact build over finite boxes, none of whose planes costs infinitely much, follows the cheapest
plane everywhere. An interior node over objects that differ is their cut by such a plane
(`Builder.build_cut_best`), and a node over them is a leaf exactly where a leaf may hold them and is
no dearer (`Builder.build_kept_well`).
-/

namespace BoxTree

open BoxTree.Partition

namespace Tree

/-- The objects in the leaves below a node with their boxes, from left to right. -/
def itemsBelow (t : Tree) (boxes : List Box) (i : Nat) : List Item :=
  (t.objectsBelow i).filterMap fun o => boxes[o]?.map (Item.mk · o)

/-- No plane that a search has looked at costs infinitely much: those that separate the objects
below a node that is neither small nor deep. -/
def Affordable (t : Tree) (s : Settings) (boxes : List Box) : Prop :=
  ∀ i node, t.nodes[i]? = some node → node.depth < Plan.maxDepth →
    s.leafThreshold < (t.itemsBelow boxes i).length → Split.Affordable (t.itemsBelow boxes i)

end Tree

namespace Builder

variable {builder : Builder} {boxes : List Box} {policy : Policy} {check : Check}
  {queue : JobQueue BuildJob} {tree : Tree} {t : Growth} {places : List Nat} {s : Settings}

namespace Grown

variable (h : Grown boxes tree t places)
include h

theorem itemsBelow_eq {s : Growth} {js : List Nat} {i : Nat} (hs : Drawn tree.nodes i s js)
    (hu : Under boxes t.items s) (hsub : js.Sublist places) :
    tree.itemsBelow boxes i = s.items := by
  rw [Tree.itemsBelow, h.objectsBelow_eq hs hu hsub, hu.filterMap_item]

/-- The items below a node are among those of the build. -/
theorem subperm_itemsBelow {i : Nat} {node : Node} (hnode : tree.nodes[i]? = some node) :
    (tree.itemsBelow boxes i).Subperm (Item.ofBoxes boxes) := by
  obtain ⟨s, js, hs, hu, hsub, hjs⟩ := h.exists_subtree (P := fun s => s.items.Sublist t.items)
    (.refl _) (fun hfork => ⟨(List.sublist_append_left _ _).trans hfork,
      (List.sublist_append_right _ _).trans hfork⟩) hnode
  rw [h.itemsBelow_eq hs hu hjs]
  exact hsub.subperm.trans h.items.subperm

/-- All items are below the root. -/
theorem itemsBelow_root : (tree.itemsBelow boxes 0).Perm (Item.ofBoxes boxes) := by
  rw [h.itemsBelow_eq h.drawn h.under (.refl _)]
  exact h.items

/-- What is affordable at the nodes of a tree is so in the tree that has grown. -/
theorem affordable (hf : tree.Affordable s boxes) : t.All (Growth.Affordable s) := by
  refine h.drawn.all (P := Under boxes t.items) h.under Under.fork ?_
  rintro j r js hs hu hsub ⟨hdepth, hsize⟩
  obtain ⟨node, hnode⟩ := hs.exists_root
  have hitems := h.itemsBelow_eq hs hu hsub
  have := hf j node hnode
  rw [hitems, (hs.root_eq hnode).2] at this
  exact this hdepth hsize

end Grown

theorem ofBoxes_tame (hfinite : ∀ b ∈ boxes, b.Finite) (hn : boxes.length ≤ limit32) :
    Item.Tame (Item.ofBoxes boxes) where
  finite _ ho := hfinite _ (List.mem_of_getElem? (getElem?_of_mem_ofBoxes ho))
  length := by
    rw [length_ofBoxes]
    exact Nat.lt_of_le_of_lt hn (by decide)

/-- The root of an exact build over finite boxes. -/
theorem root_tame (p : Plan) (back : Bool) (hfinite : ∀ b ∈ boxes, b.Finite)
    (hn : boxes.length ≤ limit32) : (root p boxes).Tame p back boxes.length where
  ordered := root_ordered p back boxes
  tame := (ofBoxes_tame hfinite hn).perm (order_rootStock p boxes).symm
  halved := nofun

/-- **Every node of a complete tree follows the cheapest plane.** -/
theorem splits_of_complete (ha : builder.Accepted) (hq : queue.waiting = [])
    (hexact : builder.settings.search boxes.length = .exact) (hfinite : ∀ b ∈ boxes, b.Finite)
    (h : (builder.build boxes policy check queue).outcome = .ok (.complete tree))
    (hf : tree.Affordable builder.settings boxes) :
    ∃ t places, Grown boxes tree t places ∧
      t.All fun s => s.CutBest ∧ s.KeptWell builder.settings := by
  by_cases hempty : boxes = []
  · cases eq_empty_of_complete hempty h
    subst hempty
    refine ⟨_, _, grown_empty, trivial, ?_⟩
    rintro - ⟨a, o, ho, -⟩
    cases ho
  · obtain ⟨p, t, places, hbuilt⟩ := built_of_complete ha hq hempty h
    obtain ⟨hsettings, hsearch, -⟩ := plan_eq hbuilt.plan
    have hgrown := hbuilt.grown
    have hsplits := hbuilt.grows.splits hbuilt.usable (hsearch.trans hexact)
      (root_tame p _ hfinite (le_of_complete h).1) (hsettings ▸ hgrown.affordable hf)
    exact ⟨t, places, hgrown, hsettings ▸ hsplits⟩

/-- **Every split of an exact build is the best one.** Over finite boxes whose planes cost less than
infinity, the children of a node whose objects differ in their centroids hold the objects on the two
sides of a plane, and their cost factor is the least of all planes that separate the objects. -/
theorem build_cut_best (ha : builder.Accepted) (hq : queue.waiting = [])
    (hexact : builder.settings.search boxes.length = .exact) (hfinite : ∀ b ∈ boxes, b.Finite)
    (h : (builder.build boxes policy check queue).outcome = .ok (.complete tree))
    (hf : tree.Affordable builder.settings boxes) :
    ∀ (i l r : Nat) (node : Node), tree.nodes[i]? = some node → node.kind = .interior l r →
      Item.Spread (tree.itemsBelow boxes i) →
      ∃ left right a v, tree.nodes[l]? = some left ∧ tree.nodes[r]? = some right ∧
        (tree.itemsBelow boxes l).Perm
          ((tree.itemsBelow boxes i).filter fun o => o.centroid a ≤ v) ∧
        (tree.itemsBelow boxes r).Perm
          ((tree.itemsBelow boxes i).filter fun o => v < o.centroid a) ∧
        Split.Least (tree.itemsBelow boxes i)
          (Scalar.ofCount (tree.itemsBelow boxes l).length * left.bounds.halfArea +
            Scalar.ofCount (tree.itemsBelow boxes r).length * right.bounds.halfArea) := by
  obtain ⟨t, places, hgrown, hall⟩ := splits_of_complete ha hq hexact hfinite h hf
  intro i l r node hnode hkind hspread
  obtain ⟨s, js, hs, hu, hp, hsub⟩ := hgrown.exists_subtree hall And.right hnode
  rw [hgrown.itemsBelow_eq hs hu hsub] at hspread ⊢
  cases hs with
  | leaf hleaf =>
    cases hleaf.symm.trans hnode
    cases hkind
  | fork hfork hj hk hl hr =>
    cases hfork.symm.trans hnode
    cases hkind
    have hlsub := ((List.sublist_append_left _ _).trans (List.sublist_cons_self _ _)).trans hsub
    have hrsub := ((List.sublist_append_right _ _).trans (List.sublist_cons_self _ _)).trans hsub
    obtain ⟨left, hleft⟩ := hl.exists_root
    obtain ⟨right, hright⟩ := hr.exists_root
    rw [hgrown.itemsBelow_eq hl hu.fork.1 hlsub, hgrown.itemsBelow_eq hr hu.fork.2 hrsub]
    obtain ⟨a, v, hpl, hpr, hleast⟩ := hp.root.1 hspread
    refine ⟨left, right, a, v, hleft, hright, hpl, hpr, ?_⟩
    rw [(hl.root_eq hleft).1, (hr.root_eq hright).1]
    exact hleast

theorem row_spread : Item.Spread (Item.ofBoxes row) :=
  ⟨.x, _, .head _, _, .tail _ (.head _), by decide +kernel⟩

/-- No plane through the row costs infinitely much. -/
theorem Grown.row_affordable (h : Grown row tree t places) : tree.Affordable s row := by
  intro i node hnode _ _
  exact Split.Affordable.of_subperm (ofBoxes_tame row_finite (by decide)) (by decide +kernel)
    (h.subperm_itemsBelow hnode)

/-- An exact build over the row forks at its root. -/
theorem fineExact_forks : ∃ tree,
    (fineExact.build row .fifo .never {}).outcome = .ok (.complete tree) ∧
    tree.Affordable fineExact.settings row ∧
    (tree.itemsBelow row 0).Perm (Item.ofBoxes row) ∧
    ∃ l r node, tree.nodes[0]? = some node ∧ node.kind = .interior l r ∧ node.depth = 0 := by
  obtain ⟨tree, h⟩ := fineExact_complete
  have hf : tree.Affordable fineExact.settings row := by
    obtain ⟨t, places, hgrown⟩ := grown_of_complete fineExact_accepted rfl h
    exact hgrown.row_affordable
  obtain ⟨t, places, hgrown, hall⟩ :=
    splits_of_complete fineExact_accepted rfl rfl row_finite h hf
  obtain ⟨node, hnode⟩ := hgrown.drawn.exists_root
  have hdepth : node.depth = 0 := (hgrown.drawn.root_eq hnode).2.trans hgrown.depth
  have hsize : t.items.length = 3 := hgrown.items.length_eq.trans (by decide)
  have hsearched : t.Searched fineExact.settings := by
    rw [Growth.Searched, hgrown.depth, hsize]
    decide
  have hcrowded : fineExact.settings.maxPerLeaf < t.items.length := by
    rw [hsize]
    decide
  have hfork : ¬ t.IsLeaf :=
    hall.root.2.not_isLeaf hsearched (row_spread.perm hgrown.items.symm) hcrowded
  refine ⟨tree, h, hf, hgrown.itemsBelow_root, ?_⟩
  rw [← hgrown.drawn.isLeaf_iff hnode] at hfork
  obtain ⟨bounds, kind, depth⟩ := node
  cases kind with
  | leaf first last => exact absurd rfl hfork
  | interior l r => exact ⟨l, r, _, hnode, rfl, hdepth⟩

theorem fineExact_cut_best : fineExact.settings.search row.length = .exact ∧
    (∀ b ∈ row, b.Finite) ∧ ∃ tree,
    (fineExact.build row .fifo .never {}).outcome = .ok (.complete tree) ∧
    tree.Affordable fineExact.settings row ∧ ∃ l r node, tree.nodes[0]? = some node ∧
      node.kind = .interior l r ∧ Item.Spread (tree.itemsBelow row 0) ∧
      ∃ left right a v, tree.nodes[l]? = some left ∧ tree.nodes[r]? = some right ∧
        (tree.itemsBelow row l).Perm
          ((tree.itemsBelow row 0).filter fun o => o.centroid a ≤ v) ∧
        (tree.itemsBelow row r).Perm
          ((tree.itemsBelow row 0).filter fun o => v < o.centroid a) ∧
        Split.Least (tree.itemsBelow row 0)
          (Scalar.ofCount (tree.itemsBelow row l).length * left.bounds.halfArea +
            Scalar.ofCount (tree.itemsBelow row r).length * right.bounds.halfArea) := by
  obtain ⟨tree, h, hf, hitems, l, r, node, hnode, hkind, -⟩ := fineExact_forks
  have hspread : Item.Spread (tree.itemsBelow row 0) := row_spread.perm hitems.symm
  exact ⟨rfl, row_finite, tree, h, hf, l, r, node, hnode, hkind, hspread,
    build_cut_best fineExact_accepted rfl rfl row_finite h hf 0 l r node hnode hkind hspread⟩

/-- **Every leaf of an exact build is worth it.** Over finite boxes whose planes cost less than
infinity, a node that is neither deep nor small and whose objects differ in their centroids is a
leaf exactly when a leaf may hold them and is no dearer than the split of least cost factor. -/
theorem build_kept_well (ha : builder.Accepted) (hq : queue.waiting = [])
    (hexact : builder.settings.search boxes.length = .exact) (hfinite : ∀ b ∈ boxes, b.Finite)
    (h : (builder.build boxes policy check queue).outcome = .ok (.complete tree))
    (hf : tree.Affordable builder.settings boxes) :
    ∀ (i : Nat) (node : Node), tree.nodes[i]? = some node → node.depth < Plan.maxDepth →
      builder.settings.leafThreshold < (tree.itemsBelow boxes i).length →
      Item.Spread (tree.itemsBelow boxes i) →
      (∃ c, Split.Least (tree.itemsBelow boxes i) c) ∧
      ∀ c, Split.Least (tree.itemsBelow boxes i) c → (node.isLeaf = true ↔
        (tree.itemsBelow boxes i).length ≤ builder.settings.maxPerLeaf ∧
        Cost.leaf ⟨builder.settings.intersectionCost⟩ (tree.itemsBelow boxes i).length ≤
          Cost.split ⟨builder.settings.intersectionCost⟩ c node.bounds.surfaceArea) := by
  obtain ⟨t, places, hgrown, hall⟩ := splits_of_complete ha hq hexact hfinite h hf
  intro i node hnode hdepth hsize hspread
  obtain ⟨s, js, hs, hu, hp, hsub⟩ := hgrown.exists_subtree hall And.right hnode
  have hleaf : node.isLeaf = true ↔ s.IsLeaf := hs.isLeaf_iff hnode
  obtain ⟨hbounds, hroot⟩ := hs.root_eq hnode
  rw [hgrown.itemsBelow_eq hs hu hsub] at hsize hspread ⊢
  rw [hleaf, hbounds]
  exact hp.root.2 ⟨hroot ▸ hdepth, hsize⟩ hspread

theorem fineExact_kept_well : fineExact.settings.search row.length = .exact ∧
    (∀ b ∈ row, b.Finite) ∧ ∃ tree,
    (fineExact.build row .fifo .never {}).outcome = .ok (.complete tree) ∧
    tree.Affordable fineExact.settings row ∧ ∃ node, tree.nodes[0]? = some node ∧
      node.depth < Plan.maxDepth ∧
      fineExact.settings.leafThreshold < (tree.itemsBelow row 0).length ∧
      Item.Spread (tree.itemsBelow row 0) ∧
      (∃ c, Split.Least (tree.itemsBelow row 0) c) ∧
      ∀ c, Split.Least (tree.itemsBelow row 0) c → (node.isLeaf = true ↔
        (tree.itemsBelow row 0).length ≤ fineExact.settings.maxPerLeaf ∧
        Cost.leaf ⟨fineExact.settings.intersectionCost⟩ (tree.itemsBelow row 0).length ≤
          Cost.split ⟨fineExact.settings.intersectionCost⟩ c node.bounds.surfaceArea) := by
  obtain ⟨tree, h, hf, hitems, l, r, node, hnode, -, hdepth⟩ := fineExact_forks
  have hspread : Item.Spread (tree.itemsBelow row 0) := row_spread.perm hitems.symm
  have hdeep : node.depth < Plan.maxDepth := by
    rw [hdepth]
    decide
  have hsize : fineExact.settings.leafThreshold < (tree.itemsBelow row 0).length := by
    rw [hitems.length_eq]
    decide
  exact ⟨rfl, row_finite, tree, h, hf, node, hnode, hdeep, hsize, hspread,
    build_kept_well fineExact_accepted rfl rfl row_finite h hf 0 node hnode hdeep hsize hspread⟩

end Builder

end BoxTree
