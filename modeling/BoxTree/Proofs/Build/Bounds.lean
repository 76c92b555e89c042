import BoxTree.Proofs.Build.Structure
/-!
# The boxes of a complete tree

No box is computed anew when a build ends: each was carried down from a count, a partition or a cut.
Yet the box of every node is the union of the boxes of exactly the objects in the leaves below it,
up to the sign of zeros (`Builder.build_bounded`).
-/

namespace BoxTree

namespace Tree

/-- The objects of the leaf at an index, none where there is no leaf. -/
def objectsAt (t : Tree) (i : Nat) : List Nat :=
  (t.nodes[i]?.bind fun n => (t.objects n).toOption).getD []

/-- The objects in the leaves below a node, from left to right. -/
def objectsBelow (t : Tree) (i : Nat) : List Nat :=
  (visit t.nodes t.nodes.size [i]).flatMap t.objectsAt

/-- The boxes of the objects in the leaves below a node. -/
def boxesBelow (t : Tree) (boxes : List Box) (i : Nat) : List Box :=
  (t.objectsBelow i).filterMap fun o => boxes[o]?

/-- What is right about the boxes of a tree over some boxes. -/
structure Bounded (t : Tree) (boxes : List Box) : Prop where
  /-- The box of a node has the corners of the union of all boxes below it. -/
  union : ∀ (i : Nat) (node : Node), t.nodes[i]? = some node →
    node.bounds.sameCorners (Box.around (t.boxesBelow boxes i)) = true
  /-- Every box lies inside the nodes above it. -/
  contains : ∀ (i : Nat) (node : Node), t.nodes[i]? = some node → ∀ box ∈ t.boxesBelow boxes i,
    node.bounds.contains box = true
  /-- The boxes of the children lie inside that of their parent. -/
  children : ∀ (i l r : Nat) (node left right : Node), t.nodes[i]? = some node →
    child t.nodes i .left = some l → child t.nodes i .right = some r →
    t.nodes[l]? = some left → t.nodes[r]? = some right →
    node.bounds.contains (left.bounds.union right.bounds) = true

end Tree

namespace Drawn

variable {nodes : Array Node} {i : Nat} {t : Growth} {places : List Nat} {whole : List Item}
  {tree : Tree}

/-- The objects of a leaf are the items of its tree. -/
theorem objects_leaf {r : Region} {reason : LeafReason} {items : List Item}
    (ht : (Growth.leaf r reason items).Proper) (hs : (Growth.leaf r reason items).Slices whole)
    (hl : r.last ≤ whole.length) (ho : tree.order = (whole.map Item.index).toArray) :
    tree.objects ⟨r.extent.bounds, .leaf r.first r.last, r.depth⟩ =
      .ok (items.map Item.index) := by
  obtain ⟨hle, -, -⟩ := ht
  have hrange : (r.first ≤ r.last && r.last ≤ tree.order.size : Bool) = true := by
    rw [ho, List.size_toArray, List.length_map]
    simpa using ⟨hle, hl⟩
  have hslice : (tree.order.extract r.first r.last).toList = items.map Item.index := by
    rw [ho, Array.toList_extract, List.extract_eq_take_drop, ← List.map_drop, ← List.map_take]
    exact congrArg _ hs
  simp only [Tree.objects, Node.range?, hrange, if_true, hslice]

/-- **The objects below a node** are the items of its tree. -/
theorem objects_eq (h : Drawn tree.nodes i t places) (ht : t.Proper) (hs : t.Slices whole)
    (hl : t.region.last ≤ whole.length) (ho : tree.order = (whole.map Item.index).toArray) :
    places.flatMap tree.objectsAt = t.items.map Item.index := by
  induction h with
  | @leaf i r reason items h =>
    simp only [List.flatMap_singleton, Tree.objectsAt, h, Option.bind_some,
      objects_leaf ht hs hl ho]
    rfl
  | @fork i l r region apart left right js ks h _ _ _ _ ihl ihr =>
    obtain ⟨-, hmid, hlast, -, -, -, -, -, htl, htr⟩ := ht
    have hle := htr.first_le_last
    rw [Growth.region] at hl
    have hnone : tree.objectsAt i = [] := by
      simp only [Tree.objectsAt, h, Option.bind_some, Tree.objects, Node.range?]
      rfl
    rw [List.flatMap_cons, hnone, List.nil_append, List.flatMap_append, ihl htl hs.1 (by omega),
      ihr htr hs.2 (by omega), Growth.items, List.map_append]

end Drawn

namespace Builder

variable {builder : Builder} {boxes : List Box} {policy : Policy} {check : Check}
  {queue : JobQueue BuildJob} {tree : Tree} {t : Growth} {places : List Nat}

/-- What is known of the subtree at a node. -/
structure Under (boxes : List Box) (whole : List Item) (s : Growth) : Prop where
  proper : s.Proper
  slices : s.Slices whole
  last : s.region.last ≤ whole.length
  items : ∀ o ∈ s.items, boxes[o.index]? = some o.box

theorem Under.fork {whole : List Item} {r : Region} {apart : Bool} {left right : Growth}
    (h : Under boxes whole (.fork r apart left right)) :
    Under boxes whole left ∧ Under boxes whole right := by
  obtain ⟨⟨-, hmid, hlast, -, -, -, -, -, hl, hr⟩, hs, hle, hitems⟩ := h
  have hrle := hr.first_le_last
  rw [Growth.region] at hle
  rw [Growth.items, List.forall_mem_append] at hitems
  exact ⟨⟨hl, hs.1, by omega, hitems.1⟩, ⟨hr, hs.2, by omega, hitems.2⟩⟩

/-- Every item of a subtree holds the box at the place it names. -/
theorem Under.filterMap_item {whole : List Item} {s : Growth} (h : Under boxes whole s) :
    (s.items.map Item.index).filterMap (fun o => boxes[o]?.map (Item.mk · o)) = s.items := by
  rw [List.filterMap_map]
  have hitems := h.items
  generalize s.items = items at hitems
  induction items with
  | nil => rfl
  | cons o rest ih =>
    rw [List.forall_mem_cons] at hitems
    rw [List.filterMap_cons, Function.comp_apply, hitems.1, Option.map_some, ih hitems.2]

theorem Under.filterMap_box {whole : List Item} {s : Growth} (h : Under boxes whole s) :
    (s.items.map Item.index).filterMap (fun o => boxes[o]?) = s.items.map Item.box := by
  conv => rhs; rw [← h.filterMap_item, List.map_filterMap]
  refine List.filterMap_congr fun o _ => ?_
  cases boxes[o]? <;> rfl

/-- The box of a subtree spans its boxes. -/
theorem Under.bounds {whole : List Item} {s : Growth} (h : Under boxes whole s)
    (hn : ∀ b ∈ boxes, b.Numeric) :
    (∀ b ∈ s.items.map Item.box, b.Numeric) ∧ s.region.extent.bounds.Numeric ∧
      s.region.extent.bounds.faces = (Box.around (s.items.map Item.box)).faces := by
  have hboxes : ∀ b ∈ s.items.map Item.box, b.Numeric := by
    intro b hb
    obtain ⟨o, ho, rfl⟩ := List.mem_map.1 hb
    exact hn _ (List.mem_of_getElem? (h.items o ho))
  exact ⟨hboxes, h.proper.spans.bounds hboxes⟩

namespace Grown

variable (h : Grown boxes tree t places)
include h

theorem under : Under boxes t.items t where
  proper := h.proper
  slices := h.slices
  last := by rw [h.proper.length_items, Region.size, h.first, Nat.sub_zero]
  items o ho := getElem?_of_mem_ofBoxes (h.items.mem_iff.1 ho)

/-- A search from the root of a drawn subtree visits its nodes. -/
theorem visit_eq {s : Growth} {js : List Nat} {i : Nat} (hs : Drawn tree.nodes i s js)
    (hsub : js.Sublist places) : Tree.visit tree.nodes tree.nodes.size [i] = js := by
  have hlen : js.length ≤ tree.nodes.size :=
    hsub.length_le.trans (h.places.length_eq.trans List.length_range).le
  rw [hs.visit_eq hlen, Tree.visit_nil, List.append_nil]

/-- What lies below the root of a drawn subtree are its items. -/
theorem objectsBelow_eq {s : Growth} {js : List Nat} {i : Nat} (hs : Drawn tree.nodes i s js)
    (hu : Under boxes t.items s) (hsub : js.Sublist places) :
    tree.objectsBelow i = s.items.map Item.index := by
  rw [Tree.objectsBelow, h.visit_eq hs hsub, hs.objects_eq hu.proper hu.slices hu.last h.order]

/-- **Every node has a subtree**, and what passes from trees to their branches holds of it. -/
theorem exists_subtree {P : Growth → Prop} (ht : P t)
    (hfork : ∀ {r apart left right}, P (.fork r apart left right) → P left ∧ P right) {i : Nat}
    {node : Node} (hnode : tree.nodes[i]? = some node) :
    ∃ s js, Drawn tree.nodes i s js ∧ Under boxes t.items s ∧ P s ∧ js.Sublist places := by
  have hi := h.mem_places.2 (Array.getElem?_eq_some_iff.1 hnode).1
  obtain ⟨s, js, hs, ⟨hu, hp⟩, hsub⟩ := h.drawn.subtrees (P := fun s => Under boxes t.items s ∧ P s)
    ⟨h.under, ht⟩ (fun hs => ⟨⟨hs.1.fork.1, (hfork hs.2).1⟩, hs.1.fork.2, (hfork hs.2).2⟩) i hi
  exact ⟨s, js, hs, hu, hp, hsub⟩

/-- The boxes below a node are those of its items. -/
theorem exists_under {i : Nat} {node : Node} (hnode : tree.nodes[i]? = some node) :
    ∃ s js, Drawn tree.nodes i s js ∧ Under boxes t.items s ∧
      tree.boxesBelow boxes i = s.items.map Item.box := by
  obtain ⟨s, js, hs, hu, -, hsub⟩ :=
    h.exists_subtree (P := fun _ => True) trivial (fun _ => ⟨trivial, trivial⟩) hnode
  exact ⟨s, js, hs, hu, by rw [Tree.boxesBelow, h.objectsBelow_eq hs hu hsub, hu.filterMap_box]⟩

/-- **A tree that has grown is bounded.** -/
theorem bounded (hn : ∀ b ∈ boxes, b.Numeric) : tree.Bounded boxes where
  union i node hnode := by
    obtain ⟨s, js, hs, hu, hbelow⟩ := h.exists_under hnode
    obtain ⟨hboxes, hnumeric, hfaces⟩ := hu.bounds hn
    rw [hbelow, (hs.root_eq hnode).1,
      Box.sameCorners_iff_faces hnumeric (Box.numeric_around hboxes)]
    exact hfaces
  contains i node hnode box hbox := by
    obtain ⟨s, js, hs, hu, hbelow⟩ := h.exists_under hnode
    obtain ⟨hboxes, hnumeric, hfaces⟩ := hu.bounds hn
    rw [hbelow] at hbox
    rw [(hs.root_eq hnode).1]
    refine Box.contains_of_faces_le hnumeric (hboxes box hbox) ?_
    rw [hfaces]
    exact Box.faces_le_around hboxes hbox
  children i l r node left right hnode hl hr hleft hright := by
    obtain ⟨s, js, hs, hu, -⟩ := h.exists_under hnode
    obtain ⟨hboxes, hnumeric, hfaces⟩ := hu.bounds hn
    rw [(hs.root_eq hnode).1]
    cases hs with
    | leaf hleaf =>
      rw [Tree.child, hleaf] at hl
      cases hl
    | fork hfork hj hk hdl hdr =>
      rw [Tree.child, hfork] at hl hr
      cases hl
      cases hr
      obtain ⟨hlboxes, hlnumeric, hlfaces⟩ := hu.fork.1.bounds hn
      obtain ⟨hrboxes, hrnumeric, hrfaces⟩ := hu.fork.2.bounds hn
      rw [(hdl.root_eq hleft).1, (hdr.root_eq hright).1]
      refine Box.contains_of_faces_le hnumeric (hlnumeric.union hrnumeric) ?_
      rw [hfaces, Box.faces_union hlnumeric hrnumeric, hlfaces, hrfaces, Growth.items,
        List.map_append, Box.faces_around_append hlboxes hrboxes]

end Grown

/-- **Every complete tree over boxes without undefined coordinates is bounded**, for any accepted
settings, any check, any platform, and whatever order the jobs are run in. -/
theorem build_bounded (ha : builder.Accepted) (hq : queue.waiting = [])
    (hn : ∀ b ∈ boxes, b.Numeric)
    (h : (builder.build boxes policy check queue).outcome = .ok (.complete tree)) :
    tree.Bounded boxes := by
  obtain ⟨t, places, hgrown⟩ := grown_of_complete ha hq h
  exact hgrown.bounded hn

theorem fine_bounded : (∀ b ∈ row, b.Numeric) ∧ ∃ tree,
    (fine.build row .fifo .never {}).outcome = .ok (.complete tree) ∧ tree.Bounded row := by
  have hn : ∀ b ∈ row, b.Numeric := by
    intro b hb a
    simp only [row, List.mem_cons, List.not_mem_nil, or_false] at hb
    rcases hb with rfl | rfl | rfl <;> cases a <;> decide
  obtain ⟨tree, h⟩ := fine_complete
  exact ⟨hn, tree, h, build_bounded fine_accepted rfl hn h⟩

end Builder

end BoxTree
