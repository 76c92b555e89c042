import BoxTree.Proofs.Growth.Grows
import BoxTree.Tree
/-!
# Trees drawn in an array

`Drawn` says that a part of a node array is a tree that has grown: it names the index of the root
and those of all nodes in depth first order. Whoever follows children from the root of a drawn tree
reaches exactly its nodes, each in one way.
-/

namespace BoxTree

/-- A step from a node to one of its children. -/
inductive Turn where
  | left
  | right
  deriving DecidableEq

namespace Tree

/-- The child of a node on one side, if it is an interior node. -/
def child (nodes : Array Node) (i : Nat) (turn : Turn) : Option Nat :=
  (nodes[i]?.bind Node.children?).map fun (l, r) =>
    match turn with
    | .left => l
    | .right => r

/-- The node reached by a path of turns. -/
def followFrom (nodes : Array Node) : Nat → List Turn → Option Nat
  | i, [] => some i
  | i, turn :: path => (child nodes i turn).bind fun j => followFrom nodes j path

/-- The node reached from the root by a path of turns. -/
def follow (t : Tree) : List Turn → Option Nat := followFrom t.nodes 0

section Follow

variable {nodes : Array Node} {i l r depth first last : Nat} {bounds : Box}

theorem followFrom_left (h : nodes[i]? = some ⟨bounds, .interior l r, depth⟩) (path : List Turn) :
    followFrom nodes i (.left :: path) = followFrom nodes l path := by
  simp only [followFrom, child, h, Option.bind_some, Node.children?, Option.map_some]

theorem followFrom_right (h : nodes[i]? = some ⟨bounds, .interior l r, depth⟩) (path : List Turn) :
    followFrom nodes i (.right :: path) = followFrom nodes r path := by
  simp only [followFrom, child, h, Option.bind_some, Node.children?, Option.map_some]

theorem followFrom_leaf (h : nodes[i]? = some ⟨bounds, .leaf first last, depth⟩) (turn : Turn)
    (path : List Turn) : followFrom nodes i (turn :: path) = none := by
  simp only [followFrom, child, h, Option.bind_some, Node.children?, Option.map_none,
    Option.bind_none]

end Follow

@[simp] theorem visit_nil (nodes : Array Node) (fuel : Nat) : visit nodes fuel [] = [] := by
  cases fuel <;> rfl

/-- The ranges of the leaves at some indices. -/
def rangesAt (nodes : Array Node) (places : List Nat) : List (Nat × Nat) :=
  places.filterMap fun i => nodes[i]?.bind Node.range?

/-- The ranges of the leaves from left to right. -/
def ranges (t : Tree) : List (Nat × Nat) := rangesAt t.nodes t.preorderPlaces

end Tree

/-- A tree in an array of nodes, with the index of its root and those of all its nodes in depth
first order. Children stand behind their parents. -/
inductive Drawn (nodes : Array Node) : Nat → Growth → List Nat → Prop where
  | leaf {i : Nat} {r : Region} {reason : LeafReason} {items : List Item}
      (h : nodes[i]? = some ⟨r.extent.bounds, .leaf r.first r.last, r.depth⟩) :
    Drawn nodes i (.leaf r reason items) [i]
  | fork {i j k : Nat} {r : Region} {apart : Bool} {left right : Growth} {js ks : List Nat}
      (h : nodes[i]? = some ⟨r.extent.bounds, .interior j k, r.depth⟩) (hj : i < j) (hk : i < k)
      (hl : Drawn nodes j left js) (hr : Drawn nodes k right ks) :
    Drawn nodes i (.fork r apart left right) (i :: (js ++ ks))

namespace Drawn

variable {nodes : Array Node} {i j fuel : Nat} {t : Growth} {places stack : List Nat} {node : Node}
  {path path' : List Turn}

theorem root_mem (h : Drawn nodes i t places) : i ∈ places := by
  cases h <;> exact List.mem_cons_self

theorem length_places (h : Drawn nodes i t places) : places.length = t.nodes := by
  induction h with
  | leaf _ => rfl
  | fork _ _ _ _ _ ihl ihr =>
    rw [List.length_cons, List.length_append, ihl, ihr, Growth.nodes]

/-- The root is the node of the region of its tree. -/
theorem root_eq (h : Drawn nodes i t places) (hnode : nodes[i]? = some node) :
    node.bounds = t.region.extent.bounds ∧ node.depth = t.region.depth := by
  cases h with
  | leaf h =>
    cases h.symm.trans hnode
    exact ⟨rfl, rfl⟩
  | fork h =>
    cases h.symm.trans hnode
    exact ⟨rfl, rfl⟩

theorem exists_root (h : Drawn nodes i t places) : ∃ node, nodes[i]? = some node := by
  cases h with
  | leaf h => exact ⟨_, h⟩
  | fork h => exact ⟨_, h⟩

theorem isLeaf_iff (h : Drawn nodes i t places) (hnode : nodes[i]? = some node) :
    node.isLeaf = true ↔ t.IsLeaf := by
  cases h with
  | leaf h =>
    cases h.symm.trans hnode
    exact iff_of_true rfl trivial
  | fork h =>
    cases h.symm.trans hnode
    exact iff_of_false nofun id

/-- **Every node is the root of a drawn tree**, and what passes from trees to their branches holds
of it. -/
theorem subtrees (h : Drawn nodes i t places) {P : Growth → Prop} (ht : P t)
    (hfork : ∀ {r apart left right}, P (.fork r apart left right) → P left ∧ P right) :
    ∀ j ∈ places, ∃ s js, Drawn nodes j s js ∧ P s ∧ js.Sublist places := by
  induction h with
  | leaf h =>
    intro j hj
    cases List.mem_singleton.1 hj
    exact ⟨_, _, .leaf h, ht, .refl _⟩
  | fork h hj hk hl hr ihl ihr =>
    intro c hc
    rcases List.mem_cons.1 hc with rfl | hc
    · exact ⟨_, _, .fork h hj hk hl hr, ht, .refl _⟩
    · rcases List.mem_append.1 hc with hc | hc
      · obtain ⟨s, js, hs, hp, hsub⟩ := ihl (hfork ht).1 c hc
        exact ⟨s, js, hs, hp, (hsub.trans (List.sublist_append_left _ _)).cons _⟩
      · obtain ⟨s, js, hs, hp, hsub⟩ := ihr (hfork ht).2 c hc
        exact ⟨s, js, hs, hp, (hsub.trans (List.sublist_append_right _ _)).cons _⟩

/-- **What holds of the trees drawn at all nodes** holds of all subtrees. -/
theorem all (h : Drawn nodes i t places) {P Q : Growth → Prop} (ht : P t)
    (hfork : ∀ {r apart left right}, P (.fork r apart left right) → P left ∧ P right)
    (hQ : ∀ j s js, Drawn nodes j s js → P s → js.Sublist places → Q s) : t.All Q := by
  induction h with
  | leaf h => exact hQ _ _ _ (.leaf h) ht (.refl _)
  | @fork i j k r apart left right js ks h hj hk hl hr ihl ihr =>
    have hsub : (js ++ ks).Sublist (i :: (js ++ ks)) := List.sublist_cons_self _ _
    refine ⟨hQ _ _ _ (.fork h hj hk hl hr) ht (.refl _), ihl (hfork ht).1 ?_, ihr (hfork ht).2 ?_⟩
    · exact fun c s cs hs hp hc =>
        hQ c s cs hs hp ((hc.trans (List.sublist_append_left _ _)).trans hsub)
    · exact fun c s cs hs hp hc =>
        hQ c s cs hs hp ((hc.trans (List.sublist_append_right _ _)).trans hsub)

/-! ## Depth first search -/

/-- **A search visits the nodes of a drawn tree** before what else is on its stack. -/
theorem visit_eq (h : Drawn nodes i t places) (hfuel : places.length ≤ fuel) :
    Tree.visit nodes fuel (i :: stack) =
      places ++ Tree.visit nodes (fuel - places.length) stack := by
  induction h generalizing fuel stack with
  | leaf h =>
    have hpos : 1 ≤ fuel := hfuel
    obtain ⟨fuel, rfl⟩ := Nat.exists_eq_add_of_le' hpos
    simp only [Tree.visit, h, Option.bind_some, Node.children?]
    rfl
  | @fork i j k r apart left right js ks h _ _ _ _ ihl ihr =>
    -- the root is taken from the stack and both of its children are put there, the left on top
    rw [List.length_cons, List.length_append] at hfuel
    obtain ⟨fuel, rfl⟩ := Nat.exists_eq_add_of_le' (Nat.le_trans (Nat.le_add_left 1 _) hfuel)
    simp only [Tree.visit, h, Option.bind_some, Node.children?]
    rw [ihl (by omega), ihr (by omega), List.cons_append, List.append_assoc, List.length_cons,
      List.length_append]
    congr 4
    omega

/-- **The leaves from left to right.** -/
theorem rangesAt_eq (h : Drawn nodes i t places) : Tree.rangesAt nodes places = t.ranges := by
  induction h with
  | leaf h => simp [Tree.rangesAt, h, Node.range?, Growth.ranges]
  | fork h _ _ _ _ ihl ihr =>
    rw [Growth.ranges, ← ihl, ← ihr, Tree.rangesAt, Tree.rangesAt, Tree.rangesAt,
      List.filterMap_cons, h,
      ← List.filterMap_append]
    rfl

/-! ## Paths -/

/-- Paths stay inside the tree. -/
theorem mem_of_followFrom (h : Drawn nodes i t places)
    (hpath : Tree.followFrom nodes i path = some j) : j ∈ places := by
  induction h generalizing path with
  | leaf h =>
    cases path with
    | nil =>
      cases hpath
      exact List.mem_singleton_self _
    | cons turn path =>
      rw [Tree.followFrom_leaf h] at hpath
      cases hpath
  | fork h _ _ _ _ ihl ihr =>
    cases path with
    | nil =>
      cases hpath
      exact List.mem_cons_self
    | cons turn path =>
      cases turn with
      | left =>
        rw [Tree.followFrom_left h] at hpath
        exact List.mem_cons_of_mem _ (List.mem_append_left _ (ihl hpath))
      | right =>
        rw [Tree.followFrom_right h] at hpath
        exact List.mem_cons_of_mem _ (List.mem_append_right _ (ihr hpath))

/-- **Every node is reached.** -/
theorem exists_path (h : Drawn nodes i t places) (hj : j ∈ places) :
    ∃ path, Tree.followFrom nodes i path = some j := by
  induction h with
  | leaf h =>
    cases List.mem_singleton.1 hj
    exact ⟨[], rfl⟩
  | fork h _ _ _ _ ihl ihr =>
    rcases List.mem_cons.1 hj with rfl | hj
    · exact ⟨[], rfl⟩
    · rcases List.mem_append.1 hj with hj | hj
      · obtain ⟨path, hpath⟩ := ihl hj
        exact ⟨.left :: path, by rw [Tree.followFrom_left h, hpath]⟩
      · obtain ⟨path, hpath⟩ := ihr hj
        exact ⟨.right :: path, by rw [Tree.followFrom_right h, hpath]⟩

/-- A path goes on into one of the branches. -/
theorem mem_of_followFrom_cons {l r depth : Nat} {bounds : Box} {left right : Growth}
    {js ks : List Nat} {turn : Turn} (h : nodes[i]? = some ⟨bounds, .interior l r, depth⟩)
    (hl : Drawn nodes l left js) (hr : Drawn nodes r right ks)
    (hpath : Tree.followFrom nodes i (turn :: path) = some j) :
    (turn = .left ∧ Tree.followFrom nodes l path = some j ∧ j ∈ js) ∨
      (turn = .right ∧ Tree.followFrom nodes r path = some j ∧ j ∈ ks) := by
  cases turn with
  | left =>
    rw [Tree.followFrom_left h] at hpath
    exact .inl ⟨rfl, hpath, hl.mem_of_followFrom hpath⟩
  | right =>
    rw [Tree.followFrom_right h] at hpath
    exact .inr ⟨rfl, hpath, hr.mem_of_followFrom hpath⟩

/-- **No node is reached twice**, as long as no index is drawn twice. -/
theorem path_unique (h : Drawn nodes i t places) (hnodup : places.Nodup)
    (hpath : Tree.followFrom nodes i path = some j)
    (hpath' : Tree.followFrom nodes i path' = some j) : path = path' := by
  induction h generalizing path path' with
  | leaf h =>
    cases path with
    | nil =>
      cases path' with
      | nil => rfl
      | cons turn path' =>
        rw [Tree.followFrom_leaf h] at hpath'
        cases hpath'
    | cons turn path =>
      rw [Tree.followFrom_leaf h] at hpath
      cases hpath
  | @fork i l r region apart left right js ks h _ _ hl hr ihl ihr =>
    rw [List.nodup_cons, List.nodup_append] at hnodup
    obtain ⟨hi, hjs, hks, hdisjoint⟩ := hnodup
    have hcons : ∀ {turn path}, Tree.followFrom nodes i (turn :: path) = some j →
        (turn = .left ∧ Tree.followFrom nodes l path = some j ∧ j ∈ js) ∨
        (turn = .right ∧ Tree.followFrom nodes r path = some j ∧ j ∈ ks) :=
      fun hpath => mem_of_followFrom_cons h hl hr hpath
    have hnil : ∀ {turn path}, Tree.followFrom nodes i (turn :: path) = some j → i ≠ j := by
      rintro turn path hpath rfl
      rcases hcons hpath with ⟨-, -, hj⟩ | ⟨-, -, hj⟩
      · exact hi (List.mem_append_left _ hj)
      · exact hi (List.mem_append_right _ hj)
    -- two paths to one node turn to the same side, since the branches share no index
    cases path with
    | nil =>
      cases path' with
      | nil => rfl
      | cons turn path' => exact absurd (Option.some.inj hpath) (hnil hpath')
    | cons turn path =>
      cases path' with
      | nil => exact absurd (Option.some.inj hpath') (hnil hpath)
      | cons turn' path' =>
        rcases hcons hpath with ⟨rfl, hp, hj⟩ | ⟨rfl, hp, hj⟩
        · rcases hcons hpath' with ⟨rfl, hp', -⟩ | ⟨-, -, hj'⟩
          · rw [ihl hjs hp hp']
          · exact absurd rfl (hdisjoint j hj j hj')
        · rcases hcons hpath' with ⟨-, -, hj'⟩ | ⟨rfl, hp', -⟩
          · exact absurd rfl (hdisjoint j hj' j hj)
          · rw [ihr hks hp hp']

/-- **The depth of a node is the length of its path.** -/
theorem depth_eq (h : Drawn nodes i t places) (ht : t.Proper)
    (hpath : Tree.followFrom nodes i path = some j) (hnode : nodes[j]? = some node) :
    node.depth = t.region.depth + path.length := by
  induction h generalizing path with
  | leaf h =>
    cases path with
    | nil =>
      cases hpath
      cases h.symm.trans hnode
      rfl
    | cons turn path =>
      rw [Tree.followFrom_leaf h] at hpath
      cases hpath
  | fork h _ _ _ _ ihl ihr =>
    obtain ⟨-, -, -, hdl, hdr, -, -, -, hl, hr⟩ := ht
    cases path with
    | nil =>
      cases hpath
      cases h.symm.trans hnode
      rfl
    | cons turn path =>
      rw [List.length_cons, Growth.region]
      cases turn with
      | left =>
        rw [Tree.followFrom_left h] at hpath
        rw [ihl hl hpath, hdl]
        omega
      | right =>
        rw [Tree.followFrom_right h] at hpath
        rw [ihr hr hpath, hdr]
        omega

end Drawn

end BoxTree
