import BoxTree.Proofs.Build.Structure
/-!
# Trees in depth first order

Where the nodes of a tree stand depends on the order in which its jobs were run. Renumbered in depth
first order they do not: what remains is a list that is computed from the tree that has grown
(`Drawn.renumbered`).
-/

namespace BoxTree

/-- The nodes of a tree in depth first order, the first with a number. -/
def Growth.listed : Nat → Growth → List Node
  | _, leaf r _ _ => [⟨r.extent.bounds, .leaf r.first r.last, r.depth⟩]
  | k, fork r _ left right =>
    ⟨r.extent.bounds, .interior (k + 1) (k + 1 + left.nodes), r.depth⟩ ::
      (left.listed (k + 1) ++ right.listed (k + 1 + left.nodes))

namespace Tree

/-- A node with its children renamed. -/
def renamed (name : Nat → Nat) (n : Node) : Node :=
  match n.kind with
  | .leaf .. => n
  | .interior l r => { n with kind := .interior (name l) (name r) }

/-- Writes the numbers of some indices, the first with a number. -/
def rankFrom (a : Array Nat) (places : List Nat) (k : Nat) : Array Nat :=
  (places.zipIdx k).foldl (fun (a : Array Nat) (i, k) => a.setIfInBounds i k) a

/-- The numbers of some indices in their order. -/
def ranks (places : List Nat) (size : Nat) : Array Nat :=
  rankFrom (Array.replicate size 0) places 0

theorem rankFrom_cons (a : Array Nat) (i : Nat) (places : List Nat) (k : Nat) :
    rankFrom a (i :: places) k = rankFrom (a.setIfInBounds i k) places (k + 1) := rfl

theorem getElem?_rankFrom_of_not_mem {places : List Nat} {j : Nat} (hj : j ∉ places) (a : Array Nat)
    (k : Nat) : (rankFrom a places k)[j]? = a[j]? := by
  induction places generalizing a k with
  | nil => rfl
  | cons i places ih =>
    rw [List.mem_cons, not_or] at hj
    rw [rankFrom_cons, ih hj.2, Array.getElem?_setIfInBounds_ne (Ne.symm hj.1)]

theorem getElem?_rankFrom {places : List Nat} (hnodup : places.Nodup) {a : Array Nat}
    (hlt : ∀ i ∈ places, i < a.size) (k : Nat) {n i : Nat} (hi : places[n]? = some i) :
    (rankFrom a places k)[i]? = some (k + n) := by
  induction places generalizing a k n with
  | nil => cases hi
  | cons j places ih =>
    obtain ⟨hj, hrest⟩ := List.nodup_cons.1 hnodup
    rw [rankFrom_cons]
    cases n with
    | zero =>
      cases hi
      -- no later number is written over the first one
      rw [getElem?_rankFrom_of_not_mem hj,
        Array.getElem?_setIfInBounds_self_of_lt (hlt _ List.mem_cons_self)]
      rfl
    | succ n =>
      rw [ih hrest (fun i hi => ?_) (k + 1) hi]
      · congr 1
        omega
      · rw [Array.size_setIfInBounds]
        exact hlt i (List.mem_cons_of_mem _ hi)

/-- **The ranks number the indices.** -/
theorem map_ranks {places : List Nat} {size : Nat} (hnodup : places.Nodup)
    (hlt : ∀ i ∈ places, i < size) :
    places.map (fun i => (ranks places size).getD i 0) = List.range' 0 places.length := by
  refine List.ext_getElem? fun k => ?_
  rw [List.getElem?_map]
  by_cases hk : k < places.length
  · have hget := List.getElem?_eq_getElem hk
    have hsize : ∀ i ∈ places, i < (Array.replicate size 0).size := by
      rw [Array.size_replicate]
      exact hlt
    rw [hget, Option.map_some, Array.getD_eq_getD_getElem?, ranks,
      getElem?_rankFrom hnodup hsize 0 hget, List.getElem?_range' hk, Option.getD_some,
      Nat.one_mul]
  · rw [List.getElem?_eq_none (by omega), List.getElem?_eq_none (by simpa using hk)]
    rfl

end Tree

namespace Drawn

variable {nodes : Array Node} {i k : Nat} {t : Growth} {places : List Nat} {name : Nat → Nat}

theorem name_root (h : Drawn nodes i t places)
    (hname : places.map name = List.range' k places.length) : name i = k := by
  cases h with
  | leaf _ =>
    rw [List.map_singleton, List.length_singleton, List.range'_one] at hname
    exact (List.cons.inj hname).1
  | fork _ _ _ _ _ =>
    rw [List.map_cons, List.length_cons, List.range'_succ] at hname
    exact (List.cons.inj hname).1

/-- **A drawn tree in depth first order** is the list of its tree, wherever it was drawn. -/
theorem renumbered (h : Drawn nodes i t places)
    (hname : places.map name = List.range' k places.length) :
    (places.filterMap fun i => nodes[i]?.map (Tree.renamed name)) = t.listed k := by
  induction h generalizing k with
  | leaf h =>
    rw [List.filterMap_cons, h]
    rfl
  | @fork i l r region apart left right js ks h _ _ hl hr ihl ihr =>
    rw [List.map_cons, List.length_cons, List.range'_succ, List.cons.injEq, List.map_append,
      List.length_append, ← List.range'_append_1] at hname
    obtain ⟨-, hrest⟩ := hname
    -- behind the root the names go on through the left branch and then through the right one
    obtain ⟨hjs, hks⟩ := List.append_inj hrest (by rw [List.length_map, List.length_range'])
    have hlength := hl.length_places
    have hleft : name l = k + 1 := hl.name_root hjs
    have hright : name r = k + 1 + left.nodes := by
      rw [← hlength]
      exact hr.name_root hks
    rw [List.filterMap_cons, h, List.filterMap_append, ihl hjs, ihr hks, Growth.listed, hlength]
    simp only [Option.map_some, Tree.renamed, hleft, hright]

end Drawn

/-- **A tree in depth first order** is computed from the tree that has grown. -/
theorem Builder.Grown.preorder_eq {boxes : List Box} {tree : Tree} {t : Growth} {places : List Nat}
    (h : Grown boxes tree t places) : tree.preorder = ⟨(t.listed 0).toArray, tree.order⟩ := by
  have hname := Tree.map_ranks h.nodup_places fun _ => h.mem_places.1
  have hlisted := h.drawn.renumbered hname
  rw [← hlisted]
  change Tree.mk (tree.preorderPlaces.filterMap _).toArray tree.order = _
  rw [h.preorderPlaces_eq]
  rfl

end BoxTree
