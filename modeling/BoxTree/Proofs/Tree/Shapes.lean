import BoxTree.Proofs.Growth.Matches
import BoxTree.Proofs.Tree.Preorder
/-!
# Shapes of trees

The shape of a tree is what is left of its nodes in depth first order without their bounds: kinds,
depths, and the ranges of the leaves. Trees that have grown over matching ranges have one shape
(`Builder.Grown.shape_eq`); where regions and items agree, the trees in depth first order do.
-/

namespace BoxTree

/-- The kinds and depths of the nodes in depth first order; children and ranges belong to the
kinds. -/
def Tree.shape (t : Tree) : List (NodeKind × Nat) :=
  t.preorder.nodes.toList.map fun n => (n.kind, n.depth)

variable {t t' : Growth} {P : Region → Region → Prop} {I : List Item → List Item → Prop}
  {E : Prop} {boxes boxes' : List Box} {tree tree' : Tree} {places places' : List Nat}

namespace Growth.Matches

/-- Trees over the same ranges at the same depths are listed with the same kinds and depths. -/
theorem listed_map_eq (h : t.Matches P I E t') (hP : ∀ r r', P r r' → r.Level r') (k : Nat) :
    (t.listed k).map (fun n => (n.kind, n.depth)) =
      (t'.listed k).map fun n => (n.kind, n.depth) := by
  induction h generalizing k with
  | leaf hr _ =>
    obtain ⟨hfirst, hlast, hdepth⟩ := hP _ _ hr
    simp only [listed, List.map_cons, List.map_nil, hfirst, hlast, hdepth]
  | fork hr _ hl _ ihl ihr =>
    obtain ⟨-, -, hdepth⟩ := hP _ _ hr
    simp only [listed, List.map_cons, List.map_append, hdepth, hl.nodes_eq, ihl, ihr]

/-- Trees over the same regions are listed with the same nodes. -/
theorem listed_eq (h : t.Matches Eq I E t') (k : Nat) : t.listed k = t'.listed k := by
  induction h generalizing k with
  | leaf hr _ => rw [listed, listed, hr]
  | fork hr _ hl _ ihl ihr => rw [listed, listed, hr, hl.nodes_eq, ihl, ihr]

end Growth.Matches

namespace Builder.Grown

/-- **Trees that have grown over matching ranges have one shape.** -/
theorem shape_eq (h : Grown boxes tree t places) (h' : Grown boxes' tree' t' places')
    (hmatch : t.Matches P I E t') (hP : ∀ r r', P r r' → r.Level r') :
    tree.shape = tree'.shape := by
  rw [Tree.shape, Tree.shape, h.preorder_eq, h'.preorder_eq]
  exact hmatch.listed_map_eq hP 0

/-- **Trees that have grown alike are the same** in depth first order. -/
theorem preorder_eq_of_matches (h : Grown boxes tree t places)
    (h' : Grown boxes' tree' t' places') (hmatch : t.Matches Eq Eq E t') :
    tree.preorder = tree'.preorder := by
  rw [h.preorder_eq, h'.preorder_eq, h.order, h'.order, hmatch.items_eq, hmatch.listed_eq]

end Builder.Grown

end BoxTree
