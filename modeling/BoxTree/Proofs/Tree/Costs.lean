import BoxTree.Node
import BoxTree.Proofs.Box.Areas
import BoxTree.Proofs.Results
import BoxTree.Proofs.Scalar.Quotients
/-!
# The cost of nodes

The cost of a tree is a sum over its nodes of shares of the area of the root. As long as that area
is finite, every share runs from zero to infinity, and the share of the root itself is one, so that
the sum is a number and counts at least the root where that is an interior node. The area of a large
root may overflow, though; then the share of the root is not a number, and neither is the sum
(`Node.totalCost_cases`).
-/

namespace BoxTree

namespace Node

variable {root n : Node} {rest : List Node} {area c : Scalar} {k : Nat}

/-- What a node adds to the cost of a tree when it holds a number of objects. -/
def share (area c : Scalar) (k : Nat) (n : Node) : Scalar :=
  if area ≤ 0 then
    if n.isLeaf then c * Scalar.ofCount k else 1
  else if n.isLeaf then n.bounds.surfaceArea / area * c * Scalar.ofCount k
  else n.bounds.surfaceArea / area

/-- A node has a cost when its objects can be counted. -/
theorem cost_eq (h : n.count = .ok k) : n.cost area c = .ok (n.share area c k) := by
  obtain ⟨bounds, kind, depth⟩ := n
  unfold cost share
  cases kind with
  | interior l r => split <;> rfl
  | leaf first last =>
    rw [h]
    split <;> rfl

/-- **A share of a finite area** runs from zero to infinity, as long as a leaf holds some object
unless there is no area at all. -/
theorem nonneg_share (hc : c.Positive) (harea : area.Nonneg) (hinf : area.isInf = false)
    (hk : k < 2 ^ 64) (hfull : 0 < area → n.isLeaf = true → 0 < k) :
    (n.share area c k).Nonneg := by
  unfold share
  rcases harea.flat_or_positive hinf with hflat | ⟨hflat, hpos, hpositive⟩
  · rw [if_pos hflat]
    split
    · exact hc.mul (Scalar.nonneg_ofCount hk)
    · rfl
  · have hweight : (n.bounds.surfaceArea / area).Nonneg :=
      n.bounds.nonneg_surfaceArea.div_positive hpositive
    rw [if_neg hflat]
    split
    · rename_i hleaf
      have hobjects := Scalar.positive_ofCount (hfull hpos hleaf) hk
      exact (hweight.mul_positive hc).mul_positive hobjects
    · exact hweight

/-- **The root of a tree that is split counts as one step**, whether it has an area or not. -/
theorem share_root (hinf : n.bounds.surfaceArea.isInf = false) (hleaf : n.isLeaf = false) :
    n.share n.bounds.surfaceArea c k = 1 := by
  unfold share
  rw [hleaf]
  rcases n.bounds.nonneg_surfaceArea.flat_or_positive hinf with hflat | ⟨hflat, -, hpositive⟩
  · rw [if_pos hflat]
    rfl
  · rw [if_neg hflat]
    exact hpositive.div_self

/-- **The share of an infinite area in itself** is not a number. -/
theorem isNaN_share_root (hinf : n.bounds.surfaceArea.isInf = true) :
    (n.share n.bounds.surfaceArea c k).isNaN = true := by
  have hunpack := n.bounds.nonneg_surfaceArea.unpack_of_isInf hinf
  have hweight := Scalar.isNaN_div_infinity hunpack
  unfold share
  rw [if_neg (Scalar.not_le_zero_of_infinity hunpack)]
  split
  · exact Scalar.isNaN_mul_of_left (Scalar.isNaN_mul_of_left hweight _) _
  · exact hweight

/-! ## Sums -/

/-- The number of objects of a node that a cost asks for: it fits, and a leaf holds some object
unless the root has no area. -/
def Costed (area : Scalar) (n : Node) : Prop :=
  ∃ k < 2 ^ 64, n.count = .ok k ∧ (0 < area → n.isLeaf = true → 0 < k)

/-- The sum begins with the root. -/
theorem totalCost_cons (h : root.count = .ok k) :
    totalCost (root :: rest) c =
      rest.foldlM (fun sum n => (sum + ·) <$> n.cost root.bounds.surfaceArea c)
        (-0 + root.share root.bounds.surfaceArea c k) := by
  rw [totalCost, List.foldlM_cons, cost_eq h]
  rfl

/-- **The cost of a tree** is a number exactly as long as the area of the root does not overflow. It
is then at least zero, and at least one where the root is an interior node. -/
theorem totalCost_cases (hc : c.Positive)
    (hn : ∀ n ∈ root :: rest, n.Costed root.bounds.surfaceArea) :
    ∃ cost, totalCost (root :: rest) c = .ok cost ∧
      (cost.isNaN = true ↔ root.bounds.surfaceArea.isInf = true) ∧
      (root.bounds.surfaceArea.isInf = false → 0 ≤ cost ∧ (root.isLeaf = false → 1 ≤ cost)) := by
  rw [List.forall_mem_cons] at hn
  obtain ⟨⟨k, hk, hcount, hfull⟩, hrest⟩ := hn
  cases hinf : root.bounds.surfaceArea.isInf with
  | true =>
    obtain ⟨cost, hcost, hundefined⟩ := foldlM_keeps (P := fun s : Scalar => s.isNaN = true)
      (f := fun sum n => (sum + ·) <$> n.cost root.bounds.surfaceArea c) (l := rest)
      (Scalar.isNaN_add_of_right (-0) (@isNaN_share_root root c k hinf))
      fun n hmem sum hsum => by
        obtain ⟨j, -, hcount', -⟩ := hrest n hmem
        rw [cost_eq hcount']
        exact ⟨_, rfl, Scalar.isNaN_add_of_left hsum _⟩
    exact ⟨cost, (totalCost_cons hcount).trans hcost, iff_of_true hundefined rfl, nofun⟩
  | false =>
    have harea := root.bounds.nonneg_surfaceArea
    have hroot := nonneg_share hc harea hinf hk hfull
    -- what the root has added is never taken away
    obtain ⟨cost, hcost, hsum, hle⟩ := foldlM_keeps
      (P := fun s : Scalar => s.Nonneg ∧
        (-0 + root.share root.bounds.surfaceArea c k).units ≤ s.units)
      (f := fun sum n => (sum + ·) <$> n.cost root.bounds.surfaceArea c) (l := rest)
      ⟨hroot.negZero_add, Int.le_refl _⟩ fun n hmem sum hsum => by
        obtain ⟨j, hj, hcount', hfull'⟩ := hrest n hmem
        have hshare := nonneg_share hc harea hinf hj hfull'
        rw [cost_eq hcount']
        exact ⟨_, rfl, hsum.1.add hshare, hsum.2.trans (hsum.1.units_le_sum hshare)⟩
    refine ⟨cost, (totalCost_cons hcount).trans hcost, ?_, fun _ => ⟨hsum.zero_le, fun hleaf => ?_⟩⟩
    · rw [hsum.isNaN]
    · have hone : (-0 + 1 : Scalar).units = (1 : Scalar).units := by decide +kernel
      rw [share_root hinf hleaf, hone] at hle
      exact (Scalar.le_iff_units (by decide) hsum.isNaN).2 hle

end Node

end BoxTree
