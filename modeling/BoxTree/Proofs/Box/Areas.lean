import BoxTree.Proofs.Box.Faces
import BoxTree.Proofs.Scalar.Signs
import BoxTree.Proofs.Scalar.Zeros
/-!
# Areas and centroids

The half area of a box runs from zero to infinity and is given by its faces, so that it does not
matter in which order a box was put together. A box with finite corners has centroids that are
numbers.
-/

namespace BoxTree

namespace Box

/-- A box all of whose coordinates are finite. -/
def Finite (b : Box) : Prop :=
  ∀ a, (b.lo.get a).isFinite = true ∧ (b.hi.get a).isFinite = true

variable {b c : Box}

theorem Finite.numeric (h : b.Finite) : b.Numeric :=
  fun a => ⟨Scalar.isNaN_of_isFinite (h a).1, Scalar.isNaN_of_isFinite (h a).2⟩

theorem Finite.isNaN_centroid (h : b.Finite) (a : Axis) : (b.centroid a).isNaN = false :=
  Scalar.isNaN_mul (Scalar.isNaN_add (h a).1 (h a).2) ⟨_, _, _, rfl⟩

theorem nonneg_halfArea (b : Box) : b.halfArea.Nonneg := by
  unfold halfArea
  split
  · rfl
  · exact Scalar.nonneg_cutAtZero _

theorem nonneg_surfaceArea (b : Box) : b.surfaceArea.Nonneg :=
  Scalar.Positive.mul ⟨_, _, _, rfl⟩ b.nonneg_halfArea

/-- **Boxes with the same faces have the same area.** -/
theorem halfArea_eq (hb : b.Numeric) (hc : c.Numeric) (h : b.faces = c.faces) :
    b.halfArea = c.halfArea := by
  have hunits : ∀ a, (b.lo.get a).units = (c.lo.get a).units ∧
      (b.hi.get a).units = (c.hi.get a).units := by
    intro a
    obtain ⟨hlo, hhi⟩ := Prod.mk.inj (congrFun h a)
    exact ⟨OrderDual.toDual_inj.1 hlo, hhi⟩
  have hempty : b.isEmpty = c.isEmpty := by
    refine List.any_congr rfl fun a => decide_eq_decide.2 ?_
    rw [Scalar.lt_iff_units (hb a).2 (hb a).1, Scalar.lt_iff_units (hc a).2 (hc a).1,
      (hunits a).1, (hunits a).2]
  have hlength : ∀ a, (b.lengths.get a).Alike (c.lengths.get a) := by
    intro a
    rw [get_lengths, get_lengths]
    exact (Scalar.alike_of_units (hb a).2 (hc a).2 (hunits a).2).sub
      (Scalar.alike_of_units (hb a).1 (hc a).1 (hunits a).1)
  have hx := hlength .x
  have hy := hlength .y
  have hz := hlength .z
  rw [halfArea, halfArea, hempty]
  split
  · rfl
  · exact (((hx.mul hy).add (hx.mul hz)).add (hy.mul hz)).cutAtZero_eq

end Box

end BoxTree
