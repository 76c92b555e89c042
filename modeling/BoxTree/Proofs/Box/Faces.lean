import BoxTree.Item
import BoxTree.Proofs.Scalar.Units
import Mathlib.Data.List.Perm.Basic
import Mathlib.Order.Lattice
/-!
# Boxes as a join semilattice

Up to the sign of zeros a box without undefined coordinates is its **faces**: the units of its
lower and of its upper corner. The lower ones are ordered upside down, so that a larger box has
greater faces, and the union of boxes is their join. Hence a union does not depend on the order
of the boxes or on how they are grouped, and it contains each of them.
-/

namespace BoxTree

namespace Box

/-- A box all of whose coordinates are numbers, be they finite or not. -/
def Numeric (b : Box) : Prop :=
  ∀ a, (b.lo.get a).isNaN = false ∧ (b.hi.get a).isNaN = false

/-- The units of the two corners along every axis, the lower ones in reverse order. -/
abbrev Faces := Axis → ℤᵒᵈ × ℤ

/-- The faces of a box. -/
def faces (b : Box) : Faces := fun a =>
  (OrderDual.toDual (b.lo.get a).units, (b.hi.get a).units)

/-- The box around a list of boxes. -/
def around (boxes : List Box) : Box := boxes.foldl union empty

variable {b c : Box}

theorem numeric_empty : empty.Numeric := fun a => by cases a <;> decide

theorem Numeric.union (hb : b.Numeric) (hc : c.Numeric) : (b.union c).Numeric := by
  intro a
  simp only [Box.union, Point.lesser, Point.greater, Point.get_zipWith]
  exact ⟨Scalar.isNaN_lesser (hb a).1 (hc a).1, Scalar.isNaN_greater (hb a).2 (hc a).2⟩

/-- **The union of boxes is the join of their faces.** -/
theorem faces_union (hb : b.Numeric) (hc : c.Numeric) : (b.union c).faces = b.faces ⊔ c.faces := by
  funext a
  simp only [faces, Box.union, Point.lesser, Point.greater, Point.get_zipWith, Pi.sup_apply,
    Prod.mk_sup_mk]
  rw [Scalar.units_lesser (hb a).1 (hc a).1, Scalar.units_greater (hb a).2 (hc a).2]
  rfl

/-- Nothing has smaller faces than the empty box. -/
theorem faces_empty_le (b : Box) : empty.faces ≤ b.faces := by
  intro a
  have hlo := Scalar.natAbs_units_le (b.lo.get a)
  have hhi := Scalar.natAbs_units_le (b.hi.get a)
  have hget : empty.faces a = (OrderDual.toDual (Scalar.infinityUnits : ℤ),
      (-Scalar.infinityUnits : ℤ)) := by
    rw [← Scalar.units_negInfinity, ← Scalar.units_infinity]
    cases a <;> rfl
  rw [hget]
  have hdown : -(Scalar.infinityUnits : ℤ) ≤ (b.hi.get a).units := by omega
  exact ⟨OrderDual.toDual_le_toDual.2 (by omega), hdown⟩

/-- Boxes have the same corners when they have the same faces. -/
theorem sameCorners_iff_faces (hb : b.Numeric) (hc : c.Numeric) :
    b.sameCorners c = true ↔ b.faces = c.faces := by
  have hall : ∀ a, (b.lo.get a == c.lo.get a && b.hi.get a == c.hi.get a) = true ↔
      b.faces a = c.faces a := by
    intro a
    rw [Bool.and_eq_true, Scalar.beq_iff_units (hb a).1 (hc a).1,
      Scalar.beq_iff_units (hb a).2 (hc a).2, faces, faces, Prod.mk.injEq, OrderDual.toDual_inj]
  rw [funext_iff, sameCorners, Axis.all_all_iff, forall_congr' hall]

/-- **A box with greater faces contains the other.** -/
theorem contains_of_faces_le (hb : b.Numeric) (hc : c.Numeric) (h : c.faces ≤ b.faces) :
    b.contains c = true := by
  have hall : ∀ a, (b.lo.get a ≤ c.lo.get a && c.hi.get a ≤ b.hi.get a : Bool) = true := by
    intro a
    obtain ⟨hlo, hhi⟩ := h a
    rw [Bool.and_eq_true, decide_eq_true_iff, decide_eq_true_iff,
      Scalar.le_iff_units (hb a).1 (hc a).1, Scalar.le_iff_units (hc a).2 (hb a).2]
    exact ⟨OrderDual.toDual_le_toDual.1 hlo, hhi⟩
  rw [contains, Axis.all_all_iff.2 hall, Bool.or_true]

/-! ## Unions of lists -/

theorem Numeric.foldl_union {boxes : List Box} (hb : b.Numeric) (h : ∀ c ∈ boxes, c.Numeric) :
    (boxes.foldl Box.union b).Numeric := by
  induction boxes generalizing b with
  | nil => exact hb
  | cons c rest ih =>
    rw [List.forall_mem_cons] at h
    exact ih (hb.union h.1) h.2

theorem numeric_around {boxes : List Box} (h : ∀ c ∈ boxes, c.Numeric) : (around boxes).Numeric :=
  numeric_empty.foldl_union h

/-- The faces of a union are gathered box by box. -/
theorem faces_foldl_union {boxes : List Box} (hb : b.Numeric) (h : ∀ c ∈ boxes, c.Numeric) :
    (boxes.foldl Box.union b).faces = (boxes.map faces).foldl (· ⊔ ·) b.faces := by
  induction boxes generalizing b with
  | nil => rfl
  | cons c rest ih =>
    rw [List.forall_mem_cons] at h
    rw [List.foldl_cons, ih (hb.union h.1) h.2, faces_union hb h.1, List.map_cons, List.foldl_cons]

/-- **The union does not depend on the order of the boxes.** -/
theorem faces_around_perm {boxes boxes' : List Box} (h : ∀ c ∈ boxes, c.Numeric)
    (hp : boxes.Perm boxes') : (around boxes).faces = (around boxes').faces := by
  have h' : ∀ c ∈ boxes', c.Numeric := fun c hc => h c (hp.mem_iff.2 hc)
  have hcomm : RightCommutative (fun f g : Faces => f ⊔ g) := ⟨fun f g k => sup_right_comm f g k⟩
  rw [around, around, faces_foldl_union numeric_empty h, faces_foldl_union numeric_empty h']
  exact (hp.map faces).foldl_eq empty.faces

/-- **Nor on how they are grouped.** -/
theorem faces_around_append {boxes boxes' : List Box} (h : ∀ c ∈ boxes, c.Numeric)
    (h' : ∀ c ∈ boxes', c.Numeric) :
    (around (boxes ++ boxes')).faces = (around boxes).faces ⊔ (around boxes').faces := by
  have hassoc : Std.Associative (fun f g : Faces => f ⊔ g) := ⟨fun f g k => sup_assoc f g k⟩
  have hle : empty.faces ≤ (around boxes).faces := faces_empty_le _
  have hfold : (boxes'.map faces).foldl (fun f g : Faces => f ⊔ g)
      ((around boxes).faces ⊔ empty.faces) = (around boxes).faces ⊔
      (boxes'.map faces).foldl (fun f g : Faces => f ⊔ g) empty.faces := List.foldl_assoc
  rw [sup_eq_left.2 hle, ← faces_foldl_union numeric_empty h',
    ← faces_foldl_union (numeric_around h) h'] at hfold
  rw [around, List.foldl_append]
  exact hfold

/-- One box more. -/
theorem faces_around_cons {boxes : List Box} (hb : b.Numeric) (h : ∀ c ∈ boxes, c.Numeric) :
    (around (b :: boxes)).faces = b.faces ⊔ (around boxes).faces := by
  have hone : ∀ c ∈ [b], c.Numeric := fun c hc => List.mem_singleton.1 hc ▸ hb
  have hsingle : (around [b]).faces = b.faces := by
    rw [around, List.foldl_cons, List.foldl_nil, faces_union numeric_empty hb]
    exact sup_eq_right.2 (faces_empty_le b)
  rw [← hsingle, ← faces_around_append hone h, List.singleton_append]

/-- Every box lies in the union. -/
theorem faces_le_around {boxes : List Box} (h : ∀ c ∈ boxes, c.Numeric) (hc : c ∈ boxes) :
    c.faces ≤ (around boxes).faces := by
  obtain ⟨before, after, rfl⟩ := List.append_of_mem hc
  have hb : ∀ d ∈ before, d.Numeric := fun d hd => h d (List.mem_append_left _ hd)
  have ha : ∀ d ∈ c :: after, d.Numeric := fun d hd => h d (List.mem_append_right _ hd)
  rw [faces_around_append hb ha, faces_around_cons (ha c List.mem_cons_self)
    fun d hd => ha d (List.mem_cons_of_mem _ hd)]
  exact le_sup_left.trans le_sup_right

end Box

/-- The bounds of an extent are the union of the boxes it was made of. -/
theorem Extent.bounds_ofBoxes (boxes : List Box) :
    (Extent.ofBoxes boxes).bounds = Box.around boxes := by
  have hfold : ∀ e : Extent,
      (boxes.foldl Extent.add e).bounds = boxes.foldl Box.union e.bounds := by
    induction boxes with
    | nil => exact fun _ => rfl
    | cons b rest ih => exact fun e => ih (e.add b)
  exact hfold .empty

end BoxTree
