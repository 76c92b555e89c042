import BoxTree.Proofs.Box.Faces
import BoxTree.Proofs.Scalar.Zeros
/-!
# Unions bit for bit

Of two scalars that are equal the lesser is the second one, and so is the greater. Zeros of either
sign are equal, so that a union depends on the order of its boxes in the signs of zeros. It does not
depend on how they are grouped: **without undefined coordinates the union is associative bit for
bit** (`Box.union_assoc`), and the empty box is its identity on both sides.
-/

namespace BoxTree

/-- Preferring the first of two only where a relation says so is associative, if the relation and
its opposite are transitive on the three. -/
theorem prefer_assoc {α : Type} {r : α → α → Prop} [DecidableRel r] {a b c : α}
    (htrans : r a b → r b c → r a c) (hnot : ¬ r a b → ¬ r b c → ¬ r a c) :
    (if r (if r a b then a else b) c then if r a b then a else b else c) =
      if r a (if r b c then b else c) then a else if r b c then b else c := by
  by_cases hab : r a b
  · by_cases hbc : r b c
    · simp only [hab, hbc, htrans hab hbc, if_true]
    · simp only [hab, hbc, if_true, if_false]
  · by_cases hbc : r b c
    · simp only [hab, hbc, if_true, if_false]
    · simp only [hab, hbc, hnot hab hbc, if_false]

namespace Scalar

variable {a b c : Scalar}

theorem lesser_assoc (ha : a.isNaN = false) (hb : b.isNaN = false) (hc : c.isNaN = false) :
    lesser (lesser a b) c = lesser a (lesser b c) := by
  unfold lesser
  refine prefer_assoc ?_ ?_ <;> rw [lt_iff_units ha hb, lt_iff_units hb hc, lt_iff_units ha hc] <;>
    omega

theorem greater_assoc (ha : a.isNaN = false) (hb : b.isNaN = false) (hc : c.isNaN = false) :
    greater (greater a b) c = greater a (greater b c) := by
  unfold greater
  refine prefer_assoc (r := fun a b : Scalar => b < a) ?_ ?_ <;>
    rw [lt_iff_units hb ha, lt_iff_units hc hb, lt_iff_units hc ha] <;> omega

/-! Nothing lies beyond the infinities, which are given by their units. -/

theorem not_infinity_lt (ha : a.isNaN = false) : ¬ infinity < a := by
  have hle := natAbs_units_le a
  rw [lt_iff_units (by decide) ha, units_infinity]
  omega

theorem not_lt_negInfinity (ha : a.isNaN = false) : ¬ a < negInfinity := by
  have hle := natAbs_units_le a
  rw [lt_iff_units ha (by decide), units_negInfinity]
  omega

theorem eq_infinity (ha : a.isNaN = false) (h : ¬ a < infinity) : a = infinity := by
  have hle := natAbs_units_le a
  rw [lt_iff_units ha (by decide), units_infinity] at h
  have hunits : infinity.units = a.units := by
    rw [units_infinity]
    omega
  exact ((alike_of_units (by decide) ha hunits).eq_of_pos (by decide)).symm

theorem eq_negInfinity (ha : a.isNaN = false) (h : ¬ negInfinity < a) : a = negInfinity := by
  have hle := natAbs_units_le a
  rw [lt_iff_units (by decide) ha, units_negInfinity] at h
  have hunits : a.units = negInfinity.units := by
    rw [units_negInfinity]
    omega
  rcases alike_of_units ha (by decide) hunits with h | ⟨-, s, hs⟩
  · exact h
  · cases hs

theorem lesser_infinity (ha : a.isNaN = false) : lesser a infinity = a := by
  rw [lesser]
  split
  · rfl
  · rename_i h
    exact (eq_infinity ha h).symm

theorem infinity_lesser (ha : a.isNaN = false) : lesser infinity a = a :=
  if_neg (not_infinity_lt ha)

theorem greater_negInfinity (ha : a.isNaN = false) : greater a negInfinity = a := by
  rw [greater]
  split
  · rfl
  · rename_i h
    exact (eq_negInfinity ha h).symm

theorem negInfinity_greater (ha : a.isNaN = false) : greater negInfinity a = a :=
  if_neg (not_lt_negInfinity ha)

end Scalar

/-- Points with the same coordinate on every axis are the same. -/
theorem Point.eq_of_get {p q : Point} (h : ∀ a, p.get a = q.get a) : p = q := by
  obtain ⟨x, y, z⟩ := p
  obtain ⟨x', y', z'⟩ := q
  exact Point.mk.injEq .. ▸ ⟨h .x, h .y, h .z⟩

namespace Box

variable {b c d : Box}

/-- Boxes with the same coordinates are the same. -/
theorem eq_of_get (h : ∀ a, b.lo.get a = c.lo.get a ∧ b.hi.get a = c.hi.get a) : b = c := by
  obtain ⟨lo, hi⟩ := b
  obtain ⟨lo', hi'⟩ := c
  exact Box.mk.injEq .. ▸
    ⟨Point.eq_of_get fun a => (h a).1, Point.eq_of_get fun a => (h a).2⟩

theorem get_lo_union (b c : Box) (a : Axis) :
    (b.union c).lo.get a = Scalar.lesser (b.lo.get a) (c.lo.get a) :=
  Point.get_zipWith _ _ _ a

theorem get_hi_union (b c : Box) (a : Axis) :
    (b.union c).hi.get a = Scalar.greater (b.hi.get a) (c.hi.get a) :=
  Point.get_zipWith _ _ _ a

theorem get_lo_empty (a : Axis) : empty.lo.get a = .infinity := by cases a <;> rfl

theorem get_hi_empty (a : Axis) : empty.hi.get a = .negInfinity := by cases a <;> rfl

/-- **The union is associative**, bit for bit. -/
theorem union_assoc (hb : b.Numeric) (hc : c.Numeric) (hd : d.Numeric) :
    (b.union c).union d = b.union (c.union d) := by
  refine eq_of_get fun a => ?_
  simp only [get_lo_union, get_hi_union]
  exact ⟨Scalar.lesser_assoc (hb a).1 (hc a).1 (hd a).1,
    Scalar.greater_assoc (hb a).2 (hc a).2 (hd a).2⟩

theorem union_empty (hb : b.Numeric) : b.union empty = b := by
  refine eq_of_get fun a => ?_
  rw [get_lo_union, get_hi_union, get_lo_empty, get_hi_empty]
  exact ⟨Scalar.lesser_infinity (hb a).1, Scalar.greater_negInfinity (hb a).2⟩

theorem empty_union (hb : b.Numeric) : empty.union b = b := by
  refine eq_of_get fun a => ?_
  rw [get_lo_union, get_hi_union, get_lo_empty, get_hi_empty]
  exact ⟨Scalar.infinity_lesser (hb a).1, Scalar.negInfinity_greater (hb a).2⟩

/-- **The boxes around two lists** together are the box around the lists one behind the other. -/
theorem union_around {boxes boxes' : List Box} (h : ∀ b ∈ boxes, b.Numeric)
    (h' : ∀ b ∈ boxes', b.Numeric) :
    (around boxes).union (around boxes') = around (boxes ++ boxes') := by
  induction boxes' using List.reverseRecOn with
  | nil =>
    rw [List.append_nil]
    exact union_empty (numeric_around h)
  | append_singleton rest b ih =>
    rw [List.forall_mem_append, List.forall_mem_singleton] at h'
    have hconcat : ∀ boxes : List Box, around (boxes ++ [b]) = (around boxes).union b := by
      intro boxes
      rw [around, List.foldl_append]
      rfl
    rw [hconcat, ← union_assoc (numeric_around h) (numeric_around h'.1) h'.2, ih h'.1,
      ← List.append_assoc, hconcat]

end Box

end BoxTree
