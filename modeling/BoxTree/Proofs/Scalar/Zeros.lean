import BoxTree.Proofs.Scalar.Units
import Mathlib
/-!
# Zeros of either sign

A scalar is given by its units up to the sign of a zero. Sums, differences and products of scalars
that are alike in this way are alike, and what is cut off at zero is the same.
-/

namespace BoxTree

open Float.Model (Format UnpackedFloat)
open Float.Model.UnpackedFloat

namespace Scalar

/-- A zero of either sign. -/
def IsZero (a : Scalar) : Prop := ∃ s, a.toModel.unpack = .zero s

/-- Scalars that are the same, or zeros of either sign. -/
def Alike (a b : Scalar) : Prop := a = b ∨ a.IsZero ∧ b.IsZero

variable {a b c d : Scalar}

theorem alike_of_units (ha : a.isNaN = false) (hb : b.isNaN = false) (h : a.units = b.units) :
    a.Alike b := by
  obtain ⟨-, -, h | ⟨rfl, rfl⟩ | ⟨rfl, rfl⟩⟩ :=
    Float32.beq_iff_ne_nan_and_eq.1 ((beq_iff_units ha hb).2 h)
  · exact .inl h
  · exact .inr ⟨⟨_, rfl⟩, _, rfl⟩
  · exact .inr ⟨⟨_, rfl⟩, _, rfl⟩

/-- Unpacked scalars that are the same, or zeros of either sign. -/
def Like (u v : UnpackedFloat) : Prop := u = v ∨ ∃ s t, u = .zero s ∧ v = .zero t

variable {u v u' v' : UnpackedFloat}

theorem Alike.like (h : a.Alike b) : Like a.toModel.unpack b.toModel.unpack := by
  rcases h with rfl | ⟨⟨s, hs⟩, t, ht⟩
  · exact .inl rfl
  · exact .inr ⟨s, t, hs, ht⟩

theorem Like.alike (h : Like u v) :
    Alike (Float32.ofModel (.pack u)) (Float32.ofModel (.pack v)) := by
  rcases h with rfl | ⟨s, t, rfl, rfl⟩
  · exact .inl rfl
  · exact .inr ⟨⟨s, unpack_packedZero⟩, t, unpack_packedZero⟩

/-- An operation that tells zeros apart at most by the sign of a zero. -/
def Blind (f : UnpackedFloat → UnpackedFloat → UnpackedFloat) : Prop :=
  ∀ s t w, Like (f (.zero s) w) (f (.zero t) w) ∧ Like (f w (.zero s)) (f w (.zero t))

theorem Like.map₂ {f : UnpackedFloat → UnpackedFloat → UnpackedFloat} (hf : Blind f)
    (h : Like u v) (h' : Like u' v') : Like (f u u') (f v v') := by
  have htrans : ∀ {w₁ w₂ w₃ : UnpackedFloat}, Like w₁ w₂ → Like w₂ w₃ → Like w₁ w₃ := by
    rintro w₁ w₂ w₃ (rfl | ⟨s, t, rfl, rfl⟩) (rfl | ⟨s', t', heq, rfl⟩)
    · exact .inl rfl
    · exact .inr ⟨s', t', heq, rfl⟩
    · exact .inr ⟨s, t, rfl, rfl⟩
    · exact .inr ⟨s, t', rfl, rfl⟩
  have hleft : Like (f u u') (f v u') := by
    rcases h with rfl | ⟨s, t, rfl, rfl⟩
    · exact .inl rfl
    · exact (hf s t u').1
  have hright : Like (f v u') (f v v') := by
    rcases h' with rfl | ⟨s, t, rfl, rfl⟩
    · exact .inl rfl
    · exact (hf s t v).2
  exact htrans hleft hright

theorem blind_add : Blind (UnpackedFloat.add Format.binary32) := by
  intro s t w
  cases w <;> grind [Like, UnpackedFloat.add]

theorem blind_sub : Blind (UnpackedFloat.sub Format.binary32) := by
  intro s t w
  cases w <;> grind [Like, UnpackedFloat.sub]

theorem blind_mul : Blind (UnpackedFloat.mul Format.binary32) := by
  intro s t w
  cases w <;> grind [Like, UnpackedFloat.mul]

theorem Alike.add (h : a.Alike b) (h' : c.Alike d) : (a + c).Alike (b + d) :=
  (h.like.map₂ blind_add h'.like).alike

theorem Alike.sub (h : a.Alike b) (h' : c.Alike d) : (a - c).Alike (b - d) :=
  (h.like.map₂ blind_sub h'.like).alike

theorem Alike.mul (h : a.Alike b) (h' : c.Alike d) : (a * c).Alike (b * d) :=
  (h.like.map₂ blind_mul h'.like).alike

/-- **What is cut off at zero is the same.** -/
theorem Alike.cutAtZero_eq (h : a.Alike b) : cutAtZero a = cutAtZero b := by
  have hzero : ∀ {c : Scalar}, c.IsZero → cutAtZero c = 0 := by
    rintro c ⟨s, hs⟩
    refine if_neg fun h => ?_
    change decide ((UnpackedFloat.compare (.zero .positive) c.toModel.unpack == some .lt) = true) =
      true at h
    rw [hs] at h
    cases h
  rcases h with rfl | ⟨ha, hb⟩
  · rfl
  · rw [hzero ha, hzero hb]

/-! ## A scalar less itself -/

/-- A scalar less itself is zero, or not a number where it is infinite. -/
theorem sub_self_cases (u : UnpackedFloat) :
    UnpackedFloat.sub Format.binary32 u u = .zero .positive ∨
      UnpackedFloat.sub Format.binary32 u u = .notANumber := by
  cases u with
  | notANumber => exact .inr rfl
  | infinity s => cases s <;> exact .inr rfl
  | zero s => cases s <;> exact .inl rfl
  | finite s m e h =>
    left
    simp only [UnpackedFloat.sub, Int.sub_self]
    rfl

/-- **A scalar less itself is not above zero**, be it finite or not. -/
theorem not_pos_sub_self (a : Scalar) : ¬ 0 < a - a := by
  intro h
  change decide ((UnpackedFloat.compare (.zero .positive) (unpack Format.binary32
    (pack Format.binary32 (UnpackedFloat.sub Format.binary32 a.toModel.unpack
      a.toModel.unpack))) == some .lt) = true) = true at h
  rcases sub_self_cases a.toModel.unpack with heq | heq
  · rw [heq, pack, unpack_packedZero] at h
    cases h
  · rw [heq, pack, unpack_packedNaN] at h
    cases h

/-! ## What is alike for others -/

theorem Alike.refl (a : Scalar) : a.Alike a := .inl rfl

/-- Comparisons do not see the sign of a zero. -/
theorem compare_zero (s t : Sign) (w : UnpackedFloat) :
    (UnpackedFloat.zero s).compare w = (UnpackedFloat.zero t).compare w ∧
      w.compare (.zero s) = w.compare (.zero t) := by
  cases w with
  | notANumber => exact ⟨rfl, rfl⟩
  | infinity r => cases r <;> exact ⟨rfl, rfl⟩
  | zero r => exact ⟨rfl, rfl⟩
  | finite r m e h => cases r <;> exact ⟨rfl, rfl⟩

theorem Like.compare_eq (h : Like u v) (h' : Like u' v') : u.compare u' = v.compare v' := by
  rcases h with rfl | ⟨s, t, rfl, rfl⟩
  · rcases h' with rfl | ⟨s', t', rfl, rfl⟩
    · rfl
    · exact (compare_zero s' t' u).2
  · rcases h' with rfl | ⟨s', t', rfl, rfl⟩
    · exact (compare_zero s t u').1
    · rfl

theorem Alike.le_iff (h : a.Alike b) (h' : c.Alike d) : a ≤ c ↔ b ≤ d := by
  change decide ((a.toModel.unpack.compare c.toModel.unpack).any (·.isLE) = true) = true ↔
    decide ((b.toModel.unpack.compare d.toModel.unpack).any (·.isLE) = true) = true
  rw [h.like.compare_eq h'.like]

theorem Alike.lt_iff (h : a.Alike b) (h' : c.Alike d) : a < c ↔ b < d := by
  change decide ((a.toModel.unpack.compare c.toModel.unpack == some .lt) = true) = true ↔
    decide ((b.toModel.unpack.compare d.toModel.unpack == some .lt) = true) = true
  rw [h.like.compare_eq h'.like]

/-- Zeros of either sign are cut to the same count. -/
theorem Alike.toCount_eq (h : a.Alike b) : a.toCount = b.toCount := by
  have hzero : ∀ {c : Scalar}, c.IsZero → c.toCount = 0 := by
    rintro c ⟨s, hs⟩
    change (UnpackedFloat.toUInt64 c.toModel.unpack).toNat = 0
    rw [hs]
    rfl
  rcases h with rfl | ⟨ha, hb⟩
  · rfl
  · rw [hzero ha, hzero hb]

/-- Only zeros are alike without being the same. -/
theorem Alike.eq_of_pos (h : a.Alike b) (hpos : 0 < a) : a = b := by
  rcases h with h | ⟨⟨s, hs⟩, -⟩
  · exact h
  · change decide ((UnpackedFloat.compare (.zero .positive) a.toModel.unpack == some .lt) = true) =
      true at hpos
    rw [hs] at hpos
    cases hpos

end Scalar

end BoxTree
