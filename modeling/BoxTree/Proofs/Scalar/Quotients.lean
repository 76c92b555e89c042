import BoxTree.Proofs.Scalar.Rounding
/-!
# Quotients and sums

The cost of a tree is a sum of shares. The share of a finite positive scalar in itself is exactly
one (`Positive.div_self`), that of infinity is not a number (`isNaN_div_infinity`), and what is not
a number stays in every sum. A sum of scalars from zero up starts from negative zero and never falls
(`Nonneg.units_le_sum`), be it finite or not.
-/

namespace BoxTree

open Float.Model (Format UnpackedFloat totalExponent)
open Float.Model.UnpackedFloat

namespace Scalar

variable {a b : Scalar}

/-! ## Quotients -/

/-- Whatever a mantissa and its exponent are, the exact quotient of the two by themselves is found
in the same place. -/
theorem divCore_self {m : Nat} (hm : 0 < m) (e : Int) :
    divCore Format.binary32 m e m e = (2 ^ 24, -24, .exact) := by
  have hquotient : m <<< 24 / m = 2 ^ 24 := by
    rw [Nat.shiftLeft_eq, Nat.mul_div_cancel_left _ hm]
  have hrest : m <<< 24 % m = 0 := by rw [Nat.shiftLeft_eq, Nat.mul_mod_right]
  simp only [divCore, Int.sub_self]
  change (m <<< 24 / m, (-24 : Int), accuracyOfFraction (m <<< 24 % m) m) = _
  rw [hquotient, hrest]
  rfl

/-- **A finite positive scalar by itself is one.** -/
theorem Positive.div_self (ha : a.Positive) : a / a = 1 := by
  obtain ⟨m, e, hm, hu⟩ := ha
  change Float32.ofModel (.pack (UnpackedFloat.div Format.binary32 a.toModel.unpack
    a.toModel.unpack)) = 1
  rw [hu]
  simp only [UnpackedFloat.div, divCore_self hm e]
  decide +kernel

/-- A scalar is not a number when what it was packed from is none. -/
theorem isNaN_of_unpacked {u : UnpackedFloat} (h : u = .notANumber) :
    Float32.isNaN (Float32.ofModel (.pack u)) = true := by
  change (unpack Format.binary32 (pack Format.binary32 u)).isNaN = true
  rw [h, pack, unpack_packedNaN]
  rfl

/-- **Infinity by itself** is not a number. -/
theorem isNaN_div_infinity (ha : a.toModel.unpack = .infinity .positive) :
    (a / a).isNaN = true := by
  refine isNaN_of_unpacked ?_
  rw [ha]
  rfl

/-! ## What is not a number stays -/

theorem unpack_of_isNaN (ha : a.isNaN = true) : a.toModel.unpack = .notANumber := by
  change a.toModel.unpack.isNaN = true at ha
  cases hu : a.toModel.unpack <;> rw [hu] at ha <;> first | rfl | cases ha

theorem isNaN_add_of_left (ha : a.isNaN = true) (b : Scalar) : (a + b).isNaN = true := by
  refine isNaN_of_unpacked ?_
  rw [unpack_of_isNaN ha]
  rfl

theorem isNaN_add_of_right (a : Scalar) (hb : b.isNaN = true) : (a + b).isNaN = true := by
  refine isNaN_of_unpacked ?_
  rw [unpack_of_isNaN hb]
  cases a.toModel.unpack <;> rfl

theorem isNaN_mul_of_left (ha : a.isNaN = true) (b : Scalar) : (a * b).isNaN = true := by
  refine isNaN_of_unpacked ?_
  rw [unpack_of_isNaN ha]
  rfl

/-! ## Sums of scalars from zero up -/

/-- Negative zero is where a sum starts. -/
theorem Nonneg.negZero_add (ha : a.Nonneg) : (-0 + a).Nonneg := by
  have hzero : (-0 : Scalar).toModel.unpack = .zero .negative := rfl
  rw [Nonneg, signOf_add, hzero]
  rcases unpacked_cases ha with hu | hu | ⟨m, e, hm, hu⟩ <;> rw [hu] <;> rfl

theorem Nonneg.units_nonneg (ha : a.Nonneg) : 0 ≤ a.units := by
  rcases ha.cases with hinf | ⟨-, hpos⟩
  · change 0 ≤ unpackedUnits a.toModel.unpack
    rw [hinf]
    exact Int.natCast_nonneg _
  · exact hpos

/-- **A sum of scalars from zero up** does not fall below the first of them, be it finite or not. -/
theorem Nonneg.units_le_sum (ha : a.Nonneg) (hb : b.Nonneg) : a.units ≤ (a + b).units := by
  rcases ha.cases with hinf | ⟨hfinite, -⟩
  · have hsum : (a + b).toModel.unpack = .infinity .positive := by
      change unpack Format.binary32 (pack Format.binary32
        (UnpackedFloat.add Format.binary32 a.toModel.unpack b.toModel.unpack)) = _
      rw [hinf]
      rcases unpacked_cases hb with hv | hv | ⟨m, e, hm, hv⟩ <;> rw [hv] <;>
        exact unpack_pack_infinity
    change unpackedUnits a.toModel.unpack ≤ unpackedUnits (a + b).toModel.unpack
    rw [hinf, hsum]
  · exact (hb.units_le_add hfinite).2

theorem Nonneg.zero_le (ha : a.Nonneg) : 0 ≤ a := by
  have hzero : units 0 = 0 := by decide
  rw [le_iff_units (by decide) ha.isNaN, hzero]
  exact ha.units_nonneg

theorem nonneg_ofCount {n : Nat} (hn : n < 2 ^ 64) : (ofCount n).Nonneg := by
  rcases Nat.eq_zero_or_pos n with rfl | hpos
  · rfl
  · exact (positive_ofCount hpos hn).nonneg

/-! ## Infinite or not -/

theorem Nonneg.unpack_of_isInf (ha : a.Nonneg) (h : a.isInf = true) :
    a.toModel.unpack = .infinity .positive := by
  change a.toModel.unpack.isInf = true at h
  rcases unpacked_cases ha with hu | hu | ⟨m, e, hm, hu⟩
  · exact hu
  · rw [hu] at h
    cases h
  · rw [hu] at h
    cases h

theorem not_le_zero_of_infinity (ha : a.toModel.unpack = .infinity .positive) : ¬ a ≤ 0 := by
  change ¬ decide ((a.toModel.unpack.compare (.zero .positive)).any (·.isLE) = true) = true
  rw [ha]
  decide

/-- A scalar from zero up that is not infinite is no more than zero or positive. -/
theorem Nonneg.flat_or_positive (ha : a.Nonneg) (h : a.isInf = false) :
    a ≤ 0 ∨ ¬ a ≤ 0 ∧ 0 < a ∧ a.Positive := by
  by_cases hflat : a ≤ 0
  · exact .inl hflat
  · have hzero : (0 : Scalar).isNaN = false := by decide
    have hpos : 0 < a := by
      rw [lt_iff_units hzero ha.isNaN]
      rw [le_iff_units ha.isNaN hzero] at hflat
      omega
    have hfinite : a.isFinite = true := by
      change a.toModel.unpack.isInf = false at h
      rcases ha.cases with hinf | ⟨hfinite, -⟩
      · rw [hinf] at h
        cases h
      · exact hfinite
    exact .inr ⟨hflat, hpos, positive_of_pos hpos hfinite⟩

end Scalar

end BoxTree
