import BoxTree.Scalar
import Mathlib.Tactic.Linarith
/-!
# Scalars as numbers

A scalar that is a number is a whole multiple of the least positive scalar, and its **units**
count them. The two zeros have the same units, and infinity stands where the next greater scalar
would. The comparisons of scalars are those of their units, so that everything the library
decides by comparing can be read in the integers.
-/

namespace BoxTree

open Float.Model (Format UnpackedFloat)

namespace Scalar

/-- Where infinity stands: at the units that follow the greatest finite ones. -/
def infinityUnits : Nat := 2 ^ 24 * 2 ^ 253

/-- The units of a mantissa and an exponent, before the sign. -/
def magnitude (m : Nat) (e : Int) : Nat := m * 2 ^ (e + 149).toNat

/-- The units of an unpacked scalar; what is not a number has none. -/
def unpackedUnits : UnpackedFloat → Int
  | .notANumber => 0
  | .infinity s => s.apply infinityUnits
  | .zero _ => 0
  | .finite s m e _ => s.apply (magnitude m e)

/-- The units of a scalar. -/
def units (a : Scalar) : Int := unpackedUnits a.toModel.unpack

/-- An unpacked scalar as the unpacking gives it: the mantissa is full unless the exponent is
the least one. -/
def Canonical : UnpackedFloat → Prop
  | .finite _ m e _ => -149 ≤ e ∧ e ≤ 104 ∧ m < 2 ^ 24 ∧ (2 ^ 23 ≤ m ∨ e = -149)
  | _ => True

/-- What the fields of a scalar unpack to, by the numbers in its exponent and mantissa. -/
theorem unpack_cases (b : BitVec 32) {s : UnpackedFloat.Sign} {e m : Nat}
    (hs : .ofBitVec (@UnpackedFloat.unpackSign Format.binary32 b) = s)
    (he : (@UnpackedFloat.unpackExponent Format.binary32 b).toNat = e)
    (hm : (@UnpackedFloat.unpackMantissa Format.binary32 b).toNat = m) :
    (UnpackedFloat.unpack Format.binary32 b = .notANumber ∧ e = 255 ∧ m ≠ 0) ∨
      (UnpackedFloat.unpack Format.binary32 b = .infinity s ∧ e = 255 ∧ m = 0) ∨
      (UnpackedFloat.unpack Format.binary32 b = .zero s ∧ e = 0 ∧ m = 0) ∨
      ∃ k x h, UnpackedFloat.unpack Format.binary32 b = .finite s k x h ∧
        (e = 0 ∧ k = m ∧ x = -149 ∨ 0 < e ∧ e < 255 ∧ k = 2 ^ 23 + m ∧ x = e - 150) := by
  have hmlt : m < 2 ^ 23 := hm ▸ (@UnpackedFloat.unpackMantissa Format.binary32 b).isLt
  have helt : e < 256 := he ▸ (@UnpackedFloat.unpackExponent Format.binary32 b).isLt
  have hbias : ((Format.binary32.exponentBias : Nat) : Int) = 127 := rfl
  have hbits : ((Format.binary32.mantissaBitsWithoutImplicit : Nat) : Int) = 23 := rfl
  delta UnpackedFloat.unpack
  dsimp only
  rw [hs]
  by_cases hfull : @UnpackedFloat.unpackExponent Format.binary32 b =
      -BitVec.ofNat Format.binary32.exponentBits 1
  · rw [if_pos hfull]
    have hexp : e = 255 := by
      rw [← he, hfull]
      rfl
    by_cases hmant : @UnpackedFloat.unpackMantissa Format.binary32 b =
        BitVec.ofNat Format.binary32.mantissaBitsWithoutImplicit 0
    · rw [if_pos hmant]
      rw [hmant] at hm
      exact .inr (.inl ⟨rfl, hexp, hm.symm⟩)
    · rw [if_neg hmant]
      exact .inl ⟨rfl, hexp, fun h => hmant (BitVec.eq_of_toNat_eq (hm.trans h))⟩
  · rw [if_neg hfull]
    have hmax : e ≠ 255 := fun h => hfull (BitVec.eq_of_toNat_eq (he.trans h))
    by_cases hzero : @UnpackedFloat.unpackExponent Format.binary32 b =
        BitVec.ofNat Format.binary32.exponentBits 0
    · rw [if_pos hzero]
      have hexp : e = 0 := by
        rw [← he, hzero]
        rfl
      by_cases hmant : @UnpackedFloat.unpackMantissa Format.binary32 b =
          BitVec.ofNat Format.binary32.mantissaBitsWithoutImplicit 0
      · rw [dif_pos hmant]
        rw [hmant] at hm
        exact .inr (.inr (.inl ⟨rfl, hexp, hm.symm⟩))
      · rw [dif_neg hmant]
        refine .inr (.inr (.inr ⟨_, _, _, rfl, .inl ⟨hexp, hm, ?_⟩⟩))
        rw [he, hexp, hbias, hbits]
        rfl
    · rw [if_neg hzero]
      have hpos : e ≠ 0 := fun h => hzero (BitVec.eq_of_toNat_eq (he.trans h))
      have happ : (1#1 ++ @UnpackedFloat.unpackMantissa Format.binary32 b).toNat = 2 ^ 23 + m := by
        change 2 ^ 23 ||| (@UnpackedFloat.unpackMantissa Format.binary32 b).toNat = _
        rw [hm, Nat.or_comm, Nat.or_two_pow_eq_add_of_lt hmlt, Nat.add_comm]
      refine .inr (.inr (.inr ⟨_, _, _, rfl, .inr ⟨by omega, by omega, happ, ?_⟩⟩))
      rw [he, hbias, hbits]
      omega

/-- **Unpacking gives canonical scalars.** -/
theorem canonical_unpack (b : BitVec 32) :
    Canonical (UnpackedFloat.unpack Format.binary32 b) := by
  have hmlt : (@UnpackedFloat.unpackMantissa Format.binary32 b).toNat < 2 ^ 23 :=
    (@UnpackedFloat.unpackMantissa Format.binary32 b).isLt
  rcases unpack_cases b rfl rfl rfl with ⟨h, -, -⟩ | ⟨h, -, -⟩ | ⟨h, -, -⟩ | ⟨k, x, hk, h, hcases⟩
  · rw [h]
    trivial
  · rw [h]
    trivial
  · rw [h]
    trivial
  · rw [h]
    change -149 ≤ x ∧ x ≤ 104 ∧ k < 2 ^ 24 ∧ (2 ^ 23 ≤ k ∨ x = -149)
    omega

/-- A greater exponent means more units, and among equal exponents a greater mantissa. -/
theorem magnitude_lt {m k : Nat} {e f : Int} (he : -149 ≤ e) (hm : m < 2 ^ 24)
    (hk : 2 ^ 23 ≤ k ∨ f = -149) (h : e < f ∨ e = f ∧ m < k) : magnitude m e < magnitude k f := by
  rcases h with hlt | ⟨rfl, hlt⟩
  · have hfull : 2 ^ 23 ≤ k := hk.resolve_right (by omega)
    calc m * 2 ^ (e + 149).toNat
        < 2 ^ 24 * 2 ^ (e + 149).toNat := Nat.mul_lt_mul_of_pos_right hm (Nat.two_pow_pos _)
      _ = 2 ^ 23 * 2 ^ ((e + 149).toNat + 1) := by rw [Nat.pow_succ _ (e + 149).toNat]; omega
      _ ≤ 2 ^ 23 * 2 ^ (f + 149).toNat :=
          Nat.mul_le_mul_left _ (Nat.pow_le_pow_right (by decide) (by omega))
      _ ≤ k * 2 ^ (f + 149).toNat := Nat.mul_le_mul_right _ hfull
  · exact Nat.mul_lt_mul_of_pos_right hlt (Nat.two_pow_pos _)

/-- Every finite scalar stays below infinity. -/
theorem magnitude_lt_infinityUnits {m : Nat} {e : Int} (he : e ≤ 104) (hm : m < 2 ^ 24) :
    magnitude m e < infinityUnits := by
  calc m * 2 ^ (e + 149).toNat
      < 2 ^ 24 * 2 ^ (e + 149).toNat := Nat.mul_lt_mul_of_pos_right hm (Nat.two_pow_pos _)
    _ ≤ 2 ^ 24 * 2 ^ 253 := Nat.mul_le_mul_left _ (Nat.pow_le_pow_right (by decide) (by omega))

/-- A finite scalar other than zero has units. -/
theorem magnitude_pos {m : Nat} {e : Int} (h : 0 < m) : 0 < magnitude m e :=
  Nat.mul_pos h (Nat.two_pow_pos _)

/-- The order of exponents and then mantissas is that of the units. -/
theorem compare_then_mantissa {m k : Nat} {e f : Int} (he : -149 ≤ e) (hf : -149 ≤ f)
    (hm : m < 2 ^ 24) (hk : k < 2 ^ 24) (hmn : 2 ^ 23 ≤ m ∨ e = -149)
    (hkn : 2 ^ 23 ≤ k ∨ f = -149) :
    (compare e f).then (compare m k) = compare (magnitude m e : Int) (magnitude k f : Int) := by
  rcases lt_trichotomy e f with h | rfl | h
  · have hu := magnitude_lt he hm hkn (.inl h)
    rw [compare_lt_iff_lt.2 h, compare_lt_iff_lt.2 (Int.ofNat_lt.2 hu)]
    rfl
  · rw [compare_eq_iff_eq.2 (rfl : e = e), Ordering.then]
    rcases lt_trichotomy m k with h | rfl | h
    · have hu := magnitude_lt he hm hkn (.inr ⟨rfl, h⟩)
      rw [compare_lt_iff_lt.2 h, compare_lt_iff_lt.2 (Int.ofNat_lt.2 hu)]
    · rw [compare_eq_iff_eq.2 rfl, compare_eq_iff_eq.2 rfl]
    · have hu := magnitude_lt hf hk hmn (.inr ⟨rfl, h⟩)
      rw [compare_gt_iff_gt.2 h, compare_gt_iff_gt.2 (Int.ofNat_lt.2 hu)]
  · have hu := magnitude_lt hf hk hmn (.inl h)
    rw [compare_gt_iff_gt.2 h, compare_gt_iff_gt.2 (Int.ofNat_lt.2 hu)]
    rfl

/-- The order turns round with the sign. -/
theorem compare_neg_neg (a b : Int) : compare (-a) (-b) = (compare a b).swap := by
  rw [Int.compare_swap]
  simp only [compare, compareOfLessAndEq]
  grind

/-- **Comparing is comparing units**, as long as both sides are numbers. -/
theorem compare_unpacked {u v : UnpackedFloat} (hu : Canonical u) (hv : Canonical v)
    (hun : u ≠ .notANumber) (hvn : v ≠ .notANumber) :
    u.compare v = some (compare (unpackedUnits u) (unpackedUnits v)) := by
  have lt {a b : Int} (h : a < b) : some Ordering.lt = some (compare a b) := by
    rw [compare_lt_iff_lt.2 h]
  have gt {a b : Int} (h : b < a) : some Ordering.gt = some (compare a b) := by
    rw [compare_gt_iff_gt.2 h]
  have eq (a : Int) : some Ordering.eq = some (compare a a) := by
    rw [compare_eq_iff_eq.2 rfl]
  have hbig : 0 < infinityUnits := by decide
  -- signs decide first, and the magnitudes where both are the same
  cases u with
  | notANumber => exact absurd rfl hun
  | infinity s =>
    cases v with
    | notANumber => exact absurd rfl hvn
    | infinity t =>
      cases s <;> cases t <;> dsimp only [unpackedUnits, UnpackedFloat.Sign.apply]
      · exact eq _
      · exact lt (by omega)
      · exact gt (by omega)
      · exact eq _
    | zero t =>
      cases s <;> dsimp only [unpackedUnits, UnpackedFloat.Sign.apply]
      · exact lt (by omega)
      · exact gt (by omega)
    | finite t k f hk =>
      obtain ⟨-, hf', hk', -⟩ := hv
      have hlt := magnitude_lt_infinityUnits hf' hk'
      cases s <;> cases t <;> dsimp only [unpackedUnits, UnpackedFloat.Sign.apply]
      · exact lt (by omega)
      · exact lt (by omega)
      · exact gt (by omega)
      · exact gt (by omega)
  | zero s =>
    cases v with
    | notANumber => exact absurd rfl hvn
    | infinity t =>
      cases t <;> dsimp only [unpackedUnits, UnpackedFloat.Sign.apply]
      · exact gt (by omega)
      · exact lt (by omega)
    | zero t => exact eq _
    | finite t k f hk =>
      have hpos := magnitude_pos (e := f) hk
      cases t <;> dsimp only [unpackedUnits, UnpackedFloat.Sign.apply]
      · exact gt (by omega)
      · exact lt (by omega)
  | finite s m e hm =>
    obtain ⟨he, he', hm', hmn⟩ := hu
    have hpos := magnitude_pos (e := e) hm
    have hlt := magnitude_lt_infinityUnits he' hm'
    cases v with
    | notANumber => exact absurd rfl hvn
    | infinity t =>
      cases s <;> cases t <;> dsimp only [unpackedUnits, UnpackedFloat.Sign.apply]
      · exact gt (by omega)
      · exact lt (by omega)
      · exact gt (by omega)
      · exact lt (by omega)
    | zero t =>
      cases s <;> dsimp only [unpackedUnits, UnpackedFloat.Sign.apply]
      · exact lt (by omega)
      · exact gt (by omega)
    | finite t k f hk =>
      obtain ⟨hf, -, hk', hkn⟩ := hv
      have hpos' := magnitude_pos (e := f) hk
      have hmag := compare_then_mantissa he hf hm' hk' hmn hkn
      cases s <;> cases t <;>
        dsimp only [unpackedUnits, UnpackedFloat.Sign.apply, UnpackedFloat.compare]
      · rw [hmag, compare_neg_neg]
      · exact lt (by omega)
      · exact gt (by omega)
      · rw [hmag]

/-! ## Comparing scalars -/

variable {a b c : Scalar}

theorem unpack_ne_of_isNaN (h : a.isNaN = false) : a.toModel.unpack ≠ .notANumber := by
  intro hnan
  rw [Float32.isNaN, Float32.Model.isNaN, hnan] at h
  cases h

theorem compare_eq_compare_units (ha : a.isNaN = false) (hb : b.isNaN = false) :
    a.toModel.unpack.compare b.toModel.unpack = some (compare a.units b.units) :=
  compare_unpacked (canonical_unpack _) (canonical_unpack _) (unpack_ne_of_isNaN ha)
    (unpack_ne_of_isNaN hb)

/-- One number is below another when its units are. -/
theorem lt_iff_units (ha : a.isNaN = false) (hb : b.isNaN = false) : a < b ↔ a.units < b.units := by
  change decide ((a.toModel.unpack.compare b.toModel.unpack == some .lt) = true) = true ↔ _
  rw [decide_eq_true_iff, compare_eq_compare_units ha hb, beq_iff_eq, Option.some_inj,
    compare_lt_iff_lt]

theorem le_iff_units (ha : a.isNaN = false) (hb : b.isNaN = false) : a ≤ b ↔ a.units ≤ b.units := by
  change decide ((a.toModel.unpack.compare b.toModel.unpack).any (·.isLE) = true) = true ↔ _
  rw [decide_eq_true_iff, compare_eq_compare_units ha hb, Option.any_some, Int.isLE_compare]

/-- Nothing is below what is not a number. -/
theorem isNaN_of_le (h : a ≤ b) : b.isNaN = false := by
  change decide ((a.toModel.unpack.compare b.toModel.unpack).any (·.isLE) = true) = true at h
  change b.toModel.unpack.isNaN = false
  cases hb : b.toModel.unpack with
  | notANumber =>
    rw [hb] at h
    cases hu : a.toModel.unpack <;> rw [hu] at h <;> cases h
  | infinity s => rfl
  | zero s => rfl
  | finite s m e hm => rfl

/-- Numbers are equal when their units are, so that zeros of either sign are. -/
theorem beq_iff_units (ha : a.isNaN = false) (hb : b.isNaN = false) :
    (a == b) = true ↔ a.units = b.units := by
  change (a.toModel.unpack.compare b.toModel.unpack == some .eq) = true ↔ _
  rw [compare_eq_compare_units ha hb, beq_iff_eq, Option.some_inj, compare_eq_iff_eq]

theorem bne_iff_units (ha : a.isNaN = false) (hb : b.isNaN = false) :
    (a != b) = true ↔ a.units ≠ b.units := by
  rw [bne, Bool.not_eq_true', ← Bool.not_eq_true, beq_iff_units ha hb]

/-! ## The lesser and the greater of two scalars -/

theorem isNaN_lesser (ha : a.isNaN = false) (hb : b.isNaN = false) :
    (lesser a b).isNaN = false := by
  rw [lesser]
  split <;> assumption

theorem isNaN_greater (ha : a.isNaN = false) (hb : b.isNaN = false) :
    (greater a b).isNaN = false := by
  rw [greater]
  split <;> assumption

/-- **The lesser of two numbers has the lesser units.** -/
theorem units_lesser (ha : a.isNaN = false) (hb : b.isNaN = false) :
    (lesser a b).units = min a.units b.units := by
  rw [lesser]
  split
  · rename_i h
    rw [lt_iff_units ha hb] at h
    omega
  · rename_i h
    rw [lt_iff_units ha hb] at h
    omega

/-- **The greater of two numbers has the greater units.** -/
theorem units_greater (ha : a.isNaN = false) (hb : b.isNaN = false) :
    (greater a b).units = max a.units b.units := by
  rw [greater]
  split
  · rename_i h
    rw [lt_iff_units hb ha] at h
    omega
  · rename_i h
    rw [lt_iff_units hb ha] at h
    omega

/-! ## Infinity -/

/-- The units of a scalar lie between those of the infinities. -/
theorem natAbs_units_le (a : Scalar) : a.units.natAbs ≤ infinityUnits := by
  have hc := canonical_unpack a.toModel.toBits.toBitVec
  change (unpackedUnits (UnpackedFloat.unpack Format.binary32 _)).natAbs ≤ _
  generalize UnpackedFloat.unpack Format.binary32 a.toModel.toBits.toBitVec = u at hc
  cases u with
  | notANumber => exact Nat.zero_le _
  | zero s => exact Nat.zero_le _
  | infinity s => cases s <;> dsimp only [unpackedUnits, UnpackedFloat.Sign.apply] <;> omega
  | finite s m e hm =>
    obtain ⟨-, he, hm', -⟩ := hc
    have := magnitude_lt_infinityUnits he hm'
    cases s <;> dsimp only [unpackedUnits, UnpackedFloat.Sign.apply] <;> omega

theorem units_infinity : infinity.units = infinityUnits := by decide

theorem units_negInfinity : negInfinity.units = -infinityUnits := by decide

end Scalar

end BoxTree
