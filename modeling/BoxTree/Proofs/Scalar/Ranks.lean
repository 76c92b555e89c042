import BoxTree.Proofs.Scalar.Units
import Mathlib
/-!
# Ranks

The rank orders the bits of scalars, and comparisons look at their units. On numbers the two agree:
**a number of higher rank has no fewer units** (`units_le_of_rank_le`). Only the zeros have two
ranks and the same units. What is not a number stands outside: before all numbers or behind them, as
the sign of its encoding says (`rank_outside`).
-/

namespace BoxTree

open Float.Model (Format UnpackedFloat)
open Float.Model.UnpackedFloat (Sign unpack unpackSign unpackMantissa unpackExponent unpackSign_def
  unpackMantissa_def unpackExponent_def)

namespace Scalar

/-- The units of a nonnegative scalar with the given bits. -/
def height (b : Nat) : Nat :=
  magnitude (if b < 2 ^ 23 then b else 2 ^ 23 + b % 2 ^ 23) ((max (b / 2 ^ 23) 1 : Nat) - 150)

/-- **Greater bits are greater units.** -/
theorem height_lt {b c : Nat} (h : b < c) : height b < height c := by
  unfold height
  apply magnitude_lt
  · omega
  · split <;> omega
  · split <;> omega
  · split <;> split <;> omega

theorem height_mono {b c : Nat} (h : b ≤ c) : height b ≤ height c := by
  rcases Nat.lt_or_eq_of_le h with h | rfl
  · exact Nat.le_of_lt (height_lt h)
  · exact Nat.le_refl _

/-! The fields of a scalar are windows of its bits. -/

theorem toNat_unpackMantissa (b : BitVec 32) :
    (@unpackMantissa Format.binary32 b).toNat = b.toNat % 2 ^ 23 := by
  rw [unpackMantissa_def, BitVec.extractLsb'_toNat, Nat.shiftRight_zero]

theorem toNat_unpackExponent (b : BitVec 32) :
    (@unpackExponent Format.binary32 b).toNat = b.toNat / 2 ^ 23 % 2 ^ 8 := by
  rw [unpackExponent_def, BitVec.extractLsb'_toNat, Nat.shiftRight_eq_div_pow]

theorem toNat_unpackSign (b : BitVec 32) :
    (@unpackSign Format.binary32 b).toNat = b.toNat / 2 ^ 31 % 2 := by
  rw [unpackSign_def, BitVec.extractLsb'_toNat, Nat.shiftRight_eq_div_pow]
  rfl

theorem ofBitVec_unpackSign (b : BitVec 32) :
    Sign.ofBitVec (@unpackSign Format.binary32 b) =
      if b.toNat < 2 ^ 31 then .positive else .negative := by
  have hb := b.isLt
  have hs := toNat_unpackSign b
  unfold Sign.ofBitVec
  split
  · rename_i h
    rw [h] at hs
    change 0 = _ at hs
    rw [if_pos (by omega)]
  · rename_i h
    have hne : (@unpackSign Format.binary32 b).toNat ≠ 0 := fun h0 => h (BitVec.eq_of_toNat_eq h0)
    rw [if_neg (by omega)]

/-- **The units of a number are the height of its bits**, with its sign. -/
theorem unpackedUnits_unpack {b : BitVec 32}
    (h : unpack Format.binary32 b ≠ .notANumber) :
    unpackedUnits (unpack Format.binary32 b) =
      (if b.toNat < 2 ^ 31 then Sign.positive else .negative).apply
        (height (b.toNat % 2 ^ 31)) := by
  have hb := b.isLt
  rcases unpack_cases b (ofBitVec_unpackSign b) (toNat_unpackExponent b) (toNat_unpackMantissa b)
    with ⟨heq, -, -⟩ | ⟨heq, hexp, hmant⟩ | ⟨heq, hexp, hmant⟩ | ⟨k, x, hk, heq, hcases⟩
  · exact absurd heq h
  · have hval : b.toNat % 2 ^ 31 = 255 * 2 ^ 23 := by omega
    rw [heq, hval]
    rfl
  · have hval : b.toNat % 2 ^ 31 = 0 := by omega
    rw [heq, hval]
    split <;> rfl
  · rw [heq, unpackedUnits, height]
    congr 3
    · split <;> omega
    · omega

variable {a b : Scalar} {nan nan' : NaN}

/-- How a value is encoded that is not a number tells nothing about a number. -/
theorem rank_of_isNaN_eq_false (h : a.isNaN = false) (nan : NaN) : a.rank nan =
    if a.toBits.toNat < 2 ^ 31 then 2 ^ 31 + a.toBits.toNat else 2 ^ 32 - 1 - a.toBits.toNat := by
  rw [rank, h]
  rfl

theorem rank_of_isNaN (h : a.isNaN = true) (nan : NaN) : a.rank nan =
    if nan.bits.toNat < 2 ^ 31 then 2 ^ 31 + nan.bits.toNat else 2 ^ 32 - 1 - nan.bits.toNat := by
  rw [rank, h]
  rfl

/-- **A number of higher rank has no fewer units.** -/
theorem units_le_of_rank_le (ha : a.isNaN = false) (hb : b.isNaN = false)
    (h : a.rank nan ≤ b.rank nan') : a.units ≤ b.units := by
  have hau : a.units = (if a.toBits.toNat < 2 ^ 31 then Sign.positive else .negative).apply
      (height (a.toBits.toNat % 2 ^ 31)) := unpackedUnits_unpack (unpack_ne_of_isNaN ha)
  have hbu : b.units = (if b.toBits.toNat < 2 ^ 31 then Sign.positive else .negative).apply
      (height (b.toBits.toNat % 2 ^ 31)) := unpackedUnits_unpack (unpack_ne_of_isNaN hb)
  have hal : a.toBits.toNat < 2 ^ 32 := a.toBits.toBitVec.isLt
  have hbl : b.toBits.toNat < 2 ^ 32 := b.toBits.toBitVec.isLt
  rw [rank_of_isNaN_eq_false ha, rank_of_isNaN_eq_false hb] at h
  rw [hau, hbu]
  clear hau hbu ha hb
  generalize a.toBits.toNat = m at *
  generalize b.toBits.toNat = k at *
  by_cases hm : m < 2 ^ 31
  · have hk : k < 2 ^ 31 := by
      by_contra hk
      rw [if_pos hm, if_neg hk] at h
      omega
    rw [if_pos hm, if_pos hk] at h ⊢
    exact Int.ofNat_le.2 (height_mono (by omega))
  · rw [if_neg hm] at h ⊢
    by_cases hk : k < 2 ^ 31
    · rw [if_pos hk]
      change -((height _ : Nat) : Int) ≤ ((height _ : Nat) : Int)
      omega
    · rw [if_neg hk] at h ⊢
      exact Int.neg_le_neg (Int.ofNat_le.2 (height_mono (by omega)))

/-! ## Encodings of what is not a number -/

/-- The bits of a number without its sign are at most those of infinity. -/
theorem toBits_mod_le (h : a.isNaN = false) : a.toBits.toNat % 2 ^ 31 ≤ 0x7F800000 := by
  have hb := a.toBits.toBitVec.isLt
  rcases unpack_cases a.toBits.toBitVec (ofBitVec_unpackSign _) (toNat_unpackExponent _)
    (toNat_unpackMantissa _) with ⟨heq, -, -⟩ | ⟨heq, hexp, hmant⟩ | ⟨heq, hexp, hmant⟩ |
      ⟨k, x, hk, heq, hcases⟩
  · exact absurd heq (unpack_ne_of_isNaN h)
  all_goals
    change a.toBits.toBitVec.toNat % 2 ^ 31 ≤ _
    omega

/-- Those of what is not a number are greater. -/
theorem NaN.lt_bits_mod (nan : NaN) : 0x7F800000 < nan.bits.toNat % 2 ^ 31 := by
  have h := UInt32.lt_iff_toNat_lt.1 nan.undefined
  rw [UInt32.toNat_and] at h
  exact (Nat.and_two_pow_sub_one_eq_mod nan.bits.toNat 31) ▸ h

/-- **What is not a number comes before all numbers** when its sign is set, and behind all of them
when it is not. -/
theorem rank_outside (ha : a.isNaN = true) (hb : b.isNaN = false) :
    (2 ^ 31 ≤ nan.bits.toNat → a.rank nan < b.rank nan') ∧
      (nan.bits.toNat < 2 ^ 31 → b.rank nan' < a.rank nan) := by
  have hnan := nan.lt_bits_mod
  have hnumber := toBits_mod_le hb
  have hbits : nan.bits.toNat < 2 ^ 32 := nan.bits.toBitVec.isLt
  have hbl : b.toBits.toNat < 2 ^ 32 := b.toBits.toBitVec.isLt
  rw [rank_of_isNaN ha, rank_of_isNaN_eq_false hb]
  generalize b.toBits.toNat = m at *
  generalize nan.bits.toNat = k at *
  refine ⟨fun hset => ?_, fun hclear => ?_⟩
  · rw [if_neg (by omega)]
    split <;> omega
  · rw [if_pos hclear]
    split <;> omega

end Scalar

end BoxTree
