import BoxTree.Proofs.Scalar.Units
import Mathlib
/-!
# Signs

A cost is made of counts, of areas that were cut off at zero, and of their sums and products. Such
scalars run from positive zero to infinity (`Nonneg`), and none of them is undefined, so that they
are ordered totally by their units and equal where these are. The centroids of finite boxes may
overflow but are numbers as well.
-/

namespace BoxTree

open Float.Model (Format UnpackedFloat totalExponent)
open Float.Model.UnpackedFloat

namespace Scalar

/-! ## Signs -/

/-- The sign of an unpacked scalar, none where it is not a number. -/
def signOf : UnpackedFloat → Option Sign
  | .notANumber => none
  | .infinity s => some s
  | .zero s => some s
  | .finite s _ _ _ => some s

/-- The sign of packed fields that are no mantissa of what is not a number. -/
theorem signOf_unpack_packComponents {s : Sign} {e : BitVec 8} {m : BitVec 23}
    (h : e = -1#8 → m = 0#23) :
    signOf (unpack Format.binary32 (packComponents Format.binary32 s e m)) = some s := by
  have hsign : Sign.ofBitVec (unpackSign (packComponents Format.binary32 s e m)) = s := by
    rw [unpackSign_packComponents, Sign.ofBitVec_toBitVec]
  have hexp : (unpackExponent (packComponents Format.binary32 s e m)).toNat = e.toNat := by
    rw [unpackExponent_packComponents]
  have hmant : (unpackMantissa (packComponents Format.binary32 s e m)).toNat = m.toNat := by
    rw [unpackMantissa_packComponents]
  rcases unpack_cases _ hsign hexp hmant
    with ⟨-, hfull, hne⟩ | ⟨heq, -, -⟩ | ⟨heq, -, -⟩ | ⟨k, x, hk, heq, -⟩
  · exact absurd (congrArg BitVec.toNat (h (BitVec.eq_of_toNat_eq hfull))) hne
  · rw [heq]; rfl
  · rw [heq]; rfl
  · rw [heq]; rfl

/-- **Packing keeps the sign**, and makes nothing undefined. -/
theorem signOf_unpack_pack (u : UnpackedFloat) :
    signOf (unpack Format.binary32 (pack Format.binary32 u)) = signOf u := by
  cases u with
  | notANumber => rw [pack, unpack_packedNaN]
  | infinity s => exact signOf_unpack_packComponents fun _ => rfl
  | zero s => rw [pack, unpack_packedZero]
  | finite s m e hm =>
    rw [pack]
    split
    · exact signOf_unpack_packComponents fun _ => rfl
    · rename_i hexp
      split
      · refine signOf_unpack_packComponents fun hfull => absurd (congrArg BitVec.toNat hfull) ?_
        change ¬ _ % 2 ^ 8 = 255
        change ¬ 2 ^ 8 ≤ _ at hexp
        omega
      · exact signOf_unpack_packComponents nofun

variable {a b c d : Scalar}

theorem isNaN_iff_signOf : a.isNaN = false ↔ signOf a.toModel.unpack ≠ none := by
  change a.toModel.unpack.isNaN = false ↔ _
  cases a.toModel.unpack <;> simp [UnpackedFloat.isNaN, signOf]

theorem signOf_add (a b : Scalar) : signOf (a + b).toModel.unpack =
    signOf (UnpackedFloat.add Format.binary32 a.toModel.unpack b.toModel.unpack) :=
  signOf_unpack_pack _

theorem signOf_mul (a b : Scalar) : signOf (a * b).toModel.unpack =
    signOf (UnpackedFloat.mul Format.binary32 a.toModel.unpack b.toModel.unpack) :=
  signOf_unpack_pack _

theorem signOf_roundWithAccuracy (s : Sign) (m : Nat) (e : Int) (c : Accuracy) :
    signOf (roundWithAccuracy Format.binary32 s m e c) = some s := by
  simp only [roundWithAccuracy]
  split <;> rfl

theorem signOf_round (s : Sign) (m : Nat) (e : Int) :
    signOf (UnpackedFloat.round Format.binary32 s m e) = some s :=
  signOf_roundWithAccuracy _ _ _ _

theorem signOf_normalize_ne_none (m e : Int) (s : Sign) :
    signOf (normalize Format.binary32 m e s) ≠ none := by
  rw [UnpackedFloat.normalize]
  split
  · rw [signOf_round]
    nofun
  · nofun
  · rw [signOf_round]
    nofun

/-! ## Scalars from zero up -/

/-- A scalar from positive zero to infinity. -/
def Nonneg (a : Scalar) : Prop := signOf a.toModel.unpack = some .positive

/-- A finite scalar above zero. -/
def Positive (a : Scalar) : Prop := ∃ m e h, a.toModel.unpack = .finite .positive m e h

theorem unpacked_cases {u : UnpackedFloat} (h : signOf u = some .positive) :
    u = .infinity .positive ∨ u = .zero .positive ∨ ∃ m e hm, u = .finite .positive m e hm := by
  cases u with
  | notANumber => cases h
  | infinity s =>
    cases Option.some.inj h
    exact .inl rfl
  | zero s =>
    cases Option.some.inj h
    exact .inr (.inl rfl)
  | finite s m e hm =>
    cases Option.some.inj h
    exact .inr (.inr ⟨m, e, hm, rfl⟩)

theorem Nonneg.isNaN (h : a.Nonneg) : a.isNaN = false := by
  rw [isNaN_iff_signOf, h]
  nofun

/-- **Scalars from zero up with the same units are the same.** -/
theorem Nonneg.eq_of_units (ha : a.Nonneg) (hb : b.Nonneg) (h : a.units = b.units) : a = b := by
  have hzero : ¬ (-0 : Scalar).Nonneg := nofun
  obtain ⟨-, -, h | ⟨-, rfl⟩ | ⟨rfl, -⟩⟩ :=
    Float32.beq_iff_ne_nan_and_eq.1 ((beq_iff_units ha.isNaN hb.isNaN).2 h)
  · exact h
  · exact absurd hb hzero
  · exact absurd ha hzero

theorem Nonneg.lt_infinity (ha : a.Nonneg) (h : a.isInf = false) : a < infinity := by
  change a.toModel.unpack.isInf = false at h
  change decide ((a.toModel.unpack.compare (.infinity .positive) == some .lt) = true) = true
  rcases unpacked_cases ha with hu | hu | ⟨m, e, hm, hu⟩ <;> rw [hu] at h ⊢
  · cases h
  · rfl
  · rfl

theorem nonneg_of_pos (h : 0 < a) : a.Nonneg := by
  change decide ((UnpackedFloat.compare (.zero .positive) a.toModel.unpack == some .lt) = true) =
    true at h
  unfold Nonneg
  generalize a.toModel.unpack = u at *
  cases u with
  | notANumber => cases h
  | zero s => cases h
  | infinity s =>
    cases s with
    | negative => cases h
    | positive => rfl
  | finite s m e hm =>
    cases s with
    | negative => cases h
    | positive => rfl

theorem positive_of_pos (hpos : 0 < a) (ha : a.isFinite = true) : a.Positive := by
  rcases unpacked_cases (nonneg_of_pos hpos) with hu | hu | hu
  · change a.toModel.unpack.isFinite = true at ha
    rw [hu] at ha
    cases ha
  · change decide ((UnpackedFloat.compare (.zero .positive) a.toModel.unpack == some .lt) = true) =
      true at hpos
    rw [hu] at hpos
    cases hpos
  · exact hu

theorem nonneg_cutAtZero (a : Scalar) : (cutAtZero a).Nonneg := by
  rw [cutAtZero]
  split
  · rename_i h
    exact nonneg_of_pos h
  · rfl

/-- **Sums of scalars from zero up** are such scalars. -/
theorem Nonneg.add (ha : a.Nonneg) (hb : b.Nonneg) : (a + b).Nonneg := by
  rw [Nonneg, signOf_add]
  rcases unpacked_cases ha with hu | hu | ⟨m, e, hm, hu⟩ <;>
    rcases unpacked_cases hb with hv | hv | ⟨k, f, hk, hv⟩ <;> rw [hu, hv]
  all_goals try rfl
  have hpos : 0 < m * 2 ^ (e - min e f).toNat := Nat.mul_pos hm (Nat.two_pow_pos _)
  simp only [UnpackedFloat.add, decreaseExponent, UnpackedFloat.normalize, Sign.apply,
    Nat.shiftLeft_eq]
  rw [compare_gt_iff_gt.2 (by omega)]
  exact signOf_round _ _ _

/-- **Products with a positive scalar** keep from falling below zero. -/
theorem Positive.mul (ha : a.Positive) (hb : b.Nonneg) : (a * b).Nonneg := by
  obtain ⟨m, e, hm, hu⟩ := ha
  rw [Nonneg, signOf_mul]
  rcases unpacked_cases hb with hv | hv | ⟨k, f, hk, hv⟩ <;> rw [hu, hv]
  · rfl
  · rfl
  · exact signOf_roundWithAccuracy _ _ _ _

theorem Nonneg.mul_positive (ha : a.Nonneg) (hb : b.Positive) : (a * b).Nonneg := by
  obtain ⟨k, f, hk, hv⟩ := hb
  rw [Nonneg, signOf_mul]
  rcases unpacked_cases ha with hu | hu | ⟨m, e, hm, hu⟩ <;> rw [hu, hv]
  · rfl
  · rfl
  · exact signOf_roundWithAccuracy _ _ _ _

theorem Positive.nonneg (ha : a.Positive) : a.Nonneg := by
  obtain ⟨m, e, hm, hu⟩ := ha
  rw [Nonneg, hu]
  rfl

/-- **Quotients by a positive scalar** keep from falling below zero. -/
theorem Nonneg.div_positive (ha : a.Nonneg) (hb : b.Positive) : (a / b).Nonneg := by
  obtain ⟨k, f, hk, hv⟩ := hb
  have hsign : signOf (a / b).toModel.unpack =
      signOf (UnpackedFloat.div Format.binary32 a.toModel.unpack b.toModel.unpack) :=
    signOf_unpack_pack _
  rw [Nonneg, hsign]
  rcases unpacked_cases ha with hu | hu | ⟨m, e, hm, hu⟩ <;> rw [hu, hv]
  · rfl
  · rfl
  · exact signOf_roundWithAccuracy _ _ _ _

/-! ## Sums and products of finite scalars -/

theorem isNaN_of_isFinite (h : a.isFinite = true) : a.isNaN = false := by
  change a.toModel.unpack.isFinite = true at h
  change a.toModel.unpack.isNaN = false
  cases hu : a.toModel.unpack with
  | notANumber =>
    rw [hu] at h
    cases h
  | infinity s => rfl
  | zero s => rfl
  | finite s m e hm => rfl

/-- What is finite is a zero or has a mantissa. -/
theorem finite_cases {u : UnpackedFloat} (h : u.isFinite = true) :
    (∃ s, u = .zero s) ∨ ∃ s m e hm, u = .finite s m e hm := by
  cases u with
  | notANumber => cases h
  | infinity s => cases h
  | zero s => exact .inl ⟨s, rfl⟩
  | finite s m e hm => exact .inr ⟨s, m, e, hm, rfl⟩

theorem signOf_add_ne_none {u v : UnpackedFloat} (hu : u.isFinite = true)
    (hv : v.isFinite = true) : signOf (UnpackedFloat.add Format.binary32 u v) ≠ none := by
  rcases finite_cases hu with ⟨s, rfl⟩ | ⟨s, m, e, hm, rfl⟩ <;>
    rcases finite_cases hv with ⟨t, rfl⟩ | ⟨t, k, f, hk, rfl⟩
  · cases s <;> cases t <;> exact Option.some_ne_none _
  · exact Option.some_ne_none _
  · exact Option.some_ne_none _
  · exact signOf_normalize_ne_none _ _ _

/-- The sum of finite scalars is a number. -/
theorem isNaN_add (ha : a.isFinite = true) (hb : b.isFinite = true) : (a + b).isNaN = false := by
  rw [isNaN_iff_signOf, signOf_add]
  exact signOf_add_ne_none ha hb

/-- A number times a positive scalar is a number. -/
theorem isNaN_mul (ha : a.isNaN = false) (hb : b.Positive) : (a * b).isNaN = false := by
  obtain ⟨k, f, hk, hb⟩ := hb
  rw [isNaN_iff_signOf] at ha
  rw [isNaN_iff_signOf, signOf_mul, hb]
  generalize a.toModel.unpack = u at *
  cases u with
  | notANumber => exact absurd rfl ha
  | infinity s => nofun
  | zero s => nofun
  | finite s m e hm =>
    rw [UnpackedFloat.mul, signOf_roundWithAccuracy]
    nofun

/-! ## Counts -/

theorem mantissa_shiftRight (em : ExtendedMantissa) (k : Nat) :
    (em >>> k).mantissa = em.mantissa / 2 ^ k := by
  induction k with
  | zero => exact (Nat.div_one _).symm
  | succ k ih =>
    change (em >>> k).mantissa / 2 = _
    rw [ih, Nat.div_div_eq_div_mul, Nat.pow_succ]

theorem roundedMantissa_bounds (em : ExtendedMantissa) :
    em.mantissa ≤ em.roundedMantissa ∧ em.roundedMantissa ≤ em.mantissa + 1 := by
  obtain ⟨m, r, s⟩ := em
  cases r <;> cases s <;>
    simp only [ExtendedMantissa.roundedMantissa, ExtendedMantissa.accuracy,
      Accuracy.roundToNearestEven] <;> omega

/-- A mantissa of 24 bits or more is cut to its first 24. -/
def leading (m : Nat) : Nat := m / 2 ^ (m.log2 - 23)

theorem leading_bounds {m : Nat} (h : 23 ≤ m.log2) : 2 ^ 23 ≤ leading m ∧ leading m < 2 ^ 24 := by
  have hne : m ≠ 0 := by
    rintro rfl
    exact absurd h (by decide)
  have hle := Nat.log2_self_le hne
  have hlt := Nat.lt_log2_self (n := m)
  have hlog : m.log2 = 23 + (m.log2 - 23) := by omega
  have hlog' : m.log2 + 1 = 24 + (m.log2 - 23) := by omega
  rw [hlog, Nat.pow_add] at hle
  rw [hlog', Nat.pow_add] at hlt
  exact ⟨(Nat.le_div_iff_mul_le (Nat.two_pow_pos _)).2 hle,
    (Nat.div_lt_iff_lt_mul (Nat.two_pow_pos _)).2 hlt⟩

theorem log2_leading {m : Nat} (h : 23 ≤ m.log2) : (leading m).log2 = 23 := by
  obtain ⟨hle, hlt⟩ := leading_bounds h
  exact (Nat.log2_eq_iff (by omega)).2 ⟨hle, hlt⟩

theorem shiftToTargetExponent_eq {m : Nat} {e : Int} (hm : 23 ≤ m.log2) (he : -149 ≤ e) :
    (shiftToTargetExponent Format.binary32 m e .exact).1.mantissa = leading m ∧
      (shiftToTargetExponent Format.binary32 m e .exact).2 = e + (m.log2 - 23 : Nat) := by
  have htarget : (Format.binary32.targetExponent (totalExponent m e) - e).toNat =
      m.log2 - 23 := by
    have hbits : ((Format.binary32.mantissaBits : Nat) : Int) = 24 := rfl
    have hmin : Format.binary32.minExponent = -149 := rfl
    simp only [Format.targetExponent, totalExponent, hbits, hmin]
    omega
  unfold shiftToTargetExponent shiftToExponent
  dsimp only
  rw [htarget]
  exact ⟨mantissa_shiftRight _ _, rfl⟩

/-- **Rounding a mantissa of 24 bits or more** leaves one of 24. -/
theorem roundWithAccuracy_full {m : Nat} {e : Int} (s : Sign) (hm : 23 ≤ m.log2) (he : -149 ≤ e) :
    ∃ k f h, roundWithAccuracy Format.binary32 s m e .exact = .finite s k f h ∧ k.log2 = 23 ∧
      e ≤ f ∧ f ≤ e + (m.log2 - 22 : Nat) := by
  obtain ⟨hm₁, he₁⟩ := shiftToTargetExponent_eq hm he
  unfold roundWithAccuracy
  dsimp only
  generalize shiftToTargetExponent Format.binary32 m e .exact = first at hm₁ he₁
  obtain ⟨em, e₁⟩ := first
  obtain ⟨hle, hlt⟩ := leading_bounds hm
  dsimp only at hm₁ he₁ ⊢
  -- rounding up may carry into one bit more, which is shifted out again
  have hbounds := roundedMantissa_bounds em
  rw [hm₁] at hbounds
  generalize em.roundedMantissa = r at hbounds
  have hr : r ≠ 0 := by omega
  have hlow : 23 ≤ r.log2 := (Nat.le_log2 hr).2 (by omega)
  have hhigh : r.log2 < 25 := (Nat.log2_lt hr).2 (by omega)
  obtain ⟨hm₂, he₂⟩ := shiftToTargetExponent_eq (e := e₁) hlow (by omega)
  have hne : leading r ≠ 0 := by
    have := leading_bounds hlow
    omega
  rw [← hm₂] at hne
  rw [dif_neg hne]
  refine ⟨_, _, _, rfl, ?_, ?_, ?_⟩
  · rw [hm₂, log2_leading hlow]
  · omega
  · omega

/-- A scalar with a full mantissa is packed as a normal one. -/
theorem positive_of_full {k : Nat} {f : Int} {h : 0 < k} (hk : k.log2 = 23) (hf : -149 ≤ f)
    (hf' : f ≤ 104) : Positive (Float32.ofModel (.pack (.finite .positive k f h))) := by
  have hbias : ((Format.binary32.exponentBias : Nat) : Int) = 127 := rfl
  have hbits : ((Format.binary32.mantissaBitsWithoutImplicit : Nat) : Int) = 23 := rfl
  have hfull : k.log2 + 1 = Format.binary32.mantissaBits := congrArg (· + 1) hk
  obtain ⟨x, hx⟩ : ∃ x : Nat, (f + 127 + 23).toNat = x ∧ 0 < x ∧ x < 255 :=
    ⟨_, rfl, by omega, by omega⟩
  have hexp : ∀ y < 256, x ≠ y → BitVec.ofNat 8 x ≠ BitVec.ofNat 8 y := by
    intro y hy hne heq
    have := congrArg BitVec.toNat heq
    rw [BitVec.toNat_ofNat, BitVec.toNat_ofNat] at this
    omega
  change ∃ m e h, UnpackedFloat.unpack Format.binary32 (UnpackedFloat.pack Format.binary32 _) = _
  rw [UnpackedFloat.pack, hbias, hbits, hx.1]
  dsimp only
  rw [if_neg (by change ¬ 256 ≤ x + 1; omega), if_pos hfull]
  delta UnpackedFloat.unpack
  dsimp only
  have hmax : BitVec.ofNat 8 x ≠ -1#8 := hexp 255 (by decide) (by omega)
  have hzero : BitVec.ofNat 8 x ≠ 0#8 := hexp 0 (by decide) (by omega)
  rw [unpackExponent_packComponents, if_neg hmax, if_neg hzero, unpackSign_packComponents,
    Sign.ofBitVec_toBitVec]
  exact ⟨_, _, _, rfl⟩

/-- **Counts are positive.** -/
theorem positive_ofCount {n : Nat} (hpos : 0 < n) (hn : n < 2 ^ 64) : (ofCount n).Positive := by
  have hnat : n.toUInt64.toNat = n := UInt64.toNat_ofNat_of_lt' hn
  have htarget : Format.binary32.targetExponent (totalExponent n 0) = n.log2 - 23 := by
    have hbits : ((Format.binary32.mantissaBits : Nat) : Int) = 24 := rfl
    have hmin : Format.binary32.minExponent = -149 := rfl
    simp only [Format.targetExponent, totalExponent, hbits, hmin]
    omega
  have hshift : (0 - ((n.log2 : Int) - 23)).toNat = 23 - n.log2 := by omega
  -- a small count is brought to 24 bits first
  have hlow : 2 ^ 23 ≤ n * 2 ^ (23 - n.log2) := by
    calc 2 ^ 23 ≤ 2 ^ (n.log2 + (23 - n.log2)) := Nat.pow_le_pow_right (by decide) (by omega)
      _ = 2 ^ n.log2 * 2 ^ (23 - n.log2) := Nat.pow_add _ _ _
      _ ≤ n * 2 ^ (23 - n.log2) :=
        Nat.mul_le_mul_right _ (Nat.log2_self_le (by omega))
  have hhigh : n * 2 ^ (23 - n.log2) < 2 ^ 87 := by
    calc n * 2 ^ (23 - n.log2) ≤ n * 2 ^ 23 :=
          Nat.mul_le_mul_left _ (Nat.pow_le_pow_right (by decide) (by omega))
      _ < 2 ^ 87 := by omega
  have hne : n * 2 ^ (23 - n.log2) ≠ 0 := by omega
  have hlog : 23 ≤ (n * 2 ^ (23 - n.log2)).log2 := (Nat.le_log2 hne).2 hlow
  have hlog' : (n * 2 ^ (23 - n.log2)).log2 < 87 := (Nat.log2_lt hne).2 hhigh
  obtain ⟨k, f, hk, hround, hfull, hf, hf'⟩ := roundWithAccuracy_full
    (e := 0 - (23 - n.log2 : Nat)) .positive hlog (by omega)
  have hcount : ofCount n = Float32.ofModel (.pack (.finite .positive k f hk)) := by
    change Float32.ofModel (.pack (UnpackedFloat.normalize Format.binary32
      (n.toUInt64.toNat : Int) 0 .positive)) = _
    rw [hnat, UnpackedFloat.normalize, compare_gt_iff_gt.2 (by omega)]
    unfold UnpackedFloat.round decreaseExponent
    dsimp only
    rw [Int.toNat_natCast, htarget, hshift, Nat.shiftLeft_eq, hround]
  rw [hcount]
  exact positive_of_full hfull (by omega) (by omega)

end Scalar

end BoxTree
