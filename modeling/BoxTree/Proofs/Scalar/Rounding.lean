import BoxTree.Proofs.Scalar.Signs
/-!
# Rounding

Sums, differences and products are the exact ones rounded to the nearest scalar, ties to even. In
units this is a function of whole numbers (`fit`): the exact result, counted in parts of a unit, is
cut to its first 24 bits, or at the least unit. **Rounding keeps the order** (`fit_mono`) and leaves
scalars as they are (`fit_units`), and with it differences, products and the counts they are cut to
keep the order as well.
-/

namespace BoxTree

open Float.Model (Format UnpackedFloat totalExponent)
open Float.Model.UnpackedFloat

namespace Scalar

/-! ## Cutting a mantissa short -/

/-- An extended mantissa in quarters of its last place: the bit behind it counts two of them, and
one more stands for anything further behind. -/
def quarters (em : ExtendedMantissa) : Nat :=
  4 * em.mantissa + 2 * em.roundBit.toNat + em.stickyBit.toNat

variable {em em' : ExtendedMantissa} {k j m n q : Nat}

theorem quarters_shiftRightOne (em : ExtendedMantissa) :
    quarters em.shiftRightOne =
      2 * (quarters em / 4) + (if quarters em % 4 = 0 then 0 else 1) := by
  obtain ⟨m, r, s⟩ := em
  have hbit : (m % 2 != 0).toNat = m % 2 := by
    rcases Nat.mod_two_eq_zero_or_one m with h | h <;> rw [h] <;> rfl
  cases r <;> cases s <;>
    simp only [quarters, ExtendedMantissa.shiftRightOne, hbit, Bool.toNat_true, Bool.toNat_false,
      Bool.or_true, Bool.or_false] <;> grind

theorem quarters_shiftRight_mono (h : quarters em ≤ quarters em') (k : Nat) :
    quarters (em >>> k) ≤ quarters (em' >>> k) := by
  induction k with
  | zero => exact h
  | succ k ih =>
    change quarters (em >>> k).shiftRightOne ≤ quarters (em' >>> k).shiftRightOne
    rw [quarters_shiftRightOne, quarters_shiftRightOne]
    split <;> split <;> omega

/-- Rounding goes by the quarters. -/
theorem roundedMantissa_eq (em : ExtendedMantissa) :
    em.roundedMantissa = quarters em / 4 +
      (if quarters em % 4 = 3 then 1 else if quarters em % 4 = 2 then quarters em / 4 % 2 else 0) := by
  obtain ⟨m, r, s⟩ := em
  cases r <;> cases s <;>
    simp only [quarters, ExtendedMantissa.roundedMantissa, ExtendedMantissa.accuracy,
      Accuracy.roundToNearestEven, Bool.toNat_true, Bool.toNat_false] <;> grind

theorem roundedMantissa_mono (h : quarters em ≤ quarters em') :
    em.roundedMantissa ≤ em'.roundedMantissa := by
  rw [roundedMantissa_eq, roundedMantissa_eq]
  generalize quarters em = x at *
  generalize quarters em' = y at *
  rcases Nat.lt_or_ge (x / 4) (y / 4) with hlt | hge
  · split <;> split <;> grind
  · have heq : x / 4 = y / 4 := by omega
    rw [heq]
    split <;> split <;> grind

/-- A mantissa without its last bits, rounded to the nearest, ties to even. -/
def nearest (k m : Nat) : Nat :=
  (ExtendedMantissa.ofMantissaAndAccuracy m .exact >>> k).roundedMantissa

theorem nearest_mono (h : m ≤ n) (k : Nat) : nearest k m ≤ nearest k n := by
  refine roundedMantissa_mono (quarters_shiftRight_mono ?_ k)
  simp only [quarters, ExtendedMantissa.ofMantissaAndAccuracy]
  omega

theorem nearest_bounds (k m : Nat) : m / 2 ^ k ≤ nearest k m ∧ nearest k m ≤ m / 2 ^ k + 1 := by
  have hbounds := roundedMantissa_bounds (ExtendedMantissa.ofMantissaAndAccuracy m .exact >>> k)
  rwa [mantissa_shiftRight] at hbounds

theorem shiftRight_add (em : ExtendedMantissa) (k j : Nat) : em >>> (k + j) = (em >>> j) >>> k := by
  induction k with
  | zero => rw [Nat.zero_add]; rfl
  | succ k ih =>
    rw [Nat.add_right_comm]
    exact congrArg ExtendedMantissa.shiftRightOne ih

/-- Bits that are zero are shifted out without a trace. -/
theorem shiftRight_exact (j m : Nat) :
    ExtendedMantissa.mk (m * 2 ^ j) false false >>> j = ExtendedMantissa.mk m false false := by
  induction j generalizing m with
  | zero => exact congrArg (ExtendedMantissa.mk · false false) (Nat.mul_one m)
  | succ j ih =>
    change (ExtendedMantissa.mk (m * 2 ^ (j + 1)) false false >>> j).shiftRightOne = _
    have hmul : m * 2 ^ (j + 1) = m * 2 * 2 ^ j := by rw [Nat.pow_succ, Nat.mul_assoc, Nat.mul_comm 2]
    rw [hmul, ih, ExtendedMantissa.shiftRightOne, Nat.mul_div_cancel _ Nat.two_pos, Nat.mul_mod_left]
    rfl

/-- Bits that are zero may be put behind a mantissa. -/
theorem nearest_mul_two_pow (k j m : Nat) : nearest (k + j) (m * 2 ^ j) = nearest k m := by
  change (ExtendedMantissa.mk (m * 2 ^ j) false false >>> (k + j)).roundedMantissa = _
  rw [shiftRight_add, shiftRight_exact]
  rfl

theorem nearest_exact (j m : Nat) : nearest j (m * 2 ^ j) = m := by
  have hnearest := nearest_mul_two_pow 0 j m
  rwa [Nat.zero_add] at hnearest

theorem nearest_zero (k : Nat) : nearest k 0 = 0 := by
  have hnearest := nearest_exact k 0
  rwa [Nat.zero_mul] at hnearest

/-! ## Rounding whole numbers -/

theorem log2_mono (h : m ≤ n) : m.log2 ≤ n.log2 := by
  rw [Nat.log2_eq_log_two, Nat.log2_eq_log_two]
  exact Nat.log_mono_right h

theorem log2_mul_two_pow (hm : m ≠ 0) (j : Nat) : (m * 2 ^ j).log2 = m.log2 + j := by
  have hne : m * 2 ^ j ≠ 0 := Nat.mul_ne_zero hm (Nat.two_pow_pos j).ne'
  rw [Nat.log2_eq_iff hne, Nat.add_right_comm, Nat.pow_add, Nat.pow_add 2 (m.log2 + 1)]
  exact ⟨Nat.mul_le_mul_right _ (Nat.log2_self_le hm),
    Nat.mul_lt_mul_of_pos_right Nat.lt_log2_self (Nat.two_pow_pos j)⟩

/-- How many bits are cut off a number of which `q` bits lie below the least unit. -/
def cut (q n : Nat) : Nat := max q (n.log2 - 23)

/-- A number of which `q` bits lie below the least unit, rounded to units. -/
def rounded (q n : Nat) : Nat := nearest (cut q n) n * 2 ^ (cut q n - q)

theorem div_two_pow_cut_lt (q n : Nat) : n / 2 ^ cut q n < 2 ^ 24 := by
  rw [Nat.div_lt_iff_lt_mul (Nat.two_pow_pos _), ← Nat.pow_add]
  calc n < 2 ^ (n.log2 + 1) := Nat.lt_log2_self
    _ ≤ 2 ^ (24 + cut q n) := Nat.pow_le_pow_right Nat.two_pos (by unfold cut; omega)

/-- **Rounding keeps the order.** -/
theorem rounded_mono (h : m ≤ n) (q : Nat) : rounded q m ≤ rounded q n := by
  have hlog := log2_mono h
  have hcut : cut q m ≤ cut q n := by unfold cut; omega
  rcases Nat.lt_or_eq_of_le hcut with hlt | heq
  · -- the greater number has more bits than the lesser can be rounded up to
    have hn : n ≠ 0 := by
      rintro rfl
      rw [cut, cut, Nat.log2_zero] at hlt
      omega
    have hfull : 2 ^ 23 ≤ n / 2 ^ cut q n := by
      rw [Nat.le_div_iff_mul_le (Nat.two_pow_pos _), ← Nat.pow_add]
      refine le_trans (Nat.pow_le_pow_right Nat.two_pos ?_) (Nat.log2_self_le hn)
      unfold cut at hlt ⊢
      omega
    calc nearest (cut q m) m * 2 ^ (cut q m - q)
        ≤ 2 ^ 24 * 2 ^ (cut q m - q) :=
          Nat.mul_le_mul_right _ ((nearest_bounds _ _).2.trans (div_two_pow_cut_lt q m))
      _ = 2 ^ 23 * 2 ^ (cut q m - q + 1) := by rw [Nat.pow_succ _ (cut q m - q)]; omega
      _ ≤ 2 ^ 23 * 2 ^ (cut q n - q) := by
          refine Nat.mul_le_mul_left _ (Nat.pow_le_pow_right Nat.two_pos ?_)
          have : q ≤ cut q m := Nat.le_max_left _ _
          omega
      _ ≤ nearest (cut q n) n * 2 ^ (cut q n - q) :=
          Nat.mul_le_mul_right _ (hfull.trans (nearest_bounds _ _).1)
  · rw [rounded, rounded, heq]
    exact Nat.mul_le_mul_right _ (nearest_mono h _)

/-- What has 24 bits is left as it is. -/
theorem rounded_of_lt (hm : m < 2 ^ 24) (hj : 2 ^ 23 ≤ m ∨ j = 0) :
    rounded 0 (m * 2 ^ j) = m * 2 ^ j := by
  have hcut : cut 0 (m * 2 ^ j) = j := by
    rcases hj with hm' | rfl
    · have hne : m ≠ 0 := by omega
      have hlog : m.log2 = 23 := (Nat.log2_eq_iff hne).2 ⟨hm', hm⟩
      rw [cut, log2_mul_two_pow hne, hlog]
      omega
    · rw [cut, Nat.pow_zero, Nat.mul_one]
      rcases Nat.eq_zero_or_pos m with rfl | hpos
      · rfl
      · have := (Nat.log2_lt (by omega)).2 hm
        omega
  rw [rounded, hcut, nearest_exact, Nat.sub_zero]

/-- A whole number of which `q` bits lie below the least unit, as the units of the nearest scalar,
which is infinite where no finite one is as great. -/
def fit (q : Nat) (u : Int) : Int := u.sign * (min (rounded q u.natAbs) infinityUnits : Nat)

theorem rounded_zero (q : Nat) : rounded q 0 = 0 := by
  rw [rounded, nearest_zero, Nat.zero_mul]

theorem fit_zero (q : Nat) : fit q 0 = 0 := by rw [fit, Int.sign_zero, Int.zero_mul]

theorem fit_of_nonneg {u : Int} (h : 0 ≤ u) :
    fit q u = (min (rounded q u.natAbs) infinityUnits : Nat) := by
  rcases Int.lt_or_eq_of_le h with hlt | rfl
  · rw [fit, Int.sign_eq_one_of_pos hlt, Int.one_mul]
  · rw [fit_zero, Int.natAbs_zero, rounded_zero]
    rfl

theorem fit_neg (q : Nat) (u : Int) : fit q (-u) = -fit q u := by
  rw [fit, fit, Int.sign_neg, Int.natAbs_neg, Int.neg_mul]

/-- **Rounding keeps the order**, also across zero. -/
theorem fit_mono {u v : Int} (h : u ≤ v) (q : Nat) : fit q u ≤ fit q v := by
  have hnonneg : ∀ {u v : Int}, 0 ≤ u → u ≤ v → fit q u ≤ fit q v := by
    intro u v hu huv
    have habs : u.natAbs ≤ v.natAbs := by omega
    have hle := rounded_mono habs q
    rw [fit_of_nonneg hu, fit_of_nonneg (hu.trans huv)]
    omega
  have hzero : ∀ {u : Int}, 0 ≤ u → 0 ≤ fit q u := by
    intro u hu
    rw [fit_of_nonneg hu]
    omega
  rcases Int.lt_or_le u 0 with hu | hu
  · have hneg := fit_neg q u
    rcases Int.lt_or_le v 0 with hv | hv
    · have hle := hnonneg (u := -v) (v := -u) (by omega) (by omega)
      rw [fit_neg, fit_neg] at hle
      omega
    · have hle := hzero (u := -u) (by omega)
      have hge := hzero hv
      omega
  · exact hnonneg hu h

theorem fit_apply (q : Nat) (s : Sign) (n : Nat) :
    fit q (s.apply n) = s.apply (min (rounded q n) infinityUnits : Nat) := by
  have hpos : fit q n = (min (rounded q n) infinityUnits : Nat) := fit_of_nonneg (Int.natCast_nonneg n)
  cases s with
  | positive => exact hpos
  | negative => exact (fit_neg q n).trans (congrArg _ hpos)

/-- **Scalars stay as they are.** -/
theorem fit_unpackedUnits {u : UnpackedFloat} (hc : Canonical u) (hf : u.isFinite = true) :
    fit 0 (unpackedUnits u) = unpackedUnits u := by
  rcases finite_cases hf with ⟨s, rfl⟩ | ⟨s, m, e, hm, rfl⟩
  · rfl
  · obtain ⟨he, he', hlt, hfull⟩ := hc
    have hsame := rounded_of_lt hlt (j := (e + 149).toNat) (hfull.imp_right fun h => by omega)
    have hbound := magnitude_lt_infinityUnits he' hlt
    rw [magnitude] at hbound
    rw [unpackedUnits, fit_apply, magnitude, hsame, Nat.min_eq_left hbound.le]

/-! ## Packing -/

/-- Packed fields are unpacked to what they stand for, where the exponent is not the greatest. -/
theorem unpackedUnits_packComponents {s : Sign} {x : BitVec 8} {y : BitVec 23} {m : Nat} {e : Int}
    (hx : x.toNat < 255) (hfields : x.toNat = 0 ∧ m = y.toNat ∧ e = -149 ∨
      0 < x.toNat ∧ m = 2 ^ 23 + y.toNat ∧ e = x.toNat - 150) :
    unpackedUnits (unpack Format.binary32 (packComponents Format.binary32 s x y)) =
      s.apply (magnitude m e) := by
  rcases unpack_cases (packComponents Format.binary32 s x y)
    (by rw [unpackSign_packComponents, Sign.ofBitVec_toBitVec])
    (congrArg BitVec.toNat unpackExponent_packComponents)
    (congrArg BitVec.toNat unpackMantissa_packComponents)
    with ⟨-, hmax, -⟩ | ⟨-, hmax, -⟩ | ⟨heq, hexp, hmant⟩ | ⟨k, f, hk, heq, hsame⟩
  · omega
  · omega
  · have hzero : m = 0 := by omega
    rw [heq, hzero, magnitude, Nat.zero_mul]
    cases s <;> rfl
  · obtain ⟨rfl, rfl⟩ : k = m ∧ f = e := by omega
    rw [heq]
    rfl

theorem unpackedUnits_packedInfinity (s : Sign) :
    unpackedUnits (unpack Format.binary32 (packComponents Format.binary32 s (-1#8) 0#23)) =
      s.apply infinityUnits := by
  cases s <;> rfl

/-- **What is packed has its units**, as long as these are finite. -/
theorem unpackedUnits_unpack_pack {s : Sign} {e : Int} {h : 0 < m} (he : -149 ≤ e)
    (hm : m < 2 ^ 24) (hfull : 2 ^ 23 ≤ m ∨ e = -149) :
    unpackedUnits (unpack Format.binary32 (pack Format.binary32 (.finite s m e h))) =
      s.apply (min (magnitude m e) infinityUnits : Nat) := by
  have hbias : ((Format.binary32.exponentBias : Nat) : Int) = 127 := rfl
  have hbits : ((Format.binary32.mantissaBitsWithoutImplicit : Nat) : Int) = 23 := rfl
  have hlog : m.log2 + 1 = 24 ↔ 2 ^ 23 ≤ m := by
    have := Nat.log2_eq_iff (n := m) (k := 23) (by omega)
    omega
  obtain ⟨x, hx⟩ : ∃ x : Nat, (e + 127 + 23).toNat = x ∧ (x : Int) = e + 150 := ⟨_, rfl, by omega⟩
  rw [pack, hbias, hbits, hx.1]
  dsimp only
  by_cases hbig : 2 ^ Format.binary32.exponentBits ≤ x + 1
  · -- the exponent is beyond the greatest one
    have he' : 105 ≤ e := by
      change 256 ≤ x + 1 at hbig
      omega
    have hm' : 2 ^ 23 ≤ m := hfull.resolve_right (by omega)
    have hge : infinityUnits ≤ magnitude m e := by
      calc 2 ^ 24 * 2 ^ 253 = 2 ^ 23 * 2 ^ 254 := by decide
        _ ≤ m * 2 ^ (e + 149).toNat :=
          Nat.mul_le_mul hm' (Nat.pow_le_pow_right Nat.two_pos (by omega))
    rw [if_pos hbig, Nat.min_eq_right hge]
    exact unpackedUnits_packedInfinity s
  · have hx' : x + 1 < 256 := Nat.not_le.1 hbig
    have hlt : magnitude m e < infinityUnits := magnitude_lt_infinityUnits (by omega) hm
    rw [if_neg hbig, Nat.min_eq_left hlt.le]
    split
    · rename_i hnormal
      have hm' : 2 ^ 23 ≤ m := hlog.1 hnormal
      have hexp : (BitVec.ofNat 8 x).toNat = x := by
        rw [BitVec.toNat_ofNat]
        exact Nat.mod_eq_of_lt (by omega)
      have hmant : (BitVec.ofNat 23 m).toNat = m - 2 ^ 23 := by
        rw [BitVec.toNat_ofNat]
        omega
      exact unpackedUnits_packComponents (by omega) (.inr (by omega))
    · rename_i hsubnormal
      have hm' : ¬ 2 ^ 23 ≤ m := fun h => hsubnormal (hlog.2 h)
      have hmant : (BitVec.ofNat 23 m).toNat = m := by
        rw [BitVec.toNat_ofNat]
        exact Nat.mod_eq_of_lt (by omega)
      exact unpackedUnits_packComponents (by decide) (.inl ⟨rfl, hmant.symm, by omega⟩)

/-! ## Rounding what an operation gives -/

/-- The last place of a mantissa in the format. -/
def lastPlace (m : Nat) (e : Int) : Int := max (m.log2 + e - 23) (-149)

theorem le_lastPlace (m : Nat) (e : Int) : -149 ≤ lastPlace m e := Int.le_max_right _ _

theorem targetExponent_eq (m : Nat) (e : Int) :
    Format.binary32.targetExponent (totalExponent m e) = lastPlace m e := by
  have hbits : ((Format.binary32.mantissaBits : Nat) : Int) = 24 := rfl
  have hmin : Format.binary32.minExponent = -149 := rfl
  simp only [Format.targetExponent, totalExponent, hbits, hmin, lastPlace]
  omega

/-- **The mantissa is rounded at its last place**, and one bit more that this may give is shifted
out again. -/
theorem roundWithAccuracy_cases (s : Sign) (m : Nat) (e : Int) (hle : e ≤ lastPlace m e) :
    let r := nearest (lastPlace m e - e).toNat m
    (r = 0 ∧ roundWithAccuracy Format.binary32 s m e .exact = .zero s) ∨
      (∃ h, r < 2 ^ 24 ∧
        roundWithAccuracy Format.binary32 s m e .exact = .finite s r (lastPlace m e) h) ∨
      r = 2 ^ 24 ∧ ∃ h, roundWithAccuracy Format.binary32 s m e .exact =
        .finite s (2 ^ 23) (lastPlace m e + 1) h := by
  intro r
  have hfirst : shiftToTargetExponent Format.binary32 m e .exact =
      (ExtendedMantissa.ofMantissaAndAccuracy m .exact >>> (lastPlace m e - e).toNat,
        lastPlace m e) := by
    unfold shiftToTargetExponent shiftToExponent
    dsimp only
    rw [targetExponent_eq]
    congr 1
    omega
  have hplace := le_lastPlace m e
  have hbound : r ≤ 2 ^ 24 := by
    have hupper := (nearest_bounds (lastPlace m e - e).toNat m).2
    have hcut := div_two_pow_cut_lt (lastPlace m e - e).toNat m
    have hsame : cut (lastPlace m e - e).toNat m = (lastPlace m e - e).toNat := by
      unfold cut lastPlace
      omega
    rw [hsame] at hcut
    exact hupper.trans hcut
  have hrest : roundWithAccuracy Format.binary32 s m e .exact =
      if h : (shiftToTargetExponent Format.binary32 r (lastPlace m e) .exact).1.mantissa = 0 then
        .zero s
      else .finite s (shiftToTargetExponent Format.binary32 r (lastPlace m e) .exact).1.mantissa
        (shiftToTargetExponent Format.binary32 r (lastPlace m e) .exact).2
        (Nat.pos_of_ne_zero h) := by
    rw [roundWithAccuracy, hfirst]
    rfl
  rw [hrest]
  clear_value r
  clear hrest hfirst
  generalize lastPlace m e = f at hplace
  have hsecond : shiftToTargetExponent Format.binary32 r f .exact =
      (ExtendedMantissa.ofMantissaAndAccuracy r .exact >>> (lastPlace r f - f).toNat,
        f + (lastPlace r f - f).toNat) := by
    unfold shiftToTargetExponent shiftToExponent
    dsimp only
    rw [targetExponent_eq]
  rw [hsecond]
  rcases Nat.lt_or_eq_of_le hbound with hlt | rfl
  · have hstay : (lastPlace r f - f).toNat = 0 := by
      rcases Nat.eq_zero_or_pos r with rfl | hpos
      · rw [lastPlace, Nat.log2_zero]
        omega
      · have := (Nat.log2_lt (by omega)).2 hlt
        rw [lastPlace]
        omega
    rw [hstay, Int.natCast_zero, Int.add_zero]
    by_cases hzero : r = 0
    · exact .inl ⟨hzero, dif_pos hzero⟩
    · exact .inr (.inl ⟨Nat.pos_of_ne_zero hzero, hlt, dif_neg hzero⟩)
  · have hcarry : (lastPlace (2 ^ 24) f - f).toNat = 1 := by
      rw [lastPlace, Nat.log2_two_pow]
      omega
    rw [hcarry]
    exact .inr (.inr ⟨rfl, Nat.two_pow_pos _, rfl⟩)

/-- **The units of what is rounded** are those of the exact value, rounded to units. -/
theorem unpackedUnits_roundWithAccuracy (s : Sign) {m : Nat} {e : Int}
    (hfull : 23 ≤ m.log2 ∨ e ≤ -149) (he : -(149 + q : Int) ≤ e) :
    unpackedUnits (unpack Format.binary32
        (pack Format.binary32 (roundWithAccuracy Format.binary32 s m e .exact))) =
      fit q (s.apply (m * 2 ^ (e + 149 + q).toNat : Nat)) := by
  have hle : e ≤ lastPlace m e := by
    unfold lastPlace
    omega
  have hcut : m ≠ 0 → cut q (m * 2 ^ (e + 149 + q).toNat) =
      (lastPlace m e - e).toNat + (e + 149 + q).toNat := by
    intro hm
    rw [cut, log2_mul_two_pow hm]
    unfold lastPlace at hle ⊢
    omega
  have hrounded : rounded q (m * 2 ^ (e + 149 + q).toNat) =
      nearest (lastPlace m e - e).toNat m * 2 ^ (lastPlace m e + 149).toNat := by
    rcases Nat.eq_zero_or_pos m with rfl | hpos
    · rw [Nat.zero_mul, rounded_zero, nearest_zero, Nat.zero_mul]
    · have hne : m ≠ 0 := by omega
      rw [rounded, hcut hne, nearest_mul_two_pow]
      congr 2
      unfold lastPlace at hle ⊢
      omega
  have hplace := le_lastPlace m e
  rw [fit_apply, hrounded]
  have hbounds := nearest_bounds (lastPlace m e - e).toNat m
  rcases roundWithAccuracy_cases s m e hle with ⟨hr, heq⟩ | ⟨h, hlt, heq⟩ | ⟨hr, h, heq⟩
  · rw [heq, hr, Nat.zero_mul, Nat.zero_min, pack, unpack_packedZero]
    cases s <;> rfl
  · rw [heq, unpackedUnits_unpack_pack hplace hlt]
    · rfl
    · by_cases hmin : lastPlace m e = -149
      · exact .inr hmin
      · -- above the least exponent the mantissa has all its bits
        have hshift : (lastPlace m e - e).toNat = m.log2 - 23 := by
          unfold lastPlace at hmin ⊢
          omega
        have hlog : 23 ≤ m.log2 := by
          unfold lastPlace at hmin hle
          omega
        rw [hshift] at hbounds ⊢
        exact .inl ((leading_bounds hlog).1.trans hbounds.1)
  · have hmag : magnitude (2 ^ 23) (lastPlace m e + 1) =
        2 ^ 24 * 2 ^ (lastPlace m e + 149).toNat := by
      have hexp : (lastPlace m e + 1 + 149).toNat = (lastPlace m e + 149).toNat + 1 := by omega
      rw [magnitude, hexp, Nat.pow_succ _ (lastPlace m e + 149).toNat]
      omega
    rw [heq, unpackedUnits_unpack_pack (by omega) (by decide) (.inl (Nat.le_refl _)), hr, hmag]

/-- A short mantissa is filled up with zeros first, where its exponent allows it. -/
theorem unpackedUnits_round (s : Sign) {m : Nat} {e : Int} (hm : 0 < m) (he : -149 ≤ e) :
    unpackedUnits (unpack Format.binary32
        (pack Format.binary32 (UnpackedFloat.round Format.binary32 s m e))) =
      fit 0 (s.apply (magnitude m e)) := by
  obtain ⟨j, hj⟩ : ∃ j, (e - lastPlace m e).toNat = j := ⟨_, rfl⟩
  have hfill : UnpackedFloat.round Format.binary32 s m e =
      roundWithAccuracy Format.binary32 s (m * 2 ^ j) (e - j) .exact := by
    unfold UnpackedFloat.round decreaseExponent
    dsimp only
    rw [targetExponent_eq, hj, Nat.shiftLeft_eq]
  have hlog := log2_mul_two_pow (by omega : m ≠ 0) j
  have hplace := le_lastPlace m e
  have hunits : m * 2 ^ j * 2 ^ (e - j + 149 + (0 : Nat)).toNat = magnitude m e := by
    rw [magnitude, Nat.mul_assoc, ← Nat.pow_add]
    congr 2
    omega
  rw [hfill, unpackedUnits_roundWithAccuracy (q := 0) s ?_ (by omega), hunits]
  rw [hlog]
  unfold lastPlace at hj
  omega

theorem unpackedUnits_normalize (m : Int) {e : Int} (s : Sign) (he : -149 ≤ e) :
    unpackedUnits (unpack Format.binary32
        (pack Format.binary32 (normalize Format.binary32 m e s))) =
      fit 0 (m * (2 ^ (e + 149).toNat : Nat)) := by
  have hsigned : ∀ (s : Sign) (n : Nat), s.apply (magnitude n e) =
      s.apply n * (2 ^ (e + 149).toNat : Nat) := by
    intro s n
    rw [magnitude]
    cases s with
    | positive => exact Int.natCast_mul _ _
    | negative => exact (congrArg Neg.neg (Int.natCast_mul _ _)).trans (Int.neg_mul _ _).symm
  rw [UnpackedFloat.normalize]
  rcases lt_trichotomy m 0 with hm | rfl | hm
  · rw [compare_lt_iff_lt.2 hm, unpackedUnits_round _ (by omega) he, hsigned]
    congr 2
    change -(((-m).toNat : Nat) : Int) = m
    omega
  · rw [compare_eq_iff_eq.2 rfl, pack, unpack_packedZero, Int.zero_mul]
    rfl
  · rw [compare_gt_iff_gt.2 hm, unpackedUnits_round _ (by omega) he, hsigned]
    congr 2
    change ((m.toNat : Nat) : Int) = m
    omega

/-! ## Sums, differences and products -/

variable {a b c : Scalar}

/-- Two magnitudes over the lesser of their exponents. -/
theorem apply_decreaseExponent (s : Sign) (m : Nat) {e f : Int} (hf : -149 ≤ f) (hfe : f ≤ e) :
    s.apply (decreaseExponent m e f).1 * (2 ^ (f + 149).toNat : Nat) =
      s.apply (magnitude m e) := by
  have hmag : (decreaseExponent m e f).1 * 2 ^ (f + 149).toNat = magnitude m e := by
    rw [decreaseExponent, Nat.shiftLeft_eq, magnitude, Nat.mul_assoc, ← Nat.pow_add]
    congr 2
    omega
  rw [← hmag]
  cases s with
  | positive => exact (Int.natCast_mul _ _).symm
  | negative => exact (Int.neg_mul _ _).trans (congrArg Neg.neg (Int.natCast_mul _ _).symm)

/-- Packing and unpacking change no scalar. -/
theorem unpackedUnits_repack {u : UnpackedFloat} (hc : Canonical u) (hf : u.isFinite = true) :
    unpackedUnits (unpack Format.binary32 (pack Format.binary32 u)) = unpackedUnits u := by
  rcases finite_cases hf with ⟨s, rfl⟩ | ⟨s, m, e, hm, rfl⟩
  · rw [pack, unpack_packedZero]
  · obtain ⟨he, he', hlt, hfull⟩ := hc
    rw [unpackedUnits_unpack_pack he hlt hfull,
      Nat.min_eq_left (magnitude_lt_infinityUnits he' hlt).le]
    rfl

theorem unpackedUnits_repack_zero (s : Sign) :
    unpackedUnits (unpack Format.binary32 (pack Format.binary32 (.zero s))) = 0 :=
  unpackedUnits_repack (u := .zero s) trivial rfl

theorem unpackedUnits_add {u v : UnpackedFloat} (hu : Canonical u) (hv : Canonical v)
    (hfu : u.isFinite = true) (hfv : v.isFinite = true) :
    unpackedUnits (unpack Format.binary32
        (pack Format.binary32 (UnpackedFloat.add Format.binary32 u v))) =
      fit 0 (unpackedUnits u + unpackedUnits v) := by
  have hzero : ∀ s, unpackedUnits (.zero s) = 0 := fun s => rfl
  rcases finite_cases hfu with ⟨s, rfl⟩ | ⟨s, m, e, hm, rfl⟩
  · rw [hzero, Int.zero_add, fit_unpackedUnits hv hfv]
    rcases finite_cases hfv with ⟨t, rfl⟩ | ⟨t, k, f, hk, rfl⟩
    · cases s <;> cases t <;> exact unpackedUnits_repack_zero _
    · exact unpackedUnits_repack hv rfl
  · rcases finite_cases hfv with ⟨t, rfl⟩ | ⟨t, k, f, hk, rfl⟩
    · rw [hzero, Int.add_zero, fit_unpackedUnits hu rfl]
      exact unpackedUnits_repack hu rfl
    · have hmin : -149 ≤ min e f := Int.le_min.2 ⟨hu.1, hv.1⟩
      simp only [UnpackedFloat.add]
      rw [unpackedUnits_normalize _ _ hmin, Int.add_mul,
        apply_decreaseExponent s m hmin (Int.min_le_left _ _),
        apply_decreaseExponent t k hmin (Int.min_le_right _ _)]
      rfl

/-- A difference is the sum with the opposite. -/
theorem sub_eq_add_neg (u v : UnpackedFloat) : UnpackedFloat.sub Format.binary32 u v =
    UnpackedFloat.add Format.binary32 u (UnpackedFloat.neg v) := by
  cases u <;> cases v <;> try rfl
  rename_i s m e hm t k f hk
  simp only [UnpackedFloat.sub, UnpackedFloat.neg, UnpackedFloat.add]
  congr 1
  cases t with
  | positive => rfl
  | negative => exact Int.sub_neg _ _

theorem unpackedUnits_neg (u : UnpackedFloat) :
    unpackedUnits (UnpackedFloat.neg u) = -unpackedUnits u := by
  have hsign : ∀ (s : Sign) (n : Nat), (-s).apply n = -s.apply n := by
    intro s n
    cases s with
    | positive => rfl
    | negative => exact (Int.neg_neg _).symm
  cases u with
  | notANumber => rfl
  | zero s => rfl
  | infinity s => exact hsign s _
  | finite s m e hm => exact hsign s _

theorem isFinite_neg (u : UnpackedFloat) : (UnpackedFloat.neg u).isFinite = u.isFinite := by
  cases u <;> rfl

theorem canonical_neg {u : UnpackedFloat} (h : Canonical u) : Canonical (UnpackedFloat.neg u) := by
  cases u <;> exact h

theorem unpackedUnits_mul {u v : UnpackedFloat} (hu : Canonical u) (hv : Canonical v)
    (hfu : u.isFinite = true) (hfv : v.isFinite = true) :
    unpackedUnits (unpack Format.binary32
        (pack Format.binary32 (UnpackedFloat.mul Format.binary32 u v))) =
      fit 149 (unpackedUnits u * unpackedUnits v) := by
  have hzero : ∀ s, unpackedUnits (.zero s) = 0 := fun s => rfl
  rcases finite_cases hfu with ⟨s, rfl⟩ | ⟨s, m, e, hm, rfl⟩
  · rw [hzero, Int.zero_mul, fit_zero]
    rcases finite_cases hfv with ⟨t, rfl⟩ | ⟨t, k, f, hk, rfl⟩ <;>
      exact unpackedUnits_repack_zero _
  rcases finite_cases hfv with ⟨t, rfl⟩ | ⟨t, k, f, hk, rfl⟩
  · rw [hzero, Int.mul_zero, fit_zero]
    exact unpackedUnits_repack_zero _
  obtain ⟨he, -, -, hfull⟩ := hu
  obtain ⟨hf, -, -, hfull'⟩ := hv
  -- one normal factor gives the product enough bits
  have hbits : 23 ≤ (m * k).log2 ∨ e + f ≤ -149 := by
    rcases hfull with hm' | he'
    · refine .inl ((Nat.le_log2 (Nat.mul_pos hm hk).ne').2 (hm'.trans ?_))
      exact Nat.le_mul_of_pos_right m hk
    · rcases hfull' with hk' | hf'
      · refine .inl ((Nat.le_log2 (Nat.mul_pos hm hk).ne').2 (hk'.trans ?_))
        exact Nat.le_mul_of_pos_left k hm
      · exact .inr (by omega)
  have hmag : m * k * 2 ^ (e + f + 149 + (149 : Nat)).toNat = magnitude m e * magnitude k f := by
    have hexp : (e + f + 149 + (149 : Nat)).toNat = (e + 149).toNat + (f + 149).toNat := by omega
    rw [hexp, Nat.pow_add, magnitude, magnitude, Nat.mul_mul_mul_comm]
  have hsign : ∀ x y : Nat, (s * t).apply (x * y : Nat) = s.apply x * t.apply y := by
    intro x y
    rw [Int.natCast_mul]
    cases s <;> cases t
    · exact (Int.neg_mul_neg _ _).symm
    · exact (Int.neg_mul _ _).symm
    · exact (Int.mul_neg _ _).symm
    · rfl
  rw [UnpackedFloat.mul, unpackedUnits_roundWithAccuracy (q := 149) _ hbits (by omega), hmag, hsign]
  rfl

theorem canonical (a : Scalar) : Canonical a.toModel.unpack :=
  canonical_unpack a.toModel.toBits.toBitVec

/-- **A sum is the exact sum, rounded.** -/
theorem units_add (ha : a.isFinite = true) (hb : b.isFinite = true) :
    (a + b).units = fit 0 (a.units + b.units) :=
  unpackedUnits_add (canonical a) (canonical b) ha hb

/-- **A difference is the exact difference, rounded.** -/
theorem units_sub (ha : a.isFinite = true) (hb : b.isFinite = true) :
    (a - b).units = fit 0 (a.units - b.units) := by
  change unpackedUnits (unpack Format.binary32 (pack Format.binary32
    (UnpackedFloat.sub Format.binary32 a.toModel.unpack b.toModel.unpack))) =
      fit 0 (a.units - unpackedUnits b.toModel.unpack)
  rw [sub_eq_add_neg, Int.sub_eq_add_neg, ← unpackedUnits_neg]
  exact unpackedUnits_add (canonical a) (canonical_neg (canonical b)) ha
    ((isFinite_neg _).trans hb)

/-- **A product is the exact product, rounded**: of its bits, 149 lie below the least unit. -/
theorem units_mul (ha : a.isFinite = true) (hb : b.isFinite = true) :
    (a * b).units = fit 149 (a.units * b.units) :=
  unpackedUnits_mul (canonical a) (canonical b) ha hb

/-! ## Cutting to a count -/

theorem toNat_ofNatClamp (n : Nat) : (UInt64.ofNatClamp n).toNat = min n (2 ^ 64 - 1) := by
  unfold UInt64.ofNatClamp
  split
  · rename_i h
    change n < 2 ^ 64 at h
    change n = _
    omega
  · rename_i h
    change ¬ n < 2 ^ 64 at h
    change 2 ^ 64 - 1 = _
    omega

/-- Cutting to whole numbers takes the whole part of the magnitude. -/
theorem roundToInt_eq (s : Sign) (m : Nat) {e : Int} (he : -149 ≤ e) :
    roundToInt s m e = s.apply (magnitude m e / 2 ^ 149 : Nat) := by
  have hmag : m * 2 ^ e.toNat / 2 ^ (-e).toNat = magnitude m e / 2 ^ 149 := by
    rcases Int.le_total 0 e with hpos | hneg
    · have hexp : (e + 149).toNat = e.toNat + 149 := by omega
      have hnone : (-e).toNat = 0 := by omega
      rw [magnitude, hexp, hnone, Nat.pow_add, ← Nat.mul_assoc,
        Nat.mul_div_cancel _ (Nat.two_pow_pos _), Nat.pow_zero, Nat.div_one]
    · have hexp : 149 = (-e).toNat + (e + 149).toNat := by omega
      have hnone : e.toNat = 0 := by omega
      rw [magnitude, hnone, Nat.pow_zero, Nat.mul_one]
      conv_rhs => rw [hexp, Nat.pow_add]
      exact (Nat.mul_div_mul_right _ _ (Nat.two_pow_pos _)).symm
  have hshift : (0 - (e - ((e - 0).toNat : Int))).toNat = (-e).toNat := by omega
  simp only [roundToInt, decreaseExponent, shiftToExponent, hshift, Nat.shiftLeft_eq]
  rw [mantissa_shiftRight]
  change s.apply ((m * 2 ^ (e - 0).toNat / 2 ^ (-e).toNat : Nat) : Int) = _
  rw [Int.sub_zero, hmag]

/-- **A number is cut to the whole part of it**, which is counted from the units. -/
theorem toCount_eq (ha : a.isNaN = false) :
    a.toCount = min (a.units.toNat / 2 ^ 149) (2 ^ 64 - 1) := by
  have hc := canonical a
  change a.toModel.unpack.isNaN = false at ha
  change (UnpackedFloat.toUInt64 a.toModel.unpack).toNat =
    min ((unpackedUnits a.toModel.unpack).toNat / 2 ^ 149) (2 ^ 64 - 1)
  generalize a.toModel.unpack = u at *
  rw [UnpackedFloat.toUInt64, toNat_ofNatClamp]
  cases u with
  | notANumber => cases ha
  | infinity s => cases s <;> decide
  | zero s => cases s <;> decide
  | finite s m e hm =>
    change min (roundToInt s m e).toNat (2 ^ 64 - 1) =
      min ((s.apply (magnitude m e)).toNat / 2 ^ 149) (2 ^ 64 - 1)
    rw [roundToInt_eq s m hc.1]
    cases s with
    | positive => rfl
    | negative =>
      have hneg : ∀ n : Nat, (Sign.negative.apply n).toNat = 0 := fun n => by
        change (-(n : Int)).toNat = 0
        omega
      rw [hneg, hneg, Nat.zero_div]

/-- What is not a number is cut to zero. -/
theorem toCount_of_isNaN (ha : a.isNaN = true) : a.toCount = 0 := by
  change a.toModel.unpack.isNaN = true at ha
  change (UnpackedFloat.toUInt64 a.toModel.unpack).toNat = 0
  generalize a.toModel.unpack = u at *
  cases u with
  | notANumber => rfl
  | infinity s => cases ha
  | zero s => cases ha
  | finite s m e hm => cases ha

theorem toCount_mono (ha : a.isNaN = false) (hb : b.isNaN = false) (h : a.units ≤ b.units) :
    a.toCount ≤ b.toCount := by
  have hdiv : a.units.toNat / 2 ^ 149 ≤ b.units.toNat / 2 ^ 149 :=
    Nat.div_le_div_right (Int.toNat_le_toNat h)
  rw [toCount_eq ha, toCount_eq hb]
  omega

/-! ## What follows for the order -/

theorem isNaN_sub (ha : a.isFinite = true) (hb : b.isFinite = true) : (a - b).isNaN = false := by
  have hsign : signOf (a - b).toModel.unpack =
      signOf (UnpackedFloat.sub Format.binary32 a.toModel.unpack b.toModel.unpack) :=
    signOf_unpack_pack _
  rw [isNaN_iff_signOf, hsign, sub_eq_add_neg]
  exact signOf_add_ne_none ha ((isFinite_neg _).trans hb)

/-- A difference that has a side which is not finite is infinite or not a number. -/
theorem sub_cases {u v : UnpackedFloat} (h : ¬ (u.isFinite = true ∧ v.isFinite = true)) :
    UnpackedFloat.sub Format.binary32 u v = .notANumber ∨
      ∃ s, UnpackedFloat.sub Format.binary32 u v = .infinity s := by
  cases u with
  | notANumber => cases v <;> exact .inl rfl
  | infinity s =>
    cases v with
    | notANumber => exact .inl rfl
    | infinity t =>
      rw [UnpackedFloat.sub]
      split
      · exact .inr ⟨s, rfl⟩
      · exact .inl rfl
    | zero t => exact .inr ⟨s, rfl⟩
    | finite t k f hk => exact .inr ⟨s, rfl⟩
  | zero s =>
    cases v with
    | notANumber => exact .inl rfl
    | infinity t => exact .inr ⟨-t, rfl⟩
    | zero t => exact absurd ⟨rfl, rfl⟩ h
    | finite t k f hk => exact absurd ⟨rfl, rfl⟩ h
  | finite s m e hm =>
    cases v with
    | notANumber => exact .inl rfl
    | infinity t => exact .inr ⟨-t, rfl⟩
    | zero t => exact absurd ⟨rfl, rfl⟩ h
    | finite t k f hk => exact absurd ⟨rfl, rfl⟩ h

/-- Only finite scalars have a finite difference. -/
theorem isFinite_of_sub (h : (a - b).isFinite = true) : a.isFinite = true ∧ b.isFinite = true := by
  change (unpack Format.binary32 (pack Format.binary32
    (UnpackedFloat.sub Format.binary32 a.toModel.unpack b.toModel.unpack))).isFinite = true at h
  by_contra hnot
  rcases sub_cases hnot with heq | ⟨s, heq⟩
  · rw [heq, pack, unpack_packedNaN] at h
    cases h
  · rw [heq] at h
    cases s <;> revert h <;> decide

/-- A number is finite when its units are. -/
theorem isFinite_iff_units (ha : a.isNaN = false) :
    a.isFinite = true ↔ a.units.natAbs < infinityUnits := by
  have hc := canonical a
  change a.toModel.unpack.isNaN = false at ha
  change a.toModel.unpack.isFinite = true ↔ (unpackedUnits a.toModel.unpack).natAbs < infinityUnits
  generalize a.toModel.unpack = u at *
  cases u with
  | notANumber => cases ha
  | infinity s =>
    refine ⟨nofun, fun h => absurd h ?_⟩
    cases s <;> dsimp only [unpackedUnits, Sign.apply] <;> omega
  | zero s => exact ⟨fun _ => Nat.mul_pos (Nat.two_pow_pos _) (Nat.two_pow_pos _), fun _ => rfl⟩
  | finite s m e hm =>
    obtain ⟨-, he, hlt, -⟩ := hc
    have hbound := magnitude_lt_infinityUnits he hlt
    refine ⟨fun _ => ?_, fun _ => rfl⟩
    cases s <;> dsimp only [unpackedUnits, Sign.apply] <;> omega

theorem fit_units (ha : a.isFinite = true) : fit 0 a.units = a.units :=
  fit_unpackedUnits (canonical a) ha

/-- **Differences keep the order.** -/
theorem units_sub_mono (ha : a.isFinite = true) (hb : b.isFinite = true) (hc : c.isFinite = true)
    (h : a.units ≤ b.units) : (a - c).units ≤ (b - c).units := by
  rw [units_sub ha hc, units_sub hb hc]
  exact fit_mono (by omega) 0

theorem isNaN_mul_of_isFinite (ha : a.isFinite = true) (hb : b.isFinite = true) :
    (a * b).isNaN = false := by
  rw [isNaN_iff_signOf, signOf_mul]
  rcases finite_cases ha with ⟨s, hu⟩ | ⟨s, m, e, hm, hu⟩ <;>
    rcases finite_cases hb with ⟨t, hv⟩ | ⟨t, k, f, hk, hv⟩ <;> rw [hu, hv]
  · exact Option.some_ne_none _
  · exact Option.some_ne_none _
  · exact Option.some_ne_none _
  · rw [UnpackedFloat.mul, signOf_roundWithAccuracy]
    exact Option.some_ne_none _

/-- A scalar from zero up is infinite or finite. -/
theorem Nonneg.cases (ha : a.Nonneg) :
    a.toModel.unpack = .infinity .positive ∨ a.isFinite = true ∧ 0 ≤ a.units := by
  change _ ∨ a.toModel.unpack.isFinite = true ∧ 0 ≤ unpackedUnits a.toModel.unpack
  rcases unpacked_cases ha with hu | hu | ⟨m, e, hm, hu⟩ <;> rw [hu]
  · exact .inl rfl
  · exact .inr ⟨rfl, Int.le_refl _⟩
  · exact .inr ⟨rfl, Int.natCast_nonneg _⟩

/-! Infinity stays what it is, but for its product with zero. -/

theorem unpack_pack_infinity :
    unpack Format.binary32 (pack Format.binary32 (.infinity .positive)) = .infinity .positive := rfl

theorem unpack_add_infinity (ha : a.isFinite = true)
    (hb : b.toModel.unpack = .infinity .positive) :
    (a + b).toModel.unpack = .infinity .positive := by
  change unpack Format.binary32 (pack Format.binary32
    (UnpackedFloat.add Format.binary32 a.toModel.unpack b.toModel.unpack)) = _
  rcases finite_cases ha with ⟨s, hu⟩ | ⟨s, m, e, hm, hu⟩ <;> rw [hu, hb] <;>
    exact unpack_pack_infinity

theorem unpack_mul_infinity (ha : a.isFinite = true) (hpos : 0 < a.units)
    (hb : b.toModel.unpack = .infinity .positive) :
    (a * b).toModel.unpack = .infinity .positive := by
  change unpack Format.binary32 (pack Format.binary32
    (UnpackedFloat.mul Format.binary32 a.toModel.unpack b.toModel.unpack)) = _
  change 0 < unpackedUnits a.toModel.unpack at hpos
  rcases finite_cases ha with ⟨s, hu⟩ | ⟨s, m, e, hm, hu⟩ <;> rw [hu] at hpos <;> rw [hu, hb]
  · exact absurd hpos (Int.lt_irrefl _)
  · cases s with
    | positive => exact unpack_pack_infinity
    | negative =>
      have := magnitude_pos (e := e) hm
      change 0 < -((magnitude m e : Nat) : Int) at hpos
      omega

theorem isNaN_mul_infinity (ha : a.isFinite = true) (hzero : a.units = 0)
    (hb : b.toModel.unpack = .infinity .positive) : (a * b).isNaN = true := by
  change (unpack Format.binary32 (pack Format.binary32
    (UnpackedFloat.mul Format.binary32 a.toModel.unpack b.toModel.unpack))).isNaN = true
  change unpackedUnits a.toModel.unpack = 0 at hzero
  rcases finite_cases ha with ⟨s, hu⟩ | ⟨s, m, e, hm, hu⟩ <;> rw [hu] at hzero <;> rw [hu, hb]
  · change (unpack Format.binary32 (packedNaN Format.binary32)).isNaN = true
    rw [unpack_packedNaN]
    rfl
  · have := magnitude_pos (e := e) hm
    cases s <;> dsimp only [unpackedUnits, Sign.apply] at hzero <;> omega

/-- **Adding a scalar from zero up** takes nothing away. -/
theorem Nonneg.units_le_add (hb : b.Nonneg) (ha : a.isFinite = true) :
    (a + b).isNaN = false ∧ a.units ≤ (a + b).units := by
  rcases hb.cases with hinf | ⟨hfinite, hpos⟩
  · have hsum := unpack_add_infinity ha hinf
    have hunits : (a + b).units = infinityUnits := congrArg unpackedUnits hsum
    have hbound := natAbs_units_le a
    exact ⟨congrArg UnpackedFloat.isNaN hsum, by omega⟩
  · refine ⟨isNaN_add ha hfinite, ?_⟩
    have hle := fit_mono (u := a.units) (v := a.units + b.units) (by omega) 0
    rwa [fit_units ha, ← units_add ha hfinite] at hle

/-- **Products with a scalar from zero up** keep the order of counts. Infinity times zero is cut to
zero, like everything that is not a number. -/
theorem Nonneg.toCount_mul_mono (hc : c.Nonneg) (ha : a.isFinite = true) (hb : b.isFinite = true)
    (hpos : 0 ≤ a.units) (h : a.units ≤ b.units) : (a * c).toCount ≤ (b * c).toCount := by
  rcases hc.cases with hinf | ⟨hfinite, hcpos⟩
  · rcases Int.lt_or_eq_of_le hpos with hlt | hzero
    · have hsame : (a * c).toCount = (b * c).toCount := by
        change (UnpackedFloat.toUInt64 (a * c).toModel.unpack).toNat =
          (UnpackedFloat.toUInt64 (b * c).toModel.unpack).toNat
        rw [unpack_mul_infinity ha hlt hinf, unpack_mul_infinity hb (by omega) hinf]
      exact hsame.le
    · rw [toCount_of_isNaN (isNaN_mul_infinity ha hzero.symm hinf)]
      exact Nat.zero_le _
  · refine toCount_mono (isNaN_mul_of_isFinite ha hfinite) (isNaN_mul_of_isFinite hb hfinite) ?_
    rw [units_mul ha hfinite, units_mul hb hfinite]
    exact fit_mono (Int.mul_le_mul_of_nonneg_right h hcpos) 149

end Scalar

end BoxTree
