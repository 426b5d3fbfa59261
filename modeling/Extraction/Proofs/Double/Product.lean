import Extraction.Proofs.Double.Laws

/-! Products of doubles with finite factors of one or more. Such a product is the exact one, rounded; so it does not
fall below the other factor, however small that is, and it keeps the order of both factors. -/
namespace Extraction

namespace Double

open Float.Model Float.Model.UnpackedFloat

/-- The place of the last bit of a product that is kept. Its exponent counts from the square of the smallest
double. -/
def productPlace (m e : Nat) : Nat := m.log2 + e - 1126

/-- How many bits of a product are shifted out. -/
def productShift (m e : Nat) : Nat := productPlace m e + 1074 - e

section Rounding
variable {m e : Nat}

theorem log2_of_full (full : 2 ^ 52 ≤ m) : 52 ≤ m.log2 := (Nat.le_log2 (by omega)).2 full

theorem add_productShift (full : 2 ^ 52 ≤ m) : e + productShift m e = productPlace m e + 1074 := by
  have := log2_of_full full
  unfold productShift productPlace
  omega

theorem shiftToTargetExponent_product (full : 2 ^ 52 ≤ m) :
    shiftToTargetExponent .binary64 m (e - 2148) .exact =
      (shifted m (productShift m e), (productPlace m e : Int) - 1074) := by
  have target : Format.binary64.targetExponent (totalExponent m (e - 2148)) =
      (productPlace m e : Int) - 1074 := by
    have place : productPlace m e = m.log2 + e - 1126 := rfl
    rw [Format.targetExponent, totalExponent, mantissaBits_eq, minExponent_eq]
    omega
  have sum := add_productShift (e := e) full
  have shift : ((productPlace m e : Int) - 1074 - (e - 2148)).toNat = productShift m e := by omega
  have exponent : (e : Int) - 2148 + productShift m e = productPlace m e - 1074 := by omega
  simp only [shiftToTargetExponent, target, shiftToExponent, shift, shifted, exponent]

theorem roundAt_product_le (m e : Nat) : roundAt m (productShift m e) ≤ 2 ^ 53 := by
  apply roundAt_le_of_log2
  unfold productShift productPlace
  omega

theorem le_roundAt_product (full : 2 ^ 52 ≤ m) (above : productPlace m e ≠ 0) :
    2 ^ 52 ≤ roundAt m (productShift m e) := by
  apply le_roundAt_of_log2 (by omega)
  have long := log2_of_full full
  unfold productShift
  unfold productPlace at *
  omega

/-- A whole number of squares of the smallest double, rounded as a product is. -/
def productUnits (n : Nat) : Nat := roundAt n (productShift n 0) * 2 ^ productPlace n 0

theorem productUnits_eq (full : 2 ^ 52 ≤ m) (e : Nat) :
    productUnits (m * 2 ^ e) = roundAt m (productShift m e) * 2 ^ productPlace m e := by
  have place : productPlace (m * 2 ^ e) 0 = productPlace m e := by
    unfold productPlace
    rw [log2_mul_pow (by omega), Nat.add_zero]
  have shift : productShift (m * 2 ^ e) 0 = e + productShift m e := by
    rw [productShift, place, add_productShift full, Nat.sub_zero]
  rw [productUnits, place, shift, roundAt_mul_pow]

theorem productUnits_zero : productUnits 0 = 0 := by
  have nothing := roundAt_mul_pow 0 0 (productShift 0 0)
  rw [Nat.zero_mul, Nat.add_zero, roundAt_zero] at nothing
  rw [productUnits, nothing, Nat.zero_mul]

/-- A double times one is rounded like the double itself. -/
theorem productUnits_mul_one {n : Nat} (pos : 0 < n) : productUnits (n * 2 ^ 1074) = roundUnits n := by
  have place : productPlace (n * 2 ^ 1074) 0 = surplus n := by
    have := log2_mul_pow pos 1074
    unfold productPlace surplus
    omega
  have shift : productShift (n * 2 ^ 1074) 0 = 1074 + surplus n := by
    rw [productShift, place]
    omega
  rw [productUnits, place, shift, roundAt_mul_pow, roundUnits]

theorem productUnits_mono {n m : Nat} (le : n ≤ m) : productUnits n ≤ productUnits m := by
  rcases Nat.eq_zero_or_pos n with rfl | pos
  · rw [productUnits_zero]
    exact Nat.zero_le _
  have logs : n.log2 ≤ m.log2 := (Nat.le_log2 (by omega)).2 (le_trans (Nat.log2_self_le (by omega)) le)
  have places : productPlace n 0 ≤ productPlace m 0 := by
    unfold productPlace
    omega
  rcases Nat.eq_or_lt_of_le places with same | less
  · rw [productUnits, productUnits, productShift, productShift, same]
    exact Nat.mul_le_mul_right _ (roundAt_mono le _)
  · have full : 2 ^ 52 ≤ m := by
      refine (Nat.le_log2 (by omega)).1 ?_
      unfold productPlace at less
      omega
    calc productUnits n ≤ 2 ^ 53 * 2 ^ productPlace n 0 :=
          Nat.mul_le_mul_right _ (roundAt_product_le n 0)
      _ = 2 ^ 52 * 2 ^ (productPlace n 0 + 1) := by
        rw [Nat.pow_succ 2 (productPlace n 0), Nat.mul_comm (2 ^ productPlace n 0), ← Nat.mul_assoc]
        rfl
      _ ≤ productUnits m :=
        Nat.mul_le_mul (le_roundAt_product full (by omega)) (Nat.pow_le_pow_right (by decide) less)

/-- A product that is not rounded to zero is rounded to a number in canonical form. -/
theorem exists_roundWithAccuracy_product (full : 2 ^ 52 ≤ m) (pos : 0 < productUnits (m * 2 ^ e)) :
    ∃ m' k pos', Normal m' k ∧ m' * 2 ^ k = productUnits (m * 2 ^ e) ∧
      roundWithAccuracy .binary64 .positive m (e - 2148) .exact =
        .finite .positive m' (k - 1074) pos' := by
  rw [productUnits_eq full] at pos ⊢
  have kept : productPlace m e = 0 ∨ 2 ^ 52 ≤ roundAt m (productShift m e) :=
    or_iff_not_imp_left.2 (le_roundAt_product full)
  obtain ⟨m', k, normal, pos', value, mantissa, exponent⟩ :=
    exists_normal_of_rounded (Nat.pos_of_mul_pos_right pos) (roundAt_product_le m e) kept
  refine ⟨m', k, pos', normal, value, ?_⟩
  have rounded : (shifted m (productShift m e)).roundedMantissa = roundAt m (productShift m e) := rfl
  rw [roundWithAccuracy, shiftToTargetExponent_product full]
  simp only [rounded, mantissa, exponent]
  rw [dif_neg pos'.ne']

end Rounding

theorem mul_unpack (a b : Float) : (a * b).toModel.unpack =
    (Float.Model.pack (UnpackedFloat.mul .binary64 a.toModel.unpack b.toModel.unpack)).unpack := rfl

theorem magnitude_one : Magnitude (1 : Float).toModel.unpack (2 ^ 1074) := by
  have units : 2 ^ 1074 = 2 ^ 52 * 2 ^ 1022 := by rw [← Nat.pow_add]
  have normal : Normal (2 ^ 52) 1022 := ⟨by decide, .inr (le_refl _)⟩
  rw [units]
  exact .finite (by decide) normal (by decide)

theorem Magnitude.isFinite_infinity {a : Float} (h : a.toModel.unpack = .infinity .positive) :
    Cost.isFinite a = false := by
  show a.toModel.unpack.isFinite = false
  rw [h]
  rfl

/-- A factor of one or more does not take anything away. -/
theorem Magnitude.le_productUnits {u : UnpackedFloat} {n n' : Nat} (h : Magnitude u n)
    (factor : 2 ^ 1074 ≤ n') : n ≤ productUnits (n * n') := by
  rcases Nat.eq_zero_or_pos n with rfl | pos
  · exact Nat.zero_le _
  · calc n = productUnits (n * 2 ^ 1074) := by rw [productUnits_mul_one pos, h.roundUnits_eq]
      _ ≤ productUnits (n * n') := productUnits_mono (Nat.mul_le_mul_left n factor)

/-- Only a subnormal number has a mantissa that is not full, and that is below one. -/
theorem Normal.full_of_factor {m k : Nat} (h : Normal m k) (factor : 2 ^ 1074 ≤ m * 2 ^ k) : 2 ^ 52 ≤ m := by
  refine h.full.resolve_left ?_
  rintro rfl
  rw [Nat.pow_zero, Nat.mul_one] at factor
  have small : 2 ^ 53 ≤ 2 ^ 1074 := pow_le_pow_right₀ one_le_two (by decide)
  exact (le_trans small factor).not_gt h.short

/-- A double times a finite one that is at least one is their exact product, rounded. -/
theorem Magnitude.mul {u v : UnpackedFloat} {n n' : Nat} (h : Magnitude u n)
    (h' : Magnitude v n') (finite : v ≠ .infinity .positive) (factor : 2 ^ 1074 ≤ n') :
    Magnitude (Float.Model.pack (UnpackedFloat.mul .binary64 u v)).unpack
      (min (productUnits (n * n')) limit) := by
  have least := h.le_productUnits factor
  cases h' with
  | infinity => exact absurd rfl finite
  | zero => exact absurd factor (pow_pos two_pos 1074).not_ge
  | finite pos' normal' fits' =>
    rename_i m' k'
    cases h with
    | zero s =>
      have zero : UnpackedFloat.mul .binary64 (.zero s) (.finite .positive m' (k' - 1074) pos') =
        .zero (s * .positive) := rfl
      rw [zero, (Magnitude.zero _).unpack_pack, Nat.zero_mul, productUnits_zero, Nat.zero_min]
      exact .zero _
    | infinity =>
      have infinite : UnpackedFloat.mul .binary64 (.infinity .positive)
        (.finite .positive m' (k' - 1074) pos') = .infinity .positive := rfl
      rw [infinite, Magnitude.infinity.unpack_pack, Nat.min_eq_right least]
      exact .infinity
    | finite pos normal fits =>
      rename_i m k
      have full : 2 ^ 52 ≤ m * m' := le_trans (normal'.full_of_factor factor) (Nat.le_mul_of_pos_left m' pos)
      have value : m * 2 ^ k * (m' * 2 ^ k') = m * m' * 2 ^ (k + k') := by rw [Nat.pow_add]; ac_rfl
      rw [value] at least ⊢
      have nonzero := lt_of_lt_of_le (Nat.mul_pos pos (Nat.two_pow_pos k)) least
      obtain ⟨m'', k'', pos'', result, rounded, eq⟩ := exists_roundWithAccuracy_product full nonzero
      have product : UnpackedFloat.mul .binary64 (.finite .positive m (k - 1074) pos)
          (.finite .positive m' (k' - 1074) pos') = .finite .positive m'' (k'' - 1074) pos'' := by
        have exponents : (k : Int) - 1074 + (k' - 1074) = (k + k' : Nat) - 2148 := by omega
        rw [← eq, ← exponents]
        rfl
      rw [product, ← rounded]
      exact result.magnitude_pack pos''

/-- A finite factor that is not below one, as a number of the smallest doubles. -/
theorem exists_magnitude_factor {b : Float} (finite : Cost.isFinite b = true) (factor : ¬ b < 1) :
    ∃ m, Magnitude b.toModel.unpack m ∧ 2 ^ 1074 ≤ m := by
  have hb : Cost.Nonnegative b := by
    refine OrderedCost.nonnegative_of_finite finite fun below => factor ?_
    exact OrderedCost.trans below (by decide)
  obtain ⟨m, hb⟩ := nonnegative_iff.1 hb
  exact ⟨m, hb, (hb.not_lt_iff magnitude_one).1 factor⟩

theorem Magnitude.float_mul {a b : Float} {n m : Nat} (ha : Magnitude a.toModel.unpack n)
    (hb : Magnitude b.toModel.unpack m) (finite : Cost.isFinite b = true) (factor : 2 ^ 1074 ≤ m) :
    Magnitude (a * b).toModel.unpack (min (productUnits (n * m)) limit) := by
  have bounded : b.toModel.unpack ≠ .infinity .positive := by
    intro infinite
    rw [Magnitude.isFinite_infinity infinite] at finite
    cases finite
  rw [mul_unpack]
  exact ha.mul hb bounded factor

instance : MonotoneCost Float where
  nonnegative_mul ha finite factor := by
    obtain ⟨n, ha⟩ := nonnegative_iff.1 ha
    obtain ⟨m, hb, factor⟩ := exists_magnitude_factor finite factor
    exact nonnegative_iff.2 ⟨_, ha.float_mul hb finite factor⟩
  mul_not_lt ha finite factor := by
    obtain ⟨n, ha⟩ := nonnegative_iff.1 ha
    obtain ⟨m, hb, factor⟩ := exists_magnitude_factor finite factor
    rw [(ha.float_mul hb finite factor).not_lt_iff ha]
    exact le_min (ha.le_productUnits factor) ha.le_limit
  mul_not_lt_mul ha hb finite finite' factor factor' le le' := by
    obtain ⟨n, ha⟩ := nonnegative_iff.1 ha
    obtain ⟨m, hb⟩ := nonnegative_iff.1 hb
    obtain ⟨k, hc, one⟩ := exists_magnitude_factor finite factor
    obtain ⟨l, hd, one'⟩ := exists_magnitude_factor finite' factor'
    rw [hb.not_lt_iff ha] at le
    rw [hd.not_lt_iff hc] at le'
    rw [(hb.float_mul hd finite' one').not_lt_iff (ha.float_mul hc finite one)]
    exact min_le_min_right _ (productUnits_mono (Nat.mul_le_mul le le'))

end Double

end Extraction
