import Extraction.Proofs.Double.Fields

/-! Doubles that are not below zero, as whole numbers of the smallest positive one. They are ordered as
these numbers are, and the sum of two is the rounded sum of their numbers. -/
namespace Extraction.Double

open Float.Model Float.Model.UnpackedFloat

/-- The number that stands for infinity, which is the first one that is too large for a double. -/
def limit : Nat := 2 ^ 52 * 2 ^ exponentCount

/-- An unpacked double that is not below zero has this many smallest positive doubles. -/
inductive Magnitude : UnpackedFloat → Nat → Prop
  | zero (s : Sign) : Magnitude (.zero s) 0
  | finite {m k : Nat} (pos : 0 < m) (normal : Normal m k) (fits : k < exponentCount) :
    Magnitude (.finite .positive m (k - 1074) pos) (m * 2 ^ k)
  | infinity : Magnitude (.infinity .positive) limit

theorem Normal.lt_of_place_lt {m m' k k' : Nat} (h : Normal m k) (h' : Normal m' k') (less : k < k') :
    m * 2 ^ k < m' * 2 ^ k' := by
  have low : 2 ^ 52 ≤ m' := h'.full.resolve_left (by omega)
  calc m * 2 ^ k < 2 ^ 53 * 2 ^ k := Nat.mul_lt_mul_of_pos_right h.short (Nat.two_pow_pos _)
    _ = 2 ^ 52 * 2 ^ (k + 1) := by rw [← Nat.pow_add, ← Nat.pow_add]; congr 1; omega
    _ ≤ m' * 2 ^ k' := Nat.mul_le_mul low (Nat.pow_le_pow_right (by decide) less)

theorem Normal.lt_iff {m m' k k' : Nat} (h : Normal m k) (h' : Normal m' k') :
    m * 2 ^ k < m' * 2 ^ k' ↔ k < k' ∨ k = k' ∧ m < m' := by
  rcases Nat.lt_trichotomy k k' with less | rfl | greater
  · exact iff_of_true (h.lt_of_place_lt h' less) (.inl less)
  · rw [Nat.mul_lt_mul_right (Nat.two_pow_pos _)]
    omega
  · have := h'.lt_of_place_lt h greater
    exact iff_of_false (by omega) (by omega)

theorem normal_limit : Normal (2 ^ 52) exponentCount := ⟨by decide, .inr (le_refl _)⟩

theorem limit_pos : 0 < limit := Nat.mul_pos (by decide) (Nat.two_pow_pos _)

theorem Normal.lt_limit {m k : Nat} (h : Normal m k) (fits : k < exponentCount) : m * 2 ^ k < limit :=
  h.lt_of_place_lt normal_limit fits

theorem Magnitude.le_limit {u : UnpackedFloat} {n : Nat} (h : Magnitude u n) : n ≤ limit := by
  cases h with
  | zero => exact Nat.zero_le _
  | finite pos normal fits => exact (normal.lt_limit fits).le
  | infinity => exact le_refl _

/-- What a double holds is not changed by rounding. -/
theorem Magnitude.roundUnits_eq {u : UnpackedFloat} {n : Nat} (h : Magnitude u n) :
    roundUnits n = n := by
  cases h with
  | zero => rfl
  | finite pos normal fits => exact normal.roundUnits_eq
  | infinity => exact normal_limit.roundUnits_eq

/-- Doubles that are not below zero are compared as their numbers are. -/
theorem Magnitude.lt_iff {u v : UnpackedFloat} {n n' : Nat} (h : Magnitude u n)
    (h' : Magnitude v n') : u.lt v = true ↔ n < n' := by
  cases h with
  | zero s =>
    cases h' with
    | zero s' => simp [UnpackedFloat.lt, UnpackedFloat.compare]
    | finite pos normal fits => exact iff_of_true rfl (Nat.mul_pos pos (Nat.two_pow_pos _))
    | infinity => exact iff_of_true rfl limit_pos
  | finite pos normal fits =>
    cases h' with
    | zero s' => exact iff_of_false (by simp [UnpackedFloat.lt, UnpackedFloat.compare]) (by omega)
    | finite pos' normal' fits' =>
      rw [normal.lt_iff normal']
      simp only [UnpackedFloat.lt, UnpackedFloat.compare, beq_iff_eq, Option.some.injEq,
        Ordering.then_eq_lt, Int.compare_eq_lt, Int.compare_eq_eq, Nat.compare_eq_lt]
      omega
    | infinity => exact iff_of_true rfl (normal.lt_limit fits)
  | infinity =>
    have bound := h'.le_limit
    cases h' with
    | zero s' => exact iff_of_false (by simp [UnpackedFloat.lt, UnpackedFloat.compare]) (by omega)
    | finite pos normal fits =>
      exact iff_of_false (by simp [UnpackedFloat.lt, UnpackedFloat.compare]) (by omega)
    | infinity => exact iff_of_false (by decide) (by omega)

/-- The place of the last bit that is kept, from the mantissa and exponent alone. -/
theorem targetExponent_eq {m : Nat} (pos : 0 < m) (k : Nat) :
    Format.binary64.targetExponent (totalExponent m (k - 1074)) =
      (surplus (m * 2 ^ k) : Int) - 1074 := by
  rw [Format.targetExponent, totalExponent, mantissaBits_eq, minExponent_eq, surplus,
    log2_mul_pow pos]
  omega

theorem shiftToTargetExponent_eq {m : Nat} (pos : 0 < m) (k : Nat) :
    shiftToTargetExponent .binary64 m (k - 1074) .exact =
      (shifted m (surplus (m * 2 ^ k) - k), ((max k (surplus (m * 2 ^ k)) : Nat) : Int) - 1074) := by
  have places : ((surplus (m * 2 ^ k) : Int) - 1074 - (k - 1074)).toNat = surplus (m * 2 ^ k) - k := by
    omega
  simp only [shiftToTargetExponent, targetExponent_eq pos, shiftToExponent, places, shifted]
  congr 1
  omega

/-- A rounded mantissa with one bit too many is shifted once more, which loses nothing. -/
theorem exists_normal_of_rounded {r k : Nat} (pos : 0 < r) (most : r ≤ 2 ^ 53)
    (full : k = 0 ∨ 2 ^ 52 ≤ r) : ∃ m k', Normal m k' ∧ 0 < m ∧ m * 2 ^ k' = r * 2 ^ k ∧
      (shiftToTargetExponent .binary64 r (k - 1074) .exact).1.mantissa = m ∧
      (shiftToTargetExponent .binary64 r (k - 1074) .exact).2 = k' - 1074 := by
  rw [shiftToTargetExponent_eq pos]
  rcases Nat.eq_or_lt_of_le most with rfl | short
  · have places : surplus (2 ^ 53 * 2 ^ k) = k + 1 := surplus_mul_pow (by decide)
    refine ⟨2 ^ 52, k + 1, ⟨by decide, .inr (le_refl _)⟩, by decide, ?_, ?_, ?_⟩
    · ring
    · rw [places, Nat.add_sub_cancel_left, mantissa_shifted]
      rfl
    · rw [places, Nat.max_eq_right (Nat.le_succ k)]
  · have normal : Normal r k := ⟨short, full⟩
    refine ⟨r, k, normal, pos, rfl, ?_, ?_⟩
    · rw [normal.surplus_eq, Nat.sub_self, shifted_zero]
    · rw [normal.surplus_eq, Nat.max_self]

theorem roundWithAccuracy_eq {m k : Nat} (pos : 0 < m) (le : k ≤ surplus (m * 2 ^ k)) :
    ∃ m' k' pos', Normal m' k' ∧ m' * 2 ^ k' = roundUnits (m * 2 ^ k) ∧
      roundWithAccuracy .binary64 .positive m (k - 1074) .exact =
        .finite .positive m' (k' - 1074) pos' := by
  set n := m * 2 ^ k with hn
  have npos : 0 < n := Nat.mul_pos pos (Nat.two_pow_pos _)
  have rounded : (shifted m (surplus n - k)).roundedMantissa = roundAt n (surplus n) := by
    have := roundAt_mul_pow m (surplus n - k) k
    rw [Nat.add_sub_cancel' le, ← hn] at this
    exact this.symm
  have full : surplus n = 0 ∨ 2 ^ 52 ≤ roundAt n (surplus n) := or_iff_not_imp_left.2 le_roundAt_surplus
  have rpos : 0 < roundAt n (surplus n) := by
    rcases full with none | low
    · rw [none, roundAt_zero]
      exact npos
    · omega
  obtain ⟨m', k', normal, pos', value, mantissa, exponent⟩ :=
    exists_normal_of_rounded rpos (roundAt_surplus_le n) full
  refine ⟨m', k', pos', normal, value, ?_⟩
  rw [roundWithAccuracy, shiftToTargetExponent_eq pos]
  simp only [← hn, rounded, Nat.max_eq_right le, mantissa, exponent]
  rw [dif_neg pos'.ne']

/-- Rounding a number above zero gives a mantissa and exponent in canonical form. -/
theorem round_eq {m : Nat} (pos : 0 < m) (k : Nat) : ∃ m' k' pos', Normal m' k' ∧
    m' * 2 ^ k' = roundUnits (m * 2 ^ k) ∧
      UnpackedFloat.round .binary64 .positive m (k - 1074) = .finite .positive m' (k' - 1074) pos' := by
  set s := surplus (m * 2 ^ k) with hs
  have shift : ((k : Int) - 1074 - (s - 1074)).toNat = k - s := by omega
  have exponent : (k : Int) - 1074 - (k - s : Nat) = (min k s : Nat) - 1074 := by omega
  have value : m * 2 ^ (k - s) * 2 ^ min k s = m * 2 ^ k := by
    rw [Nat.mul_assoc, ← Nat.pow_add]
    congr 2
    omega
  have more : 0 < m * 2 ^ (k - s) := Nat.mul_pos pos (Nat.two_pow_pos _)
  obtain ⟨m', k', pos', normal, rounded, eq⟩ := roundWithAccuracy_eq (k := min k s) more (by
    rw [value, ← hs]
    exact Nat.min_le_right _ _)
  refine ⟨m', k', pos', normal, ?_, ?_⟩
  · rw [rounded, value]
  · rw [UnpackedFloat.round, targetExponent_eq pos, ← hs, decreaseExponent]
    simp only [shift, exponent, Nat.shiftLeft_eq]
    exact eq

end Extraction.Double
