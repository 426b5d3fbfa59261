import Mathlib.Data.Nat.Log
import Mathlib.Tactic.Ring
import Mathlib.Algebra.Order.Group.Nat

/-! Rounding to a mantissa of 53 bits, on whole numbers of the smallest positive double. It keeps the
order and leaves alone every number that a double can hold. -/
namespace Extraction.Double

open Float.Model Float.Model.UnpackedFloat

/-- A mantissa with its round and sticky bit, read as one number. -/
def quarters (em : ExtendedMantissa) : Nat :=
  4 * em.mantissa + 2 * em.roundBit.toNat + em.stickyBit.toNat

theorem quarters_shiftRightOne (em : ExtendedMantissa) :
    quarters em.shiftRightOne = 2 * (quarters em / 4) + min 1 (quarters em % 4) := by
  obtain ⟨m, round, sticky⟩ := em
  have half : (m % 2 != 0).toNat = m % 2 := by
    rcases Nat.mod_two_eq_zero_or_one m with h | h <;> simp [h]
  simp only [quarters, ExtendedMantissa.shiftRightOne, half]
  cases round <;> cases sticky <;> simp <;> omega

theorem roundedMantissa_eq (em : ExtendedMantissa) :
    em.roundedMantissa = (quarters em + 1 + quarters em / 4 % 2) / 4 := by
  obtain ⟨m, round, sticky⟩ := em
  have whole (r : Nat) (h : r < 4) : (4 * m + r) / 4 = m := by omega
  cases round <;> cases sticky <;>
    simp [quarters, ExtendedMantissa.roundedMantissa, ExtendedMantissa.accuracy,
      Accuracy.roundToNearestEven, Nat.add_assoc, whole] <;> omega

/-- A whole number with its last `s` bits shifted out. -/
def shifted (n s : Nat) : ExtendedMantissa := ExtendedMantissa.ofMantissaAndAccuracy n .exact >>> s

theorem shifted_zero (n : Nat) : shifted n 0 = ⟨n, false, false⟩ := rfl

theorem shifted_succ (n s : Nat) : shifted n (s + 1) = (shifted n s).shiftRightOne := rfl

theorem quarters_shifted_mono {n m : Nat} (le : n ≤ m) (s : Nat) :
    quarters (shifted n s) ≤ quarters (shifted m s) := by
  induction s with
  | zero =>
    simp only [shifted_zero, quarters]
    omega
  | succ s ih =>
    rw [shifted_succ, shifted_succ, quarters_shiftRightOne, quarters_shiftRightOne]
    omega

theorem mantissa_shifted (n s : Nat) : (shifted n s).mantissa = n / 2 ^ s := by
  induction s with
  | zero => simp [shifted_zero]
  | succ s ih =>
    rw [shifted_succ, Nat.pow_succ, ← Nat.div_div_eq_div_mul, ← ih]
    rfl

/-- Zeros that are shifted out leave no trace. -/
theorem shifted_mul_pow (n s k : Nat) : shifted (n * 2 ^ k) (k + s) = shifted n s := by
  induction s with
  | zero =>
    induction k generalizing n with
    | zero => simp
    | succ k ih =>
      have again : shifted (n * 2 ^ (k + 1)) k = shifted (2 * n) 0 := by
        rw [show n * 2 ^ (k + 1) = 2 * n * 2 ^ k by ring]
        exact ih (2 * n)
      rw [Nat.add_zero, shifted_succ, again, shifted_zero, shifted_zero]
      simp [ExtendedMantissa.shiftRightOne]
  | succ s ih => rw [← Nat.add_assoc, shifted_succ, ih, shifted_succ]

/-- A whole number rounded to the nearest multiple of `2 ^ s`, counted in such multiples. -/
def roundAt (n s : Nat) : Nat := (shifted n s).roundedMantissa

theorem roundAt_zero (n : Nat) : roundAt n 0 = n := rfl

theorem roundAt_mono {n m : Nat} (le : n ≤ m) (s : Nat) : roundAt n s ≤ roundAt m s := by
  have quarters := quarters_shifted_mono le s
  rw [roundAt, roundAt, roundedMantissa_eq, roundedMantissa_eq]
  -- A tie is broken by the mantissa, so the mantissas are compared first.
  rcases Nat.eq_or_lt_of_le (Nat.div_le_div_right (c := 4) quarters) with same | less
  · rw [same]
    omega
  · omega

theorem roundAt_mul_pow (n s k : Nat) : roundAt (n * 2 ^ k) (k + s) = roundAt n s := by
  rw [roundAt, shifted_mul_pow, roundAt]

theorem div_le_roundAt (n s : Nat) : n / 2 ^ s ≤ roundAt n s := by
  rw [← mantissa_shifted, roundAt, roundedMantissa_eq, quarters]
  omega

theorem roundAt_le_div (n s : Nat) : roundAt n s ≤ n / 2 ^ s + 1 := by
  have round := Bool.toNat_le (shifted n s).roundBit
  have sticky := Bool.toNat_le (shifted n s).stickyBit
  rw [← mantissa_shifted, roundAt, roundedMantissa_eq, quarters]
  omega

/-- How many bits of a whole number do not fit into a mantissa of 53 bits. -/
def surplus (n : Nat) : Nat := n.log2 - 52

/-- A whole number rounded to a mantissa of 53 bits. -/
def roundUnits (n : Nat) : Nat := roundAt n (surplus n) * 2 ^ surplus n

/-- A mantissa of at most 53 bits, which has all of them unless it stands in the last place. -/
structure Normal (m k : Nat) : Prop where
  short : m < 2 ^ 53
  full : k = 0 ∨ 2 ^ 52 ≤ m

theorem log2_mul_pow {m : Nat} (pos : 0 < m) (k : Nat) : (m * 2 ^ k).log2 = m.log2 + k := by
  have bounds := (Nat.log2_eq_iff pos.ne').1 rfl
  refine (Nat.log2_eq_iff (Nat.mul_pos pos (Nat.two_pow_pos _)).ne').2 ⟨?_, ?_⟩
  · rw [Nat.pow_add]
    exact Nat.mul_le_mul_right _ bounds.1
  · rw [show m.log2 + k + 1 = m.log2 + 1 + k by omega, Nat.pow_add]
    exact Nat.mul_lt_mul_of_pos_right bounds.2 (Nat.two_pow_pos _)

theorem surplus_mul_pow {m k : Nat} (low : 2 ^ 52 ≤ m) : surplus (m * 2 ^ k) = k + surplus m := by
  have least : 52 ≤ m.log2 := (Nat.le_log2 (by omega)).2 low
  rw [surplus, surplus, log2_mul_pow (by omega)]
  omega

theorem surplus_eq_zero {m : Nat} (high : m < 2 ^ 53) : surplus m = 0 := by
  rcases Nat.eq_zero_or_pos m with rfl | pos
  · rfl
  · have : m.log2 < 53 := (Nat.log2_lt (by omega)).2 high
    unfold surplus
    omega

theorem Normal.surplus_eq {m k : Nat} (h : Normal m k) : surplus (m * 2 ^ k) = k := by
  obtain ⟨short, rfl | low⟩ := h
  · rw [Nat.pow_zero, Nat.mul_one, surplus_eq_zero short]
  · rw [surplus_mul_pow low, surplus_eq_zero short, Nat.add_zero]

theorem Normal.roundUnits_eq {m k : Nat} (h : Normal m k) : roundUnits (m * 2 ^ k) = m * 2 ^ k := by
  have exact_ := roundAt_mul_pow m 0 k
  rw [Nat.add_zero, roundAt_zero] at exact_
  rw [roundUnits, h.surplus_eq, exact_]

theorem surplus_le_log2 (n : Nat) : surplus n ≤ n.log2 := Nat.sub_le _ _

/-- Rounding does not leave the interval between two powers of two. -/
theorem pow_log2_le_roundUnits {n : Nat} (nonzero : n ≠ 0) : 2 ^ n.log2 ≤ roundUnits n := by
  have split : 2 ^ n.log2 = 2 ^ (n.log2 - surplus n) * 2 ^ surplus n := by
    rw [← Nat.pow_add, Nat.sub_add_cancel (surplus_le_log2 n)]
  have least : 2 ^ (n.log2 - surplus n) ≤ n / 2 ^ surplus n := by
    rw [Nat.le_div_iff_mul_le (Nat.two_pow_pos _), ← split]
    exact Nat.log2_self_le nonzero
  calc 2 ^ n.log2 = 2 ^ (n.log2 - surplus n) * 2 ^ surplus n := split
    _ ≤ n / 2 ^ surplus n * 2 ^ surplus n := Nat.mul_le_mul_right _ least
    _ ≤ roundUnits n := Nat.mul_le_mul_right _ (div_le_roundAt n _)

theorem roundUnits_le_pow (n : Nat) : roundUnits n ≤ 2 ^ (n.log2 + 1) := by
  have := surplus_le_log2 n
  have split : 2 ^ (n.log2 + 1) = 2 ^ (n.log2 + 1 - surplus n) * 2 ^ surplus n := by
    rw [← Nat.pow_add, Nat.sub_add_cancel (by omega)]
  have most : n / 2 ^ surplus n < 2 ^ (n.log2 + 1 - surplus n) := by
    rw [Nat.div_lt_iff_lt_mul (Nat.two_pow_pos _), ← split]
    exact Nat.lt_log2_self
  calc roundUnits n ≤ (n / 2 ^ surplus n + 1) * 2 ^ surplus n :=
        Nat.mul_le_mul_right _ (roundAt_le_div n _)
    _ ≤ 2 ^ (n.log2 + 1 - surplus n) * 2 ^ surplus n := Nat.mul_le_mul_right _ most
    _ = 2 ^ (n.log2 + 1) := split.symm

/-- What is left of at most 53 bits is at most one too many. -/
theorem roundAt_le_of_log2 {n s : Nat} (le : n.log2 ≤ 52 + s) : roundAt n s ≤ 2 ^ 53 := by
  have most : n / 2 ^ s < 2 ^ 53 := by
    rw [Nat.div_lt_iff_lt_mul (Nat.two_pow_pos _), ← Nat.pow_add]
    exact lt_of_lt_of_le Nat.lt_log2_self (Nat.pow_le_pow_right (by decide) (by omega))
  exact le_trans (roundAt_le_div n _) most

theorem le_roundAt_of_log2 {n s : Nat} (nonzero : n ≠ 0) (le : 52 + s ≤ n.log2) :
    2 ^ 52 ≤ roundAt n s := by
  refine le_trans ?_ (div_le_roundAt n _)
  rw [Nat.le_div_iff_mul_le (Nat.two_pow_pos _), ← Nat.pow_add]
  exact le_trans (Nat.pow_le_pow_right (by decide) le) (Nat.log2_self_le nonzero)

theorem roundAt_surplus_le (n : Nat) : roundAt n (surplus n) ≤ 2 ^ 53 := by
  apply roundAt_le_of_log2
  unfold surplus
  omega

theorem le_roundAt_surplus {n : Nat} (long : surplus n ≠ 0) : 2 ^ 52 ≤ roundAt n (surplus n) := by
  apply le_roundAt_of_log2
  · rintro rfl
    exact long rfl
  · unfold surplus at *
    omega

theorem roundUnits_mono {n m : Nat} (le : n ≤ m) : roundUnits n ≤ roundUnits m := by
  rcases Nat.eq_zero_or_pos n with rfl | pos
  · exact Nat.zero_le _
  have logs : n.log2 ≤ m.log2 := (Nat.le_log2 (by omega)).2 (le_trans (Nat.log2_self_le (by omega)) le)
  -- Either both keep the same bits, or a power of two lies between the results.
  rcases Nat.eq_or_lt_of_le logs with same | less
  · have places : surplus n = surplus m := by rw [surplus, surplus, same]
    rw [roundUnits, roundUnits, places]
    exact Nat.mul_le_mul_right _ (roundAt_mono le _)
  · calc roundUnits n ≤ 2 ^ (n.log2 + 1) := roundUnits_le_pow n
      _ ≤ 2 ^ m.log2 := Nat.pow_le_pow_right (by decide) less
      _ ≤ roundUnits m := pow_log2_le_roundUnits (by omega)

end Extraction.Double
