import Extraction.Proofs.Cost.Counting
import Extraction.Proofs.Double.Product

/-! Counting with doubles. A whole number below `2 ^ 53` is a double, so adding one to it loses nothing
until that bound; a double above zero is known by its magnitude. -/
namespace Extraction.Double

open Float.Model Float.Model.UnpackedFloat

/-- Rounding leaves a number alone whose surplus bits are zeros. -/
theorem roundUnits_of_dvd {n : Nat} (zeros : 2 ^ surplus n ∣ n) : roundUnits n = n := by
  obtain ⟨m, value⟩ := zeros
  have whole := roundAt_mul_pow m 0 (surplus n)
  rw [Nat.add_zero, roundAt_zero, Nat.mul_comm, ← value] at whole
  rw [roundUnits, whole, Nat.mul_comm, ← value]

/-- The number one is this power of two in units of the smallest positive double. -/
def onePlace : Nat := 1074

/-- A whole number in units of the smallest positive double. -/
def units (n : Nat) : Nat := n * 2 ^ onePlace

theorem units_zero : units 0 = 0 := Nat.zero_mul _

theorem units_lt_iff {n m : Nat} : units n < units m ↔ n < m :=
  Nat.mul_lt_mul_right (Nat.two_pow_pos _)

theorem units_pos {n : Nat} (pos : 0 < n) : 0 < units n := Nat.mul_pos pos (Nat.two_pow_pos _)

theorem units_add (n m : Nat) : units (n + m) = units n + units m := Nat.add_mul n m _

theorem units_lt_limit {n : Nat} (small : n < 2 ^ 53) : units n < limit := by
  have places : 53 + onePlace ≤ 52 + exponentCount := by decide
  calc units n < 2 ^ 53 * 2 ^ onePlace := Nat.mul_lt_mul_of_pos_right small (Nat.two_pow_pos _)
    _ = 2 ^ (53 + onePlace) := by rw [← Nat.pow_add]
    _ ≤ 2 ^ (52 + exponentCount) := Nat.pow_le_pow_right (by decide) places
    _ = limit := by rw [limit, ← Nat.pow_add]

/-- A whole number below `2 ^ 53` has room in a mantissa. -/
theorem rounded_units {n : Nat} (small : n < 2 ^ 53) : rounded (units n) = units n := by
  have room : surplus (units n) ≤ onePlace := by
    rcases Nat.eq_zero_or_pos n with rfl | pos
    · rw [units_zero]
      exact Nat.zero_le _
    · have short : n.log2 < 53 := (Nat.log2_lt pos.ne').2 small
      rw [units, surplus, log2_mul_pow pos]
      omega
  have whole : roundUnits (units n) = units n :=
    roundUnits_of_dvd (Dvd.dvd.mul_left (Nat.pow_dvd_pow 2 room) n)
  rw [rounded, whole, Nat.min_eq_left (units_lt_limit small).le]

/-- A whole number below `2 ^ 53` becomes a double without loss. -/
theorem magnitude_toFloat {n : Nat} (small : n < 2 ^ 53) :
    Magnitude n.toUInt64.toFloat.toModel.unpack (units n) := by
  have word : n.toUInt64.toNat = n := Nat.mod_eq_of_lt (by omega)
  have unfolded : n.toUInt64.toFloat.toModel.unpack = (Float.Model.pack
      (UnpackedFloat.normalize .binary64 (n.toUInt64.toNat : Int) 0 .positive)).unpack := rfl
  rw [unfolded, word]
  rcases Nat.eq_zero_or_pos n with rfl | pos
  · rw [units_zero]
    exact .zero .positive
  · have above : compare (n : Int) 0 = .gt := Int.compare_eq_gt.2 (by omega)
    obtain ⟨m, k, mpos, normal, value, eq⟩ := round_eq pos onePlace
    have packed : UnpackedFloat.normalize .binary64 n 0 .positive = .finite .positive m (k - 1074) mpos := by
      rw [← eq, UnpackedFloat.normalize, above]
      rfl
    have exactly : units n = min (m * 2 ^ k) limit := by
      rw [← rounded_units small, rounded, value]
      rfl
    rw [packed, exactly]
    exact normal.magnitude_pack mpos

theorem Normal.eq {m m' k k' : Nat} (h : Normal m k) (h' : Normal m' k')
    (same : m * 2 ^ k = m' * 2 ^ k') : m = m' ∧ k = k' := by
  have first := h.lt_iff h'
  have second := h'.lt_iff h
  rw [same] at first second
  omega

/-- Doubles above zero of one magnitude are the same. -/
theorem Magnitude.unique {a b : Float} {n : Nat} (h : Magnitude a.toModel.unpack n)
    (h' : Magnitude b.toModel.unpack n) (pos : 0 < n) : a = b := by
  have unpacked : a.toModel.unpack = b.toModel.unpack := by
    revert h h' pos
    generalize a.toModel.unpack = u
    generalize b.toModel.unpack = v
    intro h h' pos
    cases h with
    | zero => exact absurd pos (Nat.lt_irrefl 0)
    | finite mpos normal fits =>
      generalize value : _ * 2 ^ _ = n at h'
      cases h' with
      | zero => exact absurd pos (by omega)
      | finite mpos' normal' fits' =>
        obtain ⟨rfl, rfl⟩ := normal.eq normal' value
        rfl
      | infinity => exact absurd value (normal.lt_limit fits).ne
    | infinity =>
      generalize value : limit = n at h'
      cases h' with
      | zero => exact absurd value limit_pos.ne'
      | finite mpos' normal' fits' => exact absurd value.symm (normal'.lt_limit fits').ne
      | infinity => rfl
  have models : a.toModel = b.toModel := by
    rw [← pack_model_unpack a.toModel, unpacked, pack_model_unpack]
  cases a
  cases b
  exact congrArg Float.ofModel models

theorem magnitude_count_add_one {n : Nat} (small : n + 1 < 2 ^ 53) :
    Magnitude (n.toUInt64.toFloat + 1).toModel.unpack (units (n + 1)) := by
  have one : Magnitude (1 : Float).toModel.unpack (units 1) := by
    rw [units, Nat.one_mul, onePlace]
    exact magnitude_one
  have sum := (magnitude_toFloat (by omega : n < 2 ^ 53)).float_add one
  rwa [← units_add, rounded_units small] at sum

/-- Doubles count without loss below `2 ^ 53`. -/
theorem counts : Counts (fun n => n.toUInt64.toFloat) (2 ^ 53) where
  nonnegative small := nonnegative_iff.2 ⟨_, magnitude_toFloat small⟩
  zero := by decide +kernel
  succ small := (magnitude_count_add_one small).unique (magnitude_toFloat small)
    (units_pos (Nat.succ_pos _))
  lt_iff small small' := by
    rw [← not_iff_not, (magnitude_toFloat small).not_lt_iff (magnitude_toFloat small'), ← Nat.not_lt,
      units_lt_iff]
  eq_of_not_lt positive pos small first second := by
    obtain ⟨m, magnitude⟩ := nonnegative_iff.1 positive
    have count := magnitude_toFloat small
    have same : m = units _ :=
      Nat.le_antisymm ((count.not_lt_iff magnitude).1 second) ((magnitude.not_lt_iff count).1 first)
    rw [same] at magnitude
    exact magnitude.unique count (units_pos pos)

end Extraction.Double
