import Mathlib
import Extraction.Proofs.Double.Rounding

/-! The bit fields of a double and the number they stand for. A finite number in canonical form is a double
and survives being packed, unless its exponent is too large. -/
namespace Extraction.Double

open Float.Model Float.Model.UnpackedFloat

/-- How many exponents the finite doubles have. -/
def exponentCount : Nat := 2046

/-- What doubles are unpacked to. -/
def Unpackable : UnpackedFloat → Prop
  | .finite _ m e _ => ∃ k : Nat, e = k - 1074 ∧ Normal m k ∧ k < exponentCount
  | _ => True

theorem exponentBias_eq : Format.binary64.exponentBias = 1023 := rfl

theorem mantissaBits_eq : Format.binary64.mantissaBits = 53 := rfl

theorem minExponent_eq : Format.binary64.minExponent = -1074 := rfl

/-- The double with these fields. -/
def ofFields (s : Sign) (e : BitVec 11) (m : BitVec 52) : UnpackedFloat :=
  if e = -1#11 then
    if m = 0#52 then .infinity s else .notANumber
  else if e = 0#11 then
    if h : m = 0#52 then .zero s
    else .finite s m.toNat (-1074) (by simpa [BitVec.toNat_pos, BitVec.pos_iff_ne_zero])
  else .finite s (2 ^ 52 + m.toNat) (e.toNat - 1075) (by omega)

theorem toNat_implicit_bit (m : BitVec 52) : (1#1 ++ m).toNat = 2 ^ 52 + m.toNat := by
  rw [BitVec.toNat_append, ← Nat.shiftLeft_add_eq_or_of_lt m.isLt]
  rfl

theorem unpack_eq_ofFields (b : BitVec 64) :
    UnpackedFloat.unpack .binary64 b = ofFields (Sign.ofBitVec (@unpackSign .binary64 b))
      (@unpackExponent .binary64 b) (@unpackMantissa .binary64 b) := by
  rw [UnpackedFloat.unpack]
  simp only [ofFields, exponentBias_eq, toNat_implicit_bit]
  by_cases ones : @unpackExponent .binary64 b = -1#11
  · simp [ones]
  by_cases zeros : @unpackExponent .binary64 b = 0#11
  · simp [zeros]
  · simp [zeros]

theorem unpack_packComponents (s : Sign) (e : BitVec 11) (m : BitVec 52) :
    UnpackedFloat.unpack .binary64 (packComponents .binary64 s e m) = ofFields s e m := by
  rw [unpack_eq_ofFields, unpackSign_packComponents, Sign.ofBitVec_toBitVec,
    unpackExponent_packComponents, unpackMantissa_packComponents]

theorem toNat_ne_ones {e : BitVec 11} (h : e ≠ -1#11) : e.toNat ≠ 2047 :=
  fun same => h (BitVec.eq_of_toNat_eq same)

theorem toNat_ne_zero {w : Nat} {v : BitVec w} (h : v ≠ 0#w) : v.toNat ≠ 0 :=
  fun same => h (BitVec.eq_of_toNat_eq (by simpa using same))

theorem exists_toNat_eq {w n : Nat} (h : n < 2 ^ w) : ∃ v : BitVec w, v.toNat = n :=
  ⟨BitVec.ofNat w n, by rw [BitVec.toNat_ofNat, Nat.mod_eq_of_lt h]⟩

theorem ofFields_subnormal (s : Sign) {m : BitVec 52} (nonzero : m ≠ 0#52) :
    ∃ pos, ofFields s 0#11 m = .finite s m.toNat (-1074) pos := by
  refine ⟨Nat.pos_of_ne_zero (toNat_ne_zero nonzero), ?_⟩
  rw [ofFields, if_neg (by decide), if_pos rfl, dif_neg nonzero]

theorem ofFields_normal (s : Sign) {e : BitVec 11} (m : BitVec 52) (ones : e ≠ -1#11)
    (zeros : e ≠ 0#11) :
    ∃ pos, ofFields s e m = .finite s (2 ^ 52 + m.toNat) (e.toNat - 1075) pos := by
  refine ⟨by omega, ?_⟩
  rw [ofFields, if_neg ones, if_neg zeros]

theorem unpackable_ofFields (s : Sign) (e : BitVec 11) (m : BitVec 52) :
    Unpackable (ofFields s e m) := by
  have mantissa := m.isLt
  have exponent := e.isLt
  by_cases ones : e = -1#11
  · rw [ofFields, if_pos ones]
    split <;> trivial
  by_cases zeros : e = 0#11
  · by_cases zero : m = 0#52
    · rw [zeros, zero]
      trivial
    · obtain ⟨pos, eq⟩ := ofFields_subnormal s zero
      rw [zeros, eq]
      exact ⟨0, rfl, ⟨by omega, .inl rfl⟩, by decide⟩
  · obtain ⟨pos, eq⟩ := ofFields_normal s m ones zeros
    have fits := toNat_ne_ones ones
    have nonzero := toNat_ne_zero zeros
    rw [eq]
    refine ⟨e.toNat - 1, by omega, ⟨by omega, .inr (by omega)⟩, ?_⟩
    rw [exponentCount]
    omega

theorem unpackable_unpack (x : Float.Model) : Unpackable x.unpack := by
  rw [Float.Model.unpack, unpack_eq_ofFields]
  exact unpackable_ofFields _ _ _

/-- Every finite number in canonical form is a double unless its exponent is too large. -/
theorem Normal.exists_fields {m k : Nat} (h : Normal m k) (fits : k < exponentCount) (s : Sign)
    (pos : 0 < m) : ∃ e' m', .finite s m (k - 1074) pos = ofFields s e' m' ∧ e' ≠ -1#11 := by
  have short := h.short
  rw [exponentCount] at fits
  by_cases full : 2 ^ 52 ≤ m
  · obtain ⟨e', exponent⟩ := exists_toNat_eq (w := 11) (n := k + 1) (by omega)
    obtain ⟨m', mantissa⟩ := exists_toNat_eq (w := 52) (n := m - 2 ^ 52) (by omega)
    have ones : e' ≠ -1#11 := by
      rintro rfl
      have : (-1#11).toNat = 2047 := rfl
      omega
    have zeros : e' ≠ 0#11 := by
      rintro rfl
      have : (0#11).toNat = 0 := rfl
      omega
    obtain ⟨_, eq⟩ := ofFields_normal s m' ones zeros
    have number : 2 ^ 52 + m'.toNat = m := by omega
    have place : (e'.toNat : Int) - 1075 = k - 1074 := by omega
    refine ⟨e', m', ?_, ones⟩
    rw [eq]
    simp only [number, place]
  · obtain rfl : k = 0 := h.full.resolve_right full
    obtain ⟨m', rfl⟩ := exists_toNat_eq (w := 52) (n := m) (by omega)
    have nonzero : m' ≠ 0#52 := by
      rintro rfl
      exact absurd pos (by decide)
    obtain ⟨_, eq⟩ := ofFields_subnormal s nonzero
    exact ⟨0#11, m', eq.symm, by decide⟩

theorem unpack_pack_eq (u : UnpackedFloat) : (Float.Model.pack u).unpack =
    UnpackedFloat.unpack .binary64 (UnpackedFloat.pack .binary64 u) := rfl

/-- What doubles are unpacked to survives being packed. -/
theorem unpack_pack {u : UnpackedFloat} (h : Unpackable u) : (Float.Model.pack u).unpack = u := by
  cases u with
  | infinity s => cases s <;> rfl
  | notANumber => rfl
  | zero s => cases s <;> rfl
  | finite s m e pos =>
    obtain ⟨k, rfl, normal, fits⟩ := h
    obtain ⟨e', m', eq, ones⟩ := normal.exists_fields fits s pos
    have valid : Format.binary64.Valid (packComponents .binary64 s e' m') := by
      refine ⟨fun exponent => absurd ?_ ones⟩
      rwa [unpackExponent_packComponents] at exponent
    rw [unpack_pack_eq, eq, ← unpack_packComponents, pack_unpack_of_valid valid]

/-- A number whose exponent is too large becomes infinite. -/
theorem unpack_pack_of_overflow {m k : Nat} (h : exponentCount ≤ k) (s : Sign) (pos : 0 < m) :
    (Float.Model.pack (.finite s m (k - 1074) pos)).unpack = .infinity s := by
  have large : 2047 ≤ ((k : Int) - 1074 + 1023 + 52).toNat := by
    rw [exponentCount] at h
    omega
  have packed : UnpackedFloat.pack .binary64 (.finite s m (k - 1074) pos) =
      packedInfinity .binary64 s := by
    simp [UnpackedFloat.pack, exponentBias_eq, large]
  rw [unpack_pack_eq, packed]
  cases s <;> rfl

/-- The bits of a double are those that it is packed into. -/
theorem pack_model_unpack (x : Float.Model) : Float.Model.pack x.unpack = x := by
  obtain ⟨bits, valid⟩ := x
  simp only [Float.Model.pack, Float.Model.unpack, pack_unpack_of_valid valid]

end Extraction.Double
