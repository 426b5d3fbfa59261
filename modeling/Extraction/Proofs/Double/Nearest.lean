import Extraction.Proofs.Double.Counting
import Extraction.Proofs.Double.Order

/-! The whole number nearest to a double. A half goes away from zero, above zero and below; so 0 is nearest to the
doubles strictly between the halves next to it, and 1 to those from one half on and below the next. -/
namespace Extraction.Double

open Float.Model Float.Model.UnpackedFloat

/-- One half is this power of two in units of the smallest positive double. -/
def halfPlace : Nat := 1073

/-- The whole number nearest to so many of the smallest positive doubles. -/
def nearest (n : Nat) : Nat := (n + 2 ^ halfPlace) / 2 ^ onePlace

/-- The whole number nearest to a finite double, a half going away from zero. -/
def nearestWhole? (x : Float) : Option Int :=
  match x.toModel.unpack with
  | .zero _ => some 0
  | .finite s m e _ => some (s.apply (nearest (m * 2 ^ (e + onePlace).toNat)))
  | _ => none

theorem two_pow_onePlace : 2 ^ onePlace = 2 * 2 ^ halfPlace := by
  rw [show onePlace = halfPlace + 1 from rfl, Nat.pow_succ, Nat.mul_comm]

theorem nearest_eq_iff {n m : Nat} : nearest n = m ↔
    2 * (2 ^ halfPlace * m) ≤ n + 2 ^ halfPlace ∧ n < 2 * (2 ^ halfPlace * m) + 2 ^ halfPlace := by
  have pos : 0 < 2 * 2 ^ halfPlace := Nat.mul_pos (by decide) (Nat.two_pow_pos _)
  rw [nearest, two_pow_onePlace, Nat.div_eq_iff pos, Nat.mul_comm m, Nat.mul_assoc]
  generalize 2 ^ halfPlace = half at *
  omega

theorem magnitude_half : Magnitude (0.5 : Float).toModel.unpack (2 ^ halfPlace) := by
  have normal : Normal (2 ^ 52) 1021 := ⟨by decide, .inr (le_refl _)⟩
  rw [show halfPlace = 52 + 1021 from rfl, pow_add]
  exact .finite (by decide) normal (by decide)

theorem magnitude_three_halves : Magnitude (1.5 : Float).toModel.unpack (3 * 2 ^ halfPlace) := by
  have normal : Normal (3 * 2 ^ 51) 1022 := ⟨by decide, .inr (by decide)⟩
  have value : 3 * 2 ^ halfPlace = 3 * 2 ^ 51 * 2 ^ 1022 := by
    rw [show halfPlace = 51 + 1022 from rfl, pow_add, mul_assoc]
  have magnitude := Magnitude.finite (by decide) normal (by decide)
  rw [← value] at magnitude
  exact magnitude

theorem unpack_neg_half :
    (-0.5 : Float).toModel.unpack = .finite .negative (2 ^ 52) (1021 - 1074) (by decide) := rfl

theorem unpack_half : (0.5 : Float).toModel.unpack = .finite .positive (2 ^ 52) (1021 - 1074) (by decide) := rfl

/-- Below zero, the greater magnitude is the lesser number. -/
theorem lt_negative {m m' : Nat} {e e' : Int} (pos : 0 < m) (pos' : 0 < m') :
    (UnpackedFloat.finite .negative m' e' pos').lt (.finite .negative m e pos) =
      (UnpackedFloat.finite .positive m e pos).lt (.finite .positive m' e' pos') := by
  rw [Bool.eq_iff_iff, lt_iff_rank, lt_iff_rank]
  simp [rank, UnpackedFloat.isNaN, Prod.Lex.toLex_lt_toLex]
  omega

theorem Magnitude.neg_half_lt {u : UnpackedFloat} {n : Nat} (h : Magnitude u n) :
    (UnpackedFloat.finite .negative (2 ^ 52) (1021 - 1074) (by decide)).lt u = true := by
  cases h <;> rfl

theorem le_iff_not_lt {u v : UnpackedFloat} (number : u.isNaN = false) (number' : v.isNaN = false) :
    u.le v = true ↔ ¬ v.lt u = true := by
  rw [le_iff_rank, lt_iff_rank]
  simp [number, number']

/-- A double of this sign and magnitude, by how it compares to the halves. -/
structure Halves (x : Float) (s : Sign) (n : Nat) : Prop where
  whole : nearestWhole? x = some (s.apply (nearest n))
  above : -0.5 < x ↔ s = .positive ∨ n < 2 ^ halfPlace
  up : 0.5 ≤ x ↔ s = .positive ∧ 2 ^ halfPlace ≤ n
  below : x < 1.5 ↔ s = .negative ∨ n < 3 * 2 ^ halfPlace

variable {x : Float} {n m k : Nat}

theorem nearestWhole?_of_finite {s : Sign} {pos : 0 < m}
    (unpacked : x.toModel.unpack = .finite s m (k - 1074) pos) :
    nearestWhole? x = some (s.apply (nearest (m * 2 ^ k))) := by
  have place : ((k : Int) - 1074 + onePlace).toNat = k := by
    unfold onePlace
    omega
  rw [nearestWhole?, unpacked]
  dsimp only
  rw [place]

theorem Magnitude.halves (h : Magnitude x.toModel.unpack n)
    (whole : nearestWhole? x = some ((nearest n : Nat) : Int)) : Halves x .positive n where
  whole := whole
  above := by
    rw [lt_iff_unpack, unpack_neg_half]
    exact iff_of_true h.neg_half_lt (.inl rfl)
  up := by
    rw [le_iff_unpack, le_iff_not_lt magnitude_half.isNaN h.isNaN, h.lt_iff magnitude_half]
    simp
  below := by
    rw [lt_iff_unpack, h.lt_iff magnitude_three_halves]
    simp

theorem Normal.halves (h : Normal m k) (fits : k < exponentCount) (pos : 0 < m)
    (unpacked : x.toModel.unpack = .finite .negative m (k - 1074) pos) :
    Halves x .negative (m * 2 ^ k) where
  whole := nearestWhole?_of_finite unpacked
  above := by
    have half := magnitude_half
    rw [unpack_half] at half
    rw [lt_iff_unpack, unpack_neg_half, unpacked, lt_negative, (Magnitude.finite pos h fits).lt_iff half]
    simp
  up := by
    rw [le_iff_unpack, unpacked, unpack_half]
    exact iff_of_false nofun nofun
  below := by
    rw [lt_iff_unpack, unpacked]
    exact iff_of_true rfl (.inl rfl)

theorem exists_halves (x : Float) :
    (∃ s n, Halves x s n) ∨ nearestWhole? x = none ∧ ¬ (-0.5 < x ∧ x < 1.5) := by
  have unpackable := unpackable_unpack x.toModel
  cases unpacked : x.toModel.unpack with
  | infinity s =>
    refine .inr ⟨by rw [nearestWhole?, unpacked], ?_⟩
    rw [lt_iff_unpack, lt_iff_unpack, unpacked]
    cases s
    · exact fun within => Bool.false_ne_true within.1
    · exact fun within => Bool.false_ne_true within.2
  | notANumber =>
    refine .inr ⟨by rw [nearestWhole?, unpacked], ?_⟩
    rw [lt_iff_unpack, unpacked]
    exact fun within => Bool.false_ne_true within.1
  | zero s =>
    refine .inl ⟨.positive, 0, Magnitude.halves (unpacked ▸ .zero s) ?_⟩
    have nothing : nearest 0 = 0 := nearest_eq_iff.2 (by simp)
    rw [nearestWhole?, unpacked, nothing]
    rfl
  | finite s m e pos =>
    rw [unpacked] at unpackable
    obtain ⟨k, rfl, normal, fits⟩ := unpackable
    cases s with
    | negative => exact .inl ⟨_, _, normal.halves fits pos unpacked⟩
    | positive =>
      have magnitude := Magnitude.finite pos normal fits
      rw [← unpacked] at magnitude
      exact .inl ⟨_, _, magnitude.halves (nearestWhole?_of_finite unpacked)⟩

/-- The nearest whole number is 0 or 1 for the doubles between these two halves. -/
theorem between_iff : -0.5 < x ∧ x < 1.5 ↔ nearestWhole? x = some 0 ∨ nearestWhole? x = some 1 := by
  obtain ⟨s, n, h⟩ | ⟨nothing, outside⟩ := exists_halves x
  · have zero := nearest_eq_iff (n := n) (m := 0)
    have one := nearest_eq_iff (n := n) (m := 1)
    rw [h.above, h.below, h.whole]
    generalize 2 ^ halfPlace = half at *
    cases s <;> simp [Sign.apply] <;> omega
  · simp [nothing, outside]

theorem half_le_iff (between : -0.5 < x ∧ x < 1.5) : 0.5 ≤ x ↔ nearestWhole? x = some 1 := by
  obtain ⟨s, n, h⟩ | ⟨_, outside⟩ := exists_halves x
  · have one := nearest_eq_iff (n := n) (m := 1)
    rw [h.above, h.below] at between
    rw [h.up, h.whole]
    generalize 2 ^ halfPlace = half at *
    cases s <;> simp [Sign.apply] at between ⊢ <;> omega
  · exact absurd between outside

end Extraction.Double
