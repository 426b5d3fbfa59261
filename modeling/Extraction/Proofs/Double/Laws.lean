import Extraction.Proofs.Cost.Laws
import Extraction.Proofs.Double.Sum

/-! Doubles obey the laws of costs: a sum of doubles is rounded, but it falls below no summand and
keeps the order of its summands, up to infinity. -/
namespace Extraction.Double

open Float.Model Float.Model.UnpackedFloat

/-- A whole number as the double closest to it, or infinity. -/
def rounded (n : Nat) : Nat := min (roundUnits n) limit

theorem rounded_mono {n m : Nat} (le : n ≤ m) : rounded n ≤ rounded m :=
  min_le_min_right _ (roundUnits_mono le)

theorem Magnitude.rounded_eq {u : UnpackedFloat} {n : Nat} (h : Magnitude u n) : rounded n = n := by
  rw [rounded, h.roundUnits_eq, Nat.min_eq_left h.le_limit]

theorem Magnitude.unpack_pack {u : UnpackedFloat} {n : Nat} (h : Magnitude u n) :
    (Float.Model.pack u).unpack = u := by
  apply Double.unpack_pack
  cases h with
  | zero => trivial
  | finite pos normal fits => exact ⟨_, rfl, normal, fits⟩
  | infinity => trivial

/-- A number in canonical form is packed unless it is too large. -/
theorem Normal.magnitude_pack {m k : Nat} (h : Normal m k) (pos : 0 < m) :
    Magnitude (Float.Model.pack (.finite .positive m (k - 1074) pos)).unpack
      (min (m * 2 ^ k) limit) := by
  rcases Nat.lt_or_ge k exponentCount with fits | overflow
  · have magnitude := Magnitude.finite pos h fits
    rwa [magnitude.unpack_pack, Nat.min_eq_left magnitude.le_limit]
  · have low : 2 ^ 52 ≤ m := h.full.resolve_left (by unfold exponentCount at overflow; omega)
    have large : limit ≤ m * 2 ^ k := Nat.mul_le_mul low (Nat.pow_le_pow_right (by decide) overflow)
    rw [unpack_pack_of_overflow overflow, Nat.min_eq_right large]
    exact .infinity

theorem Magnitude.infinity_le {n : Nat} (le : limit ≤ n) : rounded n = limit := by
  apply le_antisymm (Nat.min_le_right _ _)
  calc limit = rounded limit := Magnitude.infinity.rounded_eq.symm
    _ ≤ rounded n := rounded_mono le

/-- The sum of two finite doubles is their exact sum, rounded. -/
theorem add_finite {m m' k k' : Nat} (pos : 0 < m) (pos' : 0 < m') :
    ∃ j i : Nat, 0 < j ∧ j * 2 ^ i = m * 2 ^ k + m' * 2 ^ k' ∧
      UnpackedFloat.add .binary64 (.finite .positive m (k - 1074) pos)
          (.finite .positive m' (k' - 1074) pos') =
        UnpackedFloat.round .binary64 .positive j (i - 1074) := by
  set i := min k k' with hi
  have aligned (l : Nat) (le : i ≤ l) (n : Nat) : n * 2 ^ (l - i) * 2 ^ i = n * 2 ^ l := by
    rw [Nat.mul_assoc, ← Nat.pow_add, Nat.sub_add_cancel le]
  have below : min ((k : Int) - 1074) (k' - 1074) = i - 1074 := by omega
  have shift : ((k : Int) - 1074 - (i - 1074)).toNat = k - i := by omega
  have shift' : ((k' : Int) - 1074 - (i - 1074)).toNat = k' - i := by omega
  have more : 0 < m * 2 ^ (k - i) + m' * 2 ^ (k' - i) :=
    Nat.add_pos_left (Nat.mul_pos pos (Nat.two_pow_pos _)) _
  refine ⟨m * 2 ^ (k - i) + m' * 2 ^ (k' - i), i, more, ?_, ?_⟩
  · rw [Nat.add_mul, aligned k (Nat.min_le_left _ _), aligned k' (Nat.min_le_right _ _)]
  · have above : compare ((m * 2 ^ (k - i) + m' * 2 ^ (k' - i) : Nat) : Int) 0 = .gt :=
      Int.compare_eq_gt.2 (by omega)
    simp only [UnpackedFloat.add, decreaseExponent, below, shift, shift', Nat.shiftLeft_eq, Sign.apply,
      ← Int.natCast_add, UnpackedFloat.normalize, above, Int.toNat_natCast]

theorem Magnitude.infinity_add {v : UnpackedFloat} {n : Nat} (h : Magnitude v n) :
    UnpackedFloat.add .binary64 (.infinity .positive) v = .infinity .positive := by
  cases h <;> rfl

theorem Magnitude.add_infinity {u : UnpackedFloat} {n : Nat} (h : Magnitude u n) :
    UnpackedFloat.add .binary64 u (.infinity .positive) = .infinity .positive := by
  cases h <;> rfl

theorem Magnitude.zero_add {v : UnpackedFloat} {n : Nat} (h : Magnitude v n) (s : Sign) :
    Magnitude (UnpackedFloat.add .binary64 (.zero s) v) n := by
  cases h with
  | zero s' => cases s <;> cases s' <;> exact .zero _
  | finite pos normal fits => exact .finite pos normal fits
  | infinity => exact .infinity

theorem Magnitude.add_zero {u : UnpackedFloat} {n : Nat} (h : Magnitude u n) (s : Sign) :
    Magnitude (UnpackedFloat.add .binary64 u (.zero s)) n := by
  cases h with
  | zero s' => cases s <;> cases s' <;> exact .zero _
  | finite pos normal fits => exact .finite pos normal fits
  | infinity => exact .infinity

/-- The sum of two doubles that are not below zero is their exact sum, rounded. -/
theorem Magnitude.add {u v : UnpackedFloat} {n n' : Nat} (h : Magnitude u n) (h' : Magnitude v n') :
    Magnitude (Float.Model.pack (UnpackedFloat.add .binary64 u v)).unpack (rounded (n + n')) := by
  -- Zero is neutral, infinity absorbs, and two finite doubles are added exactly and then rounded.
  cases h with
  | zero s =>
    have sum := h'.zero_add s
    rwa [sum.unpack_pack, Nat.zero_add, sum.rounded_eq]
  | infinity =>
    rw [h'.infinity_add, Magnitude.infinity.unpack_pack, Magnitude.infinity_le (Nat.le_add_right _ _)]
    exact .infinity
  | finite pos normal fits =>
    have left := Magnitude.finite pos normal fits
    cases h' with
    | zero s' =>
      have sum := left.add_zero s'
      rwa [sum.unpack_pack, Nat.add_zero, left.rounded_eq]
    | infinity =>
      rw [left.add_infinity, Magnitude.infinity.unpack_pack, Magnitude.infinity_le (Nat.le_add_left _ _)]
      exact .infinity
    | finite pos' normal' fits' =>
      obtain ⟨j, i, more, value, eq⟩ := add_finite pos pos'
      obtain ⟨m, k, pos, normal, result, eq'⟩ := round_eq more i
      rw [eq, eq', rounded, ← value, ← result]
      exact normal.magnitude_pack pos

/-- The place of an unpacked double among all of them, unless it is no number. -/
def rank : UnpackedFloat → Int ×ₗ Int ×ₗ Int
  | .infinity .negative => toLex (-2, toLex (0, 0))
  | .finite .negative m e _ => toLex (-1, toLex (-e, -m))
  | .zero _ | .notANumber => toLex (0, toLex (0, 0))
  | .finite .positive m e _ => toLex (1, toLex (e, m))
  | .infinity .positive => toLex (2, toLex (0, 0))

theorem lt_iff_rank (u v : UnpackedFloat) : u.lt v = true ↔
    u.isNaN = false ∧ v.isNaN = false ∧ rank u < rank v := by
  rcases u with (_ | _) | _ | _ | ⟨_ | _, m, e, _⟩ <;>
    rcases v with (_ | _) | _ | _ | ⟨_ | _, m', e', _⟩ <;>
    simp [UnpackedFloat.lt, UnpackedFloat.compare, rank, UnpackedFloat.isNaN,
      Prod.Lex.toLex_lt_toLex, Ordering.then_eq_lt, Ordering.then_eq_gt, Int.compare_eq_lt,
      Int.compare_eq_gt, Nat.compare_eq_lt, Nat.compare_eq_gt]
  rfl

theorem lt_iff_unpack (a b : Float) :
    a < b ↔ a.toModel.unpack.lt b.toModel.unpack = true := by
  show decide (a.toModel < b.toModel) = true ↔ _
  rw [decide_eq_true_iff]
  rfl

theorem add_unpack (a b : Float) : (a + b).toModel.unpack =
    (Float.Model.pack (UnpackedFloat.add .binary64 a.toModel.unpack b.toModel.unpack)).unpack := rfl

theorem Magnitude.isNaN {u : UnpackedFloat} {n : Nat} (h : Magnitude u n) : u.isNaN = false := by
  cases h <;> rfl

theorem exists_magnitude {u : UnpackedFloat} (h : Unpackable u) (number : u.isNaN = false)
    (notBelow : u.lt (.zero .positive) = false) : ∃ n, Magnitude u n := by
  rcases u with (_ | _) | _ | s | ⟨_ | _, m, e, pos⟩
  · exact absurd notBelow (by decide)
  · exact ⟨limit, .infinity⟩
  · exact absurd number (by decide)
  · exact ⟨0, .zero s⟩
  · exact absurd notBelow (by simp [UnpackedFloat.lt, UnpackedFloat.compare])
  · obtain ⟨k, rfl, normal, fits⟩ := h
    exact ⟨_, .finite pos normal fits⟩

/-- The doubles that costs can be are those with a magnitude. -/
theorem nonnegative_iff {a : Float} : Cost.Nonnegative a ↔ ∃ n, Magnitude a.toModel.unpack n := by
  rw [Cost.Nonnegative, lt_iff_unpack, Bool.not_eq_true]
  change a.toModel.unpack.isNaN = false ∧ a.toModel.unpack.lt (.zero .positive) = false ↔ _
  constructor
  · rintro ⟨number, notBelow⟩
    exact exists_magnitude (unpackable_unpack _) number notBelow
  · rintro ⟨n, h⟩
    refine ⟨h.isNaN, ?_⟩
    rw [← Bool.not_eq_true, h.lt_iff (.zero .positive)]
    exact Nat.not_lt_zero n

theorem Magnitude.not_lt_iff {a b : Float} {n m : Nat} (h : Magnitude a.toModel.unpack n)
    (h' : Magnitude b.toModel.unpack m) : ¬ a < b ↔ m ≤ n := by
  rw [lt_iff_unpack, h.lt_iff h', Nat.not_lt]

theorem Magnitude.float_add {a b : Float} {n m : Nat} (h : Magnitude a.toModel.unpack n)
    (h' : Magnitude b.toModel.unpack m) : Magnitude (a + b).toModel.unpack (rounded (n + m)) := by
  rw [add_unpack]
  exact h.add h'

/-- No rounded sum falls below what is below the exact one. -/
theorem Magnitude.le_rounded {u : UnpackedFloat} {n m : Nat} (h : Magnitude u n) (le : n ≤ m) :
    n ≤ rounded m := by
  rw [← h.rounded_eq]
  exact rounded_mono le

/-- Negative zero is neutral, also for itself. -/
theorem negativeZero_add {u : UnpackedFloat} {n : Nat} (h : Magnitude u n) :
    UnpackedFloat.add .binary64 (.zero .negative) u = u := by
  cases h with
  | zero s => cases s <;> rfl
  | finite pos normal fits => rfl
  | infinity => rfl

theorem isNaN_of_isFinite {u : UnpackedFloat} (finite : u.isFinite = true) : u.isNaN = false := by
  cases u with
  | notANumber => exact absurd finite (by decide)
  | infinity s => rfl
  | zero s => rfl
  | finite s m e pos => rfl

instance : OrderedCost Float where
  irrefl a := by
    rw [lt_iff_unpack, lt_iff_rank]
    exact fun h => lt_irrefl _ h.2.2
  trans {a b c} h h' := by
    rw [lt_iff_unpack, lt_iff_rank] at *
    exact ⟨h.1, h'.2.1, lt_trans h.2.2 h'.2.2⟩
  not_lt_trans ha hb hc h h' := by
    obtain ⟨n, ha⟩ := nonnegative_iff.1 ha
    obtain ⟨m, hb⟩ := nonnegative_iff.1 hb
    obtain ⟨k, hc⟩ := nonnegative_iff.1 hc
    rw [hb.not_lt_iff ha] at h
    rw [hc.not_lt_iff hb] at h'
    rw [hc.not_lt_iff ha]
    exact le_trans h h'
  nonnegative_of_finite finite notBelow := ⟨isNaN_of_isFinite finite, notBelow⟩
  nonnegative_zero := ⟨by decide, by decide⟩
  nonnegative_one := ⟨by decide, by decide⟩
  nonnegative_add ha hb := by
    obtain ⟨n, ha⟩ := nonnegative_iff.1 ha
    obtain ⟨m, hb⟩ := nonnegative_iff.1 hb
    exact nonnegative_iff.2 ⟨_, ha.float_add hb⟩
  add_not_lt_left ha hb := by
    obtain ⟨n, ha⟩ := nonnegative_iff.1 ha
    obtain ⟨m, hb⟩ := nonnegative_iff.1 hb
    rw [(ha.float_add hb).not_lt_iff ha]
    exact ha.le_rounded (Nat.le_add_right n m)
  add_not_lt_right ha hb := by
    obtain ⟨n, ha⟩ := nonnegative_iff.1 ha
    obtain ⟨m, hb⟩ := nonnegative_iff.1 hb
    rw [(ha.float_add hb).not_lt_iff hb]
    exact hb.le_rounded (Nat.le_add_left m n)
  add_not_lt_add ha hb hc hd h h' := by
    obtain ⟨n, ha⟩ := nonnegative_iff.1 ha
    obtain ⟨m, hb⟩ := nonnegative_iff.1 hb
    obtain ⟨k, hc⟩ := nonnegative_iff.1 hc
    obtain ⟨l, hd⟩ := nonnegative_iff.1 hd
    rw [hc.not_lt_iff ha] at h
    rw [hd.not_lt_iff hb] at h'
    rw [(hc.float_add hd).not_lt_iff (ha.float_add hb)]
    exact rounded_mono (Nat.add_le_add h h')
  emptySum_add {a} ha := by
    obtain ⟨n, ha⟩ := nonnegative_iff.1 ha
    show Float.ofModel (Float.Model.pack
      (UnpackedFloat.add .binary64 (.zero .negative) a.toModel.unpack)) = a
    rw [negativeZero_add ha, pack_model_unpack]

end Extraction.Double
