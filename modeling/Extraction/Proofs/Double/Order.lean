import Extraction.Proofs.Double.Laws

/-! The order of all doubles. Those that are numbers are ordered by their places, and what is no number compares
with nothing. -/
namespace Extraction.Double

open Float.Model Float.Model.UnpackedFloat

theorem le_iff_rank (u v : UnpackedFloat) : u.le v = true ↔
    u.isNaN = false ∧ v.isNaN = false ∧ rank u ≤ rank v := by
  rcases u with (_ | _) | _ | _ | ⟨_ | _, m, e, _⟩ <;>
    rcases v with (_ | _) | _ | _ | ⟨_ | _, m', e', _⟩ <;>
    simp [UnpackedFloat.le, UnpackedFloat.compare, rank, UnpackedFloat.isNaN,
      Prod.Lex.toLex_le_toLex, Ordering.isLE_iff_ne_gt, Ordering.isGE_iff_ne_lt, Ordering.then_eq_gt,
      Ordering.then_eq_lt, Int.compare_eq_gt, Int.compare_eq_lt, Nat.compare_eq_gt, Nat.compare_eq_lt]
  · rfl
  · omega
  · omega

theorem le_iff_unpack (a b : Float) :
    a ≤ b ↔ a.toModel.unpack.le b.toModel.unpack = true := by
  show decide (a.toModel ≤ b.toModel) = true ↔ _
  rw [decide_eq_true_iff]
  rfl

variable {a b : Float}

theorem not_isNaN_of_lt (less : a < b) : a.isNaN = false ∧ b.isNaN = false := by
  rw [lt_iff_unpack, lt_iff_rank] at less
  exact ⟨less.1, less.2.1⟩

theorem not_le_of_lt (less : a < b) : ¬ b ≤ a := by
  rw [lt_iff_unpack, lt_iff_rank] at less
  rw [le_iff_unpack, le_iff_rank]
  exact fun le => not_le.2 less.2.2 le.2.2

/-- Of two numbers the one that is not above the other is below it. -/
theorem lt_of_not_le (number : a.isNaN = false) (number' : b.isNaN = false) (above : ¬ b ≤ a) : a < b := by
  rw [le_iff_unpack, le_iff_rank] at above
  rw [lt_iff_unpack, lt_iff_rank]
  exact ⟨number, number', lt_of_not_ge fun le => above ⟨number', number, le⟩⟩

protected theorem lt_of_lt_of_le {c : Float} (less : a < b) (le : b ≤ c) : a < c := by
  rw [lt_iff_unpack, lt_iff_rank] at *
  rw [le_iff_unpack, le_iff_rank] at le
  exact ⟨less.1, le.2.1, less.2.2.trans_le le.2.2⟩

theorem not_isNaN_of_isFinite (finite : a.isFinite = true) : a.isNaN = false := isNaN_of_isFinite finite

end Extraction.Double
