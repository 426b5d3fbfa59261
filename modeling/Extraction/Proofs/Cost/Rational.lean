import Mathlib
import Extraction.Proofs.Cost.Laws

/-! Costs that are added without rounding. -/
namespace Extraction

instance : Cost ℚ≥0 where
  decidableLT := inferInstance
  emptySum := 0
  isNaN _ := false
  isFinite _ := true

theorem nonnegative_rational (a : ℚ≥0) : Cost.Nonnegative a := ⟨rfl, not_lt_zero⟩

instance : ExactCost ℚ≥0 where
  irrefl := lt_irrefl
  trans := lt_trans
  not_lt_trans _ _ _ h h' := not_lt.2 (le_trans (not_lt.1 h) (not_lt.1 h'))
  nonnegative_of_finite _ _ := nonnegative_rational _
  nonnegative_zero := nonnegative_rational _
  nonnegative_one := nonnegative_rational _
  nonnegative_add _ _ := nonnegative_rational _
  add_not_lt_left _ _ := not_lt.2 le_self_add
  add_not_lt_right _ _ := not_lt.2 le_add_self
  add_not_lt_add _ _ _ _ h h' := not_lt.2 (add_le_add (not_lt.1 h) (not_lt.1 h'))
  emptySum_add _ := zero_add _
  nonnegative := nonnegative_rational
  eq_of_not_lt h h' := le_antisymm (not_lt.1 h') (not_lt.1 h)
  add_comm := add_comm
  add_assoc := add_assoc
  emptySum_eq := rfl

instance : StrictCost ℚ≥0 where
  add_lt_add_left c less := add_lt_add_right less c

instance : MonotoneCost ℚ≥0 where
  nonnegative_mul _ _ _ := nonnegative_rational _
  mul_not_lt _ _ factor := not_lt.2 (le_mul_of_one_le_right' (not_lt.1 factor))
  mul_not_lt_mul _ _ _ _ _ _ le le' := not_lt.2 (mul_le_mul' (not_lt.1 le) (not_lt.1 le'))

end Extraction
