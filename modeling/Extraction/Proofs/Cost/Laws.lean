import Extraction.Cost
import Mathlib.Tactic.ByContra

/-! What the algorithms need of cost arithmetic. `OrderedCost` holds where sums are rounded: they never
fall below a summand and keep the order of their summands. `ExactCost` holds where sums are exact, `StrictCost`
where a greater summand makes a greater sum, `ScaledCost` where costs are scaled as well, and `MonotoneCost` where
products keep the order of their factors. -/
namespace Extraction

variable {α : Type} [Cost α]

namespace Cost

/-- A cost that can be compared and is not below zero. -/
def Nonnegative (a : α) : Prop := Cost.isNaN a = false ∧ ¬ a < 0

/-- The new total of a class is its old one or improves on it. -/
def Lowers (old new : Option α) : Prop := new = old ∨ ∃ a, new = some a ∧ improves a old = true

end Cost

open Cost (Nonnegative)

/-- Order and addition of costs, rounded sums and infinite ones included. -/
class OrderedCost (α : Type) [Cost α] : Prop where
  irrefl (a : α) : ¬ a < a
  trans {a b c : α} : a < b → b < c → a < c
  not_lt_trans {a b c : α} : Nonnegative a → Nonnegative b → Nonnegative c →
    ¬ b < a → ¬ c < b → ¬ c < a
  nonnegative_of_finite {a : α} : Cost.isFinite a = true → ¬ a < 0 → Nonnegative a
  nonnegative_zero : Nonnegative (0 : α)
  nonnegative_one : Nonnegative (1 : α)
  nonnegative_add {a b : α} : Nonnegative a → Nonnegative b → Nonnegative (a + b)
  add_not_lt_left {a b : α} : Nonnegative a → Nonnegative b → ¬ a + b < a
  add_not_lt_right {a b : α} : Nonnegative a → Nonnegative b → ¬ a + b < b
  add_not_lt_add {a b c d : α} : Nonnegative a → Nonnegative b → Nonnegative c → Nonnegative d →
    ¬ c < a → ¬ d < b → ¬ c + d < a + b
  emptySum_add {a : α} : Nonnegative a → Cost.emptySum + a = a

/-- Costs that are exact numbers not below zero. -/
class ExactCost (α : Type) [Cost α] : Prop extends OrderedCost α where
  nonnegative (a : α) : Nonnegative a
  eq_of_not_lt {a b : α} : ¬ a < b → ¬ b < a → a = b
  add_comm (a b : α) : a + b = b + a
  add_assoc (a b c : α) : a + b + c = a + (b + c)
  emptySum_eq : (Cost.emptySum : α) = 0

/-- Exact costs whose sums grow with each summand. -/
class StrictCost (α : Type) [Cost α] : Prop extends ExactCost α where
  add_lt_add_left {a b : α} (c : α) : a < b → c + a < c + b

/-- Costs that a finite factor of one or more does not lower. -/
class ScaledCost (α : Type) [Cost α] : Prop extends OrderedCost α where
  nonnegative_mul {a b : α} : Nonnegative a → Cost.isFinite b = true → ¬ b < 1 → Nonnegative (a * b)
  mul_not_lt {a b : α} : Nonnegative a → Cost.isFinite b = true → ¬ b < 1 → ¬ a * b < a

/-- Costs whose products with finite factors of one or more keep the order, rounded as they may be. -/
class MonotoneCost (α : Type) [Cost α] : Prop extends ScaledCost α where
  mul_not_lt_mul {a b c d : α} : Nonnegative a → Nonnegative b → Cost.isFinite c = true →
    Cost.isFinite d = true → ¬ c < 1 → ¬ d < 1 → ¬ b < a → ¬ d < c → ¬ b * d < a * c

namespace OrderedCost
variable [OrderedCost α]

theorem asymm {a b : α} (h : a < b) : ¬ b < a := fun h' => irrefl a (trans h h')

theorem lt_of_lt_of_not_lt {a b c : α} (ha : Nonnegative a) (hb : Nonnegative b)
    (hc : Nonnegative c) (less : a < b) (notLess : ¬ c < b) : a < c := by
  by_contra h
  exact not_lt_trans hb hc ha notLess h less

theorem lt_of_not_lt_of_lt {a b c : α} (ha : Nonnegative a) (hb : Nonnegative b)
    (hc : Nonnegative c) (notLess : ¬ b < a) (less : b < c) : a < c := by
  by_contra h
  exact not_lt_trans hc ha hb h notLess less

end OrderedCost

namespace Cost
variable [OrderedCost α]

/-- What does not improve on a total does not improve on a lower one. -/
theorem not_improves_of_improves {a b : α} {best : Option α} (bound : improves a best = false)
    (lower : improves b best = true) : improves a (some b) = false := by
  obtain ⟨c, rfl, notLess⟩ := not_improves_iff.1 bound
  rw [improves_some] at lower
  rw [not_improves_some]
  exact fun less => notLess (OrderedCost.trans less lower)

theorem not_improves_self (a : α) : improves a (some a) = false :=
  not_improves_some.2 (OrderedCost.irrefl a)

theorem not_improves_of_not_lt {a b : α} {best : Option α} (ha : Nonnegative a) (hb : Nonnegative b)
    (hbest : ∀ c, best = some c → Nonnegative c) (notLess : ¬ a < b)
    (bound : improves b best = false) : improves a best = false := by
  obtain ⟨c, rfl, notLess'⟩ := not_improves_iff.1 bound
  exact not_improves_some.2 (OrderedCost.not_lt_trans (hbest c rfl) hb ha notLess' notLess)

theorem improves_trans {a b : α} {best : Option α} (less : a < b)
    (lower : improves b best = true) : improves a best = true := by
  cases best with
  | none => rfl
  | some c => exact improves_some.2 (OrderedCost.trans less (improves_some.1 lower))

omit [OrderedCost α] in
theorem Lowers.refl (old : Option α) : Lowers old old := .inl rfl

theorem Lowers.trans {x y z : Option α} (h : Lowers x y) (h' : Lowers y z) : Lowers x z := by
  obtain rfl | ⟨a, rfl, better⟩ := h
  · exact h'
  · obtain rfl | ⟨b, rfl, better'⟩ := h'
    · exact .inr ⟨a, rfl, better⟩
    · exact .inr ⟨b, rfl, improves_trans (improves_some.1 better') better⟩

/-- What does not improve on a total does not improve on what became of it. -/
theorem Lowers.not_improves {a : α} {old new : Option α} (h : Lowers old new)
    (bound : improves a old = false) : improves a new = false := by
  obtain rfl | ⟨b, rfl, better⟩ := h
  · exact bound
  · exact not_improves_of_improves bound better

end Cost

end Extraction
